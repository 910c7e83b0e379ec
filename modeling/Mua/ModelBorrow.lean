import Mua.AgentFrame
import Mua.AgentRounds

/-! # The model a turn borrows

`resolve_turn_model` hands a turn the string of the options store itself. Here the
strings of the `model` slot are blocks with a live flag: `options_set` frees the
block of the slot and allocates another. The Lua code that runs inside a turn runs
at the callbacks of its history, so the store at each request is the fold of what
that code assigned so far.
-/

namespace Mua.Agent

open Session Openrouter

structure Block where
  text : Bytes
  live : Bool
  deriving DecidableEq, Repr

/-- The store, every block its `model` slot ever had, and the one it owns. -/
structure OwnedOptions where
  store : OptionStore
  blocks : List Block
  model : Option Nat

structure OwnedOptions.Valid (o : OwnedOptions) : Prop where
  owned : ∀ a, o.model = some a → ∃ text, o.blocks[a]? = some ⟨text, true⟩ ∧
    o.store.slots .model = some (.string text)
  unset : o.model = none → o.store.slots .model = none

/-- `clear_slot` of the model: its block, if there is one, is freed. -/
def clearModel (o : OwnedOptions) : List Block :=
  match o.model with
  | none => o.blocks
  | some a => o.blocks.modify a fun block => { block with live := false }

/-- `options_set` with the blocks of the model; a refused value changes nothing. -/
def ownedSet (o : OwnedOptions) (name : Bytes) (value : Object) : Except Error OwnedOptions :=
  (optionsSet o.store name value).map fun store =>
    match optionIndex name, value with
    | some .model, .string text =>
      ⟨store, clearModel o ++ [⟨text, true⟩], some (clearModel o).length⟩
    | _, _ => { o with store }

/-- An assignment to `mua.o`, whether it is refused or not. -/
def assign (o : OwnedOptions) (c : Bytes × Object) : OwnedOptions :=
  match ownedSet o c.1 c.2 with
  | .ok o' => o'
  | .error _ => o

inductive ModelRef
  | null
  | cli (text : Bytes)
  | option (a : Nat)
  deriving DecidableEq, Repr

def optionsModelBorrow (o : OwnedOptions) : ModelRef :=
  match o.model with
  | none => .null
  | some a => .option a

def resolveTurnModel (cliModel : Option Bytes) (o : OwnedOptions) : ModelRef :=
  match cliModel with
  | some text => .cli text
  | none => optionsModelBorrow o

/-- What a read through the reference finds: NULL, a string, or (none) a freed block. -/
def readModel (o : OwnedOptions) : ModelRef → Option (Option Bytes)
  | .null => some none
  | .cli text => some (some text)
  | .option a =>
    match o.blocks[a]? with
    | some ⟨text, true⟩ => some (some text)
    | _ => none

def AgentOutput.runsLua : AgentOutput → Bool
  | .onText _ | .gate .. | .onToolResult .. | .execute .. => true
  | _ => false

/-- What the Lua code run by the last entry of a history assigns, in order. -/
abbrev Assigns : Type := History → List (Bytes × Object)

/-- The options after `rest`, which follows `before`. -/
def optionsFrom (assigns : Assigns) (o : OwnedOptions) (before : History) : History → OwnedOptions
  | [] => o
  | entry :: rest =>
    let o := if entry.runsLua then (assigns (before ++ [entry])).foldl assign o else o
    optionsFrom assigns o (before ++ [entry]) rest

def optionsAt (assigns : Assigns) (o : OwnedOptions) (out : History) : OwnedOptions :=
  optionsFrom assigns o [] out

/-- A string for the `model` option: the assignments that succeed and free its block. -/
def SetsModel (c : Bytes × Object) : Prop := c.1 = ascii "model" ∧ c.2.type = .string

instance (c : Bytes × Object) : Decidable (SetsModel c) :=
  inferInstanceAs (Decidable (c.1 = ascii "model" ∧ c.2.type = .string))

/-- In `rest`, which follows `before`, Lua code sets the model. -/
def ModelSetFrom (assigns : Assigns) (before rest : History) : Prop :=
  ∃ mid entry after, rest = mid ++ entry :: after ∧ entry.runsLua = true ∧
    ∃ c ∈ assigns (before ++ mid ++ [entry]), SetsModel c

def ModelSetIn (assigns : Assigns) (out : History) : Prop := ModelSetFrom assigns [] out

variable {o o' : OwnedOptions} {c : Bytes × Object} {a : Nat} {text : Bytes} {assigns : Assigns}

theorem optionIndex_name {name : Bytes} {key : OptionKey} (h : optionIndex name = some key) :
    (optionDef key).name = name := by
  have hFound := List.find?_some h
  simpa using hFound

theorem optionIndex_model : optionIndex (ascii "model") = some .model := by decide

theorem optionsSet_model (store : OptionStore) (text : Bytes) :
    ∃ store', optionsSet store (ascii "model") (.string text) = .ok store' := by
  unfold optionsSet
  rw [optionIndex_model]
  have hType : (Object.string text).type = (optionDef .model).type := rfl
  have hRange : InRange (optionDef .model) (.string text) := trivial
  exact ⟨_, (dif_pos hType).trans (dif_pos hRange)⟩

theorem optionsSet_ok {store store' : OptionStore} {name : Bytes} {value : Object}
    (h : optionsSet store name value = .ok store') :
    ∃ key, optionIndex name = some key ∧ value.type = (optionDef key).type ∧
      store'.slots = Function.update store.slots key (some value) := by
  unfold optionsSet at h
  split at h
  · cases h
  rename_i key hKey
  split at h
  · rename_i hType
    split at h
    · exact ⟨key, hKey, hType, (congrArg OptionStore.slots (Except.ok.inj h)).symm⟩
    · cases h
  · cases h

theorem type_string {value : Object} (h : value.type = .string) : ∃ text, value = .string text := by
  cases value with
  | string text => exact ⟨text, rfl⟩
  | _ => cases h

/-- An assignment sets the model, or leaves its block and its slot alone. -/
theorem assign_cases (o : OwnedOptions) (c : Bytes × Object) :
    (∃ text store, c = (ascii "model", .string text) ∧ store.slots .model = some (.string text) ∧
      assign o c = ⟨store, clearModel o ++ [⟨text, true⟩], some (clearModel o).length⟩) ∨
    ¬SetsModel c ∧ ∃ store, store.slots .model = o.store.slots .model ∧
      assign o c = { o with store } := by
  obtain ⟨name, value⟩ := c
  cases hSet : optionsSet o.store name value with
  | error err =>
    right
    have hAssign : assign o (name, value) = o := by
      simp [assign, ownedSet, hSet, Except.map]
    refine ⟨?_, o.store, rfl, hAssign⟩
    rintro ⟨hName, hType⟩
    obtain ⟨text, rfl⟩ := type_string hType
    obtain rfl : name = ascii "model" := hName
    obtain ⟨store, hOk⟩ := optionsSet_model o.store text
    cases hSet.symm.trans hOk
  | ok store =>
    obtain ⟨key, hKey, hType, hSlots⟩ := optionsSet_ok hSet
    by_cases hModel : key = .model
    · subst hModel
      obtain ⟨text, rfl⟩ := type_string hType
      obtain rfl := optionIndex_name hKey
      left
      refine ⟨text, store, rfl, ?_, ?_⟩
      · rw [hSlots, Function.update_self]
      · simp [assign, ownedSet, hSet, hKey, Except.map]
    · right
      refine ⟨?_, store, ?_, ?_⟩
      · rintro ⟨hName, -⟩
        obtain rfl : name = ascii "model" := hName
        exact hModel (Option.some.inj (hKey.symm.trans optionIndex_model))
      · rw [hSlots, Function.update_of_ne (Ne.symm hModel)]
      · cases key with
        | model => exact absurd rfl hModel
        | _ => simp [assign, ownedSet, hSet, hKey, Except.map]

theorem assign_model (hSets : SetsModel c) :
    ∃ text, (assign o c).blocks = clearModel o ++ [⟨text, true⟩] := by
  rcases assign_cases o c with ⟨text, store, -, -, hAssign⟩ | ⟨hNot, -⟩
  · exact ⟨text, by rw [hAssign]⟩
  · exact absurd hSets hNot

theorem assign_other (hOther : ¬SetsModel c) :
    (assign o c).blocks = o.blocks ∧ (assign o c).model = o.model := by
  rcases assign_cases o c with ⟨text, store, rfl, -, -⟩ | ⟨-, store, -, hAssign⟩
  · exact absurd ⟨rfl, rfl⟩ hOther
  · rw [hAssign]
    exact ⟨rfl, rfl⟩

theorem assign_valid (h : o.Valid) (c : Bytes × Object) : (assign o c).Valid := by
  rcases assign_cases o c with ⟨text, store, rfl, hSlot, hAssign⟩ | ⟨-, store, hSlot, hAssign⟩
  · rw [hAssign]
    refine ⟨fun a ha => ⟨text, ?_, hSlot⟩, nofun⟩
    cases ha
    simp
  · rw [hAssign]
    exact ⟨fun a ha => hSlot ▸ h.owned a ha, fun hNone => hSlot.trans (h.unset hNone)⟩

def Dead (o : OwnedOptions) (a : Nat) : Prop := ∃ text, o.blocks[a]? = some ⟨text, false⟩

def Held (o : OwnedOptions) (a : Nat) (text : Bytes) : Prop :=
  o.model = some a ∧ o.blocks[a]? = some ⟨text, true⟩

theorem clearModel_dead (h : Held o a text) : (clearModel o)[a]? = some ⟨text, false⟩ := by
  rw [clearModel, h.1]
  simp [h.2]

theorem clearModel_other (h : Dead o a) : ∃ text, (clearModel o)[a]? = some ⟨text, false⟩ := by
  obtain ⟨text, hBlock⟩ := h
  refine ⟨text, ?_⟩
  unfold clearModel
  split
  · exact hBlock
  · rw [List.getElem?_modify, hBlock]
    simp

theorem assign_dead (h : Dead o a) (c : Bytes × Object) : Dead (assign o c) a := by
  rcases assign_cases o c with ⟨text, store, -, -, hAssign⟩ | ⟨-, store, -, hAssign⟩
  · obtain ⟨old, hBlock⟩ := clearModel_other h
    obtain ⟨hLt, -⟩ := List.getElem?_eq_some_iff.mp hBlock
    refine ⟨old, ?_⟩
    rw [hAssign, List.getElem?_append_left hLt, hBlock]
  · rw [hAssign]
    exact h

theorem assign_frees (h : Held o a text) (hSets : SetsModel c) : Dead (assign o c) a := by
  obtain ⟨last, hBlocks⟩ := assign_model (o := o) hSets
  have hBlock := clearModel_dead h
  obtain ⟨hLt, -⟩ := List.getElem?_eq_some_iff.mp hBlock
  refine ⟨text, ?_⟩
  rw [hBlocks, List.getElem?_append_left hLt, hBlock]

theorem assign_held (h : Held o a text) (hOther : ¬SetsModel c) : Held (assign o c) a text := by
  obtain ⟨hBlocks, hModel⟩ := assign_other (o := o) hOther
  exact ⟨hModel.trans h.1, by rw [hBlocks]; exact h.2⟩

theorem foldl_dead (h : Dead o a) (cs : List (Bytes × Object)) : Dead (cs.foldl assign o) a := by
  induction cs generalizing o with
  | nil => exact h
  | cons c cs ih => exact ih (assign_dead h c)

theorem optionsFrom_dead (h : Dead o a) (before rest : History) :
    Dead (optionsFrom assigns o before rest) a := by
  induction rest generalizing o before with
  | nil => exact h
  | cons entry rest ih =>
    apply ih
    split
    · exact foldl_dead h _
    · exact h

theorem foldl_cases (h : Held o a text) (cs : List (Bytes × Object)) :
    ((∃ c ∈ cs, SetsModel c) ∧ Dead (cs.foldl assign o) a) ∨
      ((∀ c ∈ cs, ¬SetsModel c) ∧ Held (cs.foldl assign o) a text) := by
  induction cs generalizing o with
  | nil => exact .inr ⟨nofun, h⟩
  | cons c cs ih =>
    by_cases hSets : SetsModel c
    · exact .inl ⟨⟨c, List.mem_cons_self, hSets⟩, foldl_dead (assign_frees h hSets) cs⟩
    · rcases ih (assign_held h hSets) with ⟨⟨d, hd, hSetsD⟩, hDead⟩ | ⟨hNone, hHeld⟩
      · exact .inl ⟨⟨d, List.mem_cons_of_mem c hd, hSetsD⟩, hDead⟩
      · exact .inr ⟨List.forall_mem_cons.mpr ⟨hSets, hNone⟩, hHeld⟩

theorem modelSetFrom_cons {before rest : History} {entry : AgentOutput} :
    ModelSetFrom assigns before (entry :: rest) ↔
      (entry.runsLua = true ∧ ∃ c ∈ assigns (before ++ [entry]), SetsModel c) ∨
        ModelSetFrom assigns (before ++ [entry]) rest := by
  have hSplit (mid : History) (e : AgentOutput) :
      before ++ entry :: mid ++ [e] = before ++ [entry] ++ mid ++ [e] := by simp
  constructor
  · rintro ⟨mid, e, after, hRest, hLua, hSets⟩
    cases mid with
    | nil =>
      cases hRest
      rw [List.append_nil] at hSets
      exact .inl ⟨hLua, hSets⟩
    | cons m mid =>
      cases hRest
      rw [hSplit] at hSets
      exact .inr ⟨mid, e, after, rfl, hLua, hSets⟩
  · rintro (⟨hLua, hSets⟩ | ⟨mid, e, after, rfl, hLua, hSets⟩)
    · refine ⟨[], entry, rest, rfl, hLua, ?_⟩
      rwa [List.append_nil]
    · refine ⟨entry :: mid, e, after, rfl, hLua, ?_⟩
      rwa [hSplit]

theorem optionsFrom_cases (assigns : Assigns) (h : Held o a text) (before rest : History) :
    (ModelSetFrom assigns before rest ∧ Dead (optionsFrom assigns o before rest) a) ∨
      (¬ModelSetFrom assigns before rest ∧ Held (optionsFrom assigns o before rest) a text) := by
  induction rest generalizing o before with
  | nil =>
    refine .inr ⟨?_, h⟩
    rintro ⟨mid, entry, after, hNil, -⟩
    cases mid <;> cases hNil
  | cons entry rest ih =>
    rw [modelSetFrom_cons, optionsFrom]
    split
    · rename_i hLua
      rcases foldl_cases h (assigns (before ++ [entry])) with ⟨hSets, hDead⟩ | ⟨hNone, hHeld⟩
      · exact .inl ⟨.inl ⟨hLua, hSets⟩, optionsFrom_dead hDead _ _⟩
      · rcases ih hHeld (before ++ [entry]) with ⟨hSets, hDead⟩ | ⟨hNot, hHeld'⟩
        · exact .inl ⟨.inr hSets, hDead⟩
        · refine .inr ⟨?_, hHeld'⟩
          rintro (⟨-, c, hc, hSets⟩ | hSets)
          · exact hNone c hc hSets
          · exact hNot hSets
    · rename_i hLua
      rcases ih h (before ++ [entry]) with ⟨hSets, hDead⟩ | ⟨hNot, hHeld⟩
      · exact .inl ⟨.inr hSets, hDead⟩
      · exact .inr ⟨fun hOr => hOr.elim (fun hHere => hLua hHere.1) hNot, hHeld⟩

/-- `build_body` of a request, whose model is read through the borrow; `none` if it is freed. -/
def requestBody (lib : JsonLib) (o : OwnedOptions) (ref : ModelRef) (sent : OpenrouterOpts) :
    Option Bytes :=
  (readModel o ref).map fun model => buildBody lib { sent with model }

/-- The body of a request names the model of the turn, and the borrow it is read through lives. -/
def NamesModel (lib : JsonLib) (model : Option Bytes) (o : OwnedOptions) (ref : ModelRef)
    (sent : OpenrouterOpts) : Prop :=
  sent.model = model ∧ requestBody lib o ref sent = some (buildBody lib sent)

theorem readModel_held (h : Held o a text) : readModel o (.option a) = some (some text) := by
  simp [readModel, h.2]

theorem readModel_dead (h : Dead o a) : readModel o (.option a) = none := by
  obtain ⟨text, hBlock⟩ := h
  simp [readModel, hBlock]

/-- The options of the turn, and the model of each of its requests. -/
structure Sends (opts : AgentOpts) (turn : AgentTurn) : Prop where
  opts_eq : turn.opts = opts
  model : ∀ sent, .request sent ∈ turn.out → sent.model = opts.model

variable {lib : JsonLib} {w : World} {opts : AgentOpts}

theorem Sends.adds {P : AgentOutput → Prop} {turn turn' : AgentTurn} (hAdds : Adds P turn turn')
    (hP : ∀ o, P o → o.isRequest = false) (h : Sends opts turn) : Sends opts turn' := by
  obtain ⟨new, hNew, hAll⟩ := hAdds.entries
  refine ⟨hAdds.opts.trans h.opts_eq, fun sent hSent => ?_⟩
  rw [hNew] at hSent
  rcases List.mem_append.mp hSent with hOld | hHere
  · exact h.model sent hOld
  · cases hP _ (hAll _ hHere)

theorem sends_kept (lib : JsonLib) (w : World) (opts : AgentOpts) : Kept lib w (Sends opts) where
  passive hAdds h := h.adds hAdds fun _ ho => ho.2
  start idx h := h.adds (startTool_adds lib w _ idx) fun _ ho => ho
  request tools h := by
    refine ⟨h.opts_eq, fun sent hSent => ?_⟩
    rcases List.mem_append.mp hSent with hOld | hHere
    · exact h.model sent hOld
    · cases List.mem_singleton.mp hHere
      exact congrArg AgentOpts.model h.opts_eq

theorem agentTurnStart_sends {session : SessionState} {store : OptionStore} {env : Env}
    {userText : Bytes} {timerInits : Bool} {turn : AgentTurn}
    (hStart : agentTurnStart lib w opts session store env userText timerInits = (turn, .ok ())) :
    Sends opts turn := by
  obtain ⟨sess, -, rfl⟩ := agentTurnStart_ok w hStart
  refine ⟨rfl, fun sent hSent => ?_⟩
  cases List.mem_singleton.mp hSent

theorem borrow_cases (assigns : Assigns) (hValid : o.Valid) {model : Option Bytes}
    (hModel : readModel o (resolveTurnModel none o) = some model) (before : History) :
    (readModel (optionsAt assigns o before) (resolveTurnModel none o) = some model ∧
        (o.model = none ∨ ¬ModelSetIn assigns before)) ∨
      readModel (optionsAt assigns o before) (resolveTurnModel none o) = none ∧
        o.model ≠ none ∧ ModelSetIn assigns before := by
  have hRef : resolveTurnModel none o = optionsModelBorrow o := rfl
  rw [hRef] at hModel ⊢
  unfold optionsModelBorrow at hModel ⊢
  cases hSlot : o.model with
  | none =>
    rw [hSlot] at hModel
    exact .inl ⟨hModel, .inl rfl⟩
  | some a =>
    obtain ⟨text, hBlock, -⟩ := hValid.owned a hSlot
    have hHeld : Held o a text := ⟨hSlot, hBlock⟩
    rw [hSlot] at hModel
    rcases optionsFrom_cases assigns hHeld [] before with ⟨hSet, hDead⟩ | ⟨hNot, hHeld'⟩
    · exact .inr ⟨readModel_dead hDead, nofun, hSet⟩
    · left
      refine ⟨?_, .inr hNot⟩
      exact (readModel_held hHeld').trans ((readModel_held hHeld).symm.trans hModel)

/-- A turn without `-m`: its requests name the model resolved at its start, through a borrow that
lives, if and only if no option string was borrowed or no Lua code of the turn has set the model
before any of them. -/
theorem turn_namesModel_iff {session : SessionState} {env : Env} {userText : Bytes}
    {timerInits : Bool} {inputs : List TurnInput} {turn turn' : AgentTurn} (hValid : o.Valid)
    (hModel : readModel o (resolveTurnModel none o) = some opts.model)
    (hStart : agentTurnStart lib w opts session o.store env userText timerInits = (turn, .ok ()))
    (hRun : Run.run (step lib w) turn inputs = some turn') :
    (∀ before sent after, turn'.out = before ++ .request sent :: after →
        NamesModel lib opts.model (optionsAt assigns o before) (resolveTurnModel none o) sent) ↔
      (o.model = none ∨ ∀ before sent after, turn'.out = before ++ .request sent :: after →
        ¬ModelSetIn assigns before) := by
  have hAdmitted : ∀ input ∈ inputs, input.Admitted (Sends opts) := by
    intro input _
    cases input with
    | done id message usage => exact fun h => ⟨h.opts_eq, h.model⟩
    | _ => trivial
  have hSends := (sends_kept lib w opts).run hAdmitted (agentTurnStart_sends hStart) hRun
  constructor
  · intro hNames
    by_contra hSet
    obtain ⟨hSlot, hLater⟩ := not_or.mp hSet
    push Not at hLater
    obtain ⟨before, sent, after, hOut, hSetIn⟩ := hLater
    have hBody := (hNames before sent after hOut).2
    rcases borrow_cases assigns hValid hModel before with ⟨-, hKept⟩ | ⟨hFreed, -⟩
    · exact hKept.elim hSlot fun hNot => hNot hSetIn
    · rw [requestBody, hFreed] at hBody
      cases hBody
  · intro hUnset before sent after hOut
    have hSent : sent.model = opts.model := by
      apply hSends.model
      rw [hOut]
      exact List.mem_append_right before List.mem_cons_self
    refine ⟨hSent, ?_⟩
    rcases borrow_cases assigns hValid hModel before with ⟨hRead, -⟩ | ⟨-, hSlot, hSet⟩
    · rw [requestBody, hRead, ← hSent]
      rfl
    · exact absurd hSet (hUnset.resolve_left hSlot before sent after hOut)

/-! A `ToolPost` hook that sets `mua.o.model` between the two requests of a turn. -/

def borrowOptions : OwnedOptions :=
  assign ⟨.empty, [], none⟩ (ascii "model", .string (ascii "a"))

theorem borrowOptions_valid : borrowOptions.Valid :=
  assign_valid ⟨by rintro a ⟨⟩, fun _ => rfl⟩ _

def borrowTurn : AgentTurn :=
  (agentTurnStart emptyLib toolWorld ⟨some (ascii "a"), none, 0⟩ sampleSession borrowOptions.store
    sampleEnv (ascii "hi") true).1

def hookAssigns (value : Bytes) : Assigns := fun out =>
  match out.getLast? with
  | some (.onToolResult ..) => [(ascii "model", .string value)]
  | _ => []

theorem borrowTurn_start : agentTurnStart emptyLib toolWorld ⟨some (ascii "a"), none, 0⟩
    sampleSession borrowOptions.store sampleEnv (ascii "hi") true = (borrowTurn, .ok ()) := rfl

/-- With the hook, the second request of the turn reads its model through a freed block. -/
theorem hook_frees_model : ∃ turn before sent after,
    readModel borrowOptions (resolveTurnModel none borrowOptions) = some (some (ascii "a")) ∧
    agentTurnStart emptyLib toolWorld ⟨some (ascii "a"), none, 0⟩ sampleSession
      borrowOptions.store sampleEnv (ascii "hi") true = (borrowTurn, .ok ()) ∧
    Run.run (step emptyLib toolWorld) borrowTurn toolInputs = some turn ∧
    turn.out = before ++ .request sent :: after ∧
    readModel (optionsAt (hookAssigns (ascii "b")) borrowOptions before)
      (resolveTurnModel none borrowOptions) = none := by
  obtain ⟨turn, hRun, sent, hSent, hRead⟩ : ∃ turn,
      Run.run (step emptyLib toolWorld) borrowTurn toolInputs = some turn ∧
      (∃ sent, turn.out.drop 13 = .request sent :: turn.out.drop 14 ∧
        readModel (optionsAt (hookAssigns (ascii "b")) borrowOptions (turn.out.take 13))
          (resolveTurnModel none borrowOptions) = none) := ⟨_, rfl, _, rfl, rfl⟩
  refine ⟨turn, turn.out.take 13, sent, turn.out.drop 14, rfl, borrowTurn_start, hRun, ?_, hRead⟩
  rw [← hSent, List.take_append_drop]

theorem turn_namesModel_unset : ∃ turn,
    Run.run (step emptyLib toolWorld) borrowTurn toolInputs = some turn ∧
    ∀ before sent after, turn.out = before ++ .request sent :: after →
      NamesModel emptyLib (some (ascii "a")) (optionsAt (fun _ => []) borrowOptions before)
        (resolveTurnModel none borrowOptions) sent := by
  obtain ⟨turn, hRun⟩ : ∃ turn,
      Run.run (step emptyLib toolWorld) borrowTurn toolInputs = some turn := ⟨_, rfl⟩
  refine ⟨turn, hRun, ?_⟩
  refine (turn_namesModel_iff borrowOptions_valid rfl borrowTurn_start hRun).mpr (.inr ?_)
  rintro before sent after - ⟨mid, entry, rest, -, -, c, hc, -⟩
  cases hc

end Mua.Agent
