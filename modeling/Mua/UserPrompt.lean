import Mathlib.Data.List.Induction
import Mua.ToolRegistry

/-! # UserPromptPre

The hooks get one payload table after the other's hand. A string that one returns goes
into the `prompt` field of the table, and after the last hook the text is read back from
there. Each call leaves a record of what the hook saw, returned and left in the table.
-/

namespace Mua.Prompt

open Tools

/-- The payload table by its two fields: a plain record, without the metatable a hook could set. -/
structure PromptPayload where
  event : Lua.Value
  prompt : Lua.Value
  deriving DecidableEq

/-- What a hook does to the state the hooks share and to the payload; one that throws
returns nothing. -/
abbrev PromptHook (σ : Type) : Type := σ → PromptPayload → Option Lua.Value × PromptPayload × σ

structure PromptCall where
  hook : Nat
  seen : PromptPayload
  returned : Option Lua.Value
  left : PromptPayload
  deriving DecidableEq

structure PromptLoop (σ : Type) where
  payload : PromptPayload
  state : σ
  swallowed : Bool := false
  rewritten : Bool := false
  calls : List PromptCall := []

variable {σ : Type}

def PromptLoop.enter (loop : PromptLoop σ) (hook : PromptHook σ) : PromptLoop σ :=
  let (returned, payload, state) := hook loop.state loop.payload
  { loop with
    payload
    state
    calls := loop.calls ++ [⟨loop.calls.length, loop.payload, returned, payload⟩] }

def callHook (loop : PromptLoop σ) (hook : PromptHook σ) : PromptLoop σ :=
  let next := loop.enter hook
  match (hook loop.state loop.payload).1 with
  -- the error is logged, and the loop goes on
  | none => next
  | some (.string s) =>
    { next with payload := { next.payload with prompt := .string s }, rewritten := true }
  | some (.boolean false) => { next with swallowed := true }
  | some _ => next

def callHooks (loop : PromptLoop σ) : List (PromptHook σ) → PromptLoop σ
  | [] => loop
  | hook :: hooks => if loop.swallowed then loop else callHooks (callHook loop hook) hooks

structure PromptResult (σ : Type) where
  swallowed : Bool
  rewrite : Option Bytes
  state : σ
  calls : List PromptCall

/-- The text of the `prompt` field, as the C string it is copied to. -/
def captureRewrite (lua : LuaLib) (payload : PromptPayload) : Bytes :=
  cstr ((toLString lua payload.prompt).getD [])

def promptEvent : Bytes := ascii "UserPromptPre"

def luaAutocmdUserPromptPre (lua : LuaLib) (checkStack : Bool) (hooks : List (PromptHook σ))
    (state : σ) (prompt : Bytes) : PromptResult σ :=
  if hooks = [] ∨ checkStack = false then ⟨false, none, state, []⟩
  else
    let payload : PromptPayload := ⟨.string promptEvent, .string prompt⟩
    let loop := callHooks { payload, state } hooks
    { swallowed := loop.swallowed
      rewrite :=
        if ¬loop.swallowed ∧ loop.rewritten then some (captureRewrite lua loop.payload) else none
      state := loop.state
      calls := loop.calls }

/-- What `run_repl` and the one-shot prompt give the turn, or nothing for no turn. -/
def turnText (result : PromptResult σ) (prompt : Bytes) : Option Bytes :=
  if result.swallowed then none else some (result.rewrite.getD prompt)

def PromptCall.rewrites (call : PromptCall) : Option Bytes :=
  match call.returned with
  | some (.string s) => some s
  | _ => none

def PromptCall.Swallows (call : PromptCall) : Prop := call.returned = some (.boolean false)

def PromptCall.Edits (call : PromptCall) : Prop := call.left.prompt ≠ call.seen.prompt

def rewrittenSoFar (prompt : Bytes) (calls : List PromptCall) : Bytes :=
  (calls.filterMap PromptCall.rewrites).getLast?.getD prompt

/-- What the `prompt` field holds after some calls. -/
def fieldAfter (prompt : Bytes) (calls : List PromptCall) : Lua.Value :=
  match calls.getLast? with
  | none => .string prompt
  | some call =>
    match call.rewrites with
    | some s => .string s
    | none => call.left.prompt

variable {lua : LuaLib} {prompt s : Bytes} {calls before after : List PromptCall}
  {call : PromptCall} {loop : PromptLoop σ} {hook : PromptHook σ} {hooks : List (PromptHook σ)}

theorem rewrittenSoFar_snoc :
    rewrittenSoFar prompt (calls ++ [call]) = call.rewrites.getD (rewrittenSoFar prompt calls) := by
  rw [rewrittenSoFar, List.filterMap_append]
  cases hCall : call.rewrites with
  | none => simp [hCall, rewrittenSoFar]
  | some s => simp [hCall]

theorem fieldAfter_snoc :
    fieldAfter prompt (calls ++ [call]) =
      (call.rewrites.map Lua.Value.string).getD call.left.prompt := by
  rw [fieldAfter, List.getLast?_append_cons, List.getLast?_singleton]
  cases hCall : call.rewrites with
  | none => simp [hCall]
  | some s => simp [hCall]

structure LoopInv (prompt : Bytes) (loop : PromptLoop σ) : Prop where
  field : loop.payload.prompt = fieldAfter prompt loop.calls
  rewritten : loop.rewritten = true ↔ loop.calls.filterMap PromptCall.rewrites ≠ []
  swallowed : loop.swallowed = true ↔ ∃ call ∈ loop.calls, call.Swallows
  stops : ∀ call ∈ loop.calls.dropLast, ¬call.Swallows
  order : loop.calls.map PromptCall.hook = List.range loop.calls.length
  sees : ∀ before call after, loop.calls = before ++ call :: after →
    call.seen.prompt = fieldAfter prompt before

def recordOf (loop : PromptLoop σ) (hook : PromptHook σ) : PromptCall :=
  ⟨loop.calls.length, loop.payload, (hook loop.state loop.payload).1,
    (hook loop.state loop.payload).2.1⟩

theorem callHook_eq (loop : PromptLoop σ) (hook : PromptHook σ) :
    (callHook loop hook).calls = loop.calls ++ [recordOf loop hook] ∧
      (callHook loop hook).payload.prompt =
        ((recordOf loop hook).rewrites.map Lua.Value.string).getD (recordOf loop hook).left.prompt ∧
      ((callHook loop hook).rewritten = true ↔
        loop.rewritten = true ∨ (recordOf loop hook).rewrites ≠ none) ∧
      ((callHook loop hook).swallowed = true ↔
        loop.swallowed = true ∨ (recordOf loop hook).Swallows) := by
  rw [callHook, recordOf, PromptLoop.enter, PromptCall.rewrites, PromptCall.Swallows]
  dsimp only
  cases hReturned : (hook loop.state loop.payload).1 with
  | none => simp
  | some value =>
    cases value with
    | boolean b => cases b <;> simp
    | _ => simp

theorem LoopInv.callHook (h : LoopInv prompt loop) (hGoes : loop.swallowed = false)
    (hook : PromptHook σ) : LoopInv prompt (callHook loop hook) := by
  obtain ⟨hCalls, hField, hRewritten, hSwallowed⟩ := callHook_eq loop hook
  have hNone : ∀ call ∈ loop.calls, ¬call.Swallows := by
    intro call hMem hCall
    rw [h.swallowed.mpr ⟨call, hMem, hCall⟩] at hGoes
    cases hGoes
  constructor
  · rw [hField, hCalls, fieldAfter_snoc]
  · rw [hRewritten, h.rewritten, hCalls, List.filterMap_append]
    cases hRecord : (recordOf loop hook).rewrites with
    | none => simp [hRecord]
    | some s => simp [hRecord]
  · rw [hSwallowed, h.swallowed, hCalls]
    simp [or_and_right, exists_or]
  · rw [hCalls, List.dropLast_concat]
    exact hNone
  · rw [hCalls, List.map_append, h.order, List.length_append, List.length_singleton,
      List.range_succ]
    rfl
  · intro before call after hSplit
    rw [hCalls] at hSplit
    rcases List.eq_nil_or_concat after with rfl | ⟨mid, last, rfl⟩
    · obtain ⟨rfl, hLast⟩ := List.append_inj' hSplit rfl
      obtain rfl := List.singleton_inj.mp hLast
      exact h.field
    · rw [List.concat_eq_append, ← List.cons_append, ← List.append_assoc] at hSplit
      exact h.sees before call mid (List.append_inj' hSplit rfl).1

theorem callHooks_inv (h : LoopInv prompt loop) (hooks : List (PromptHook σ)) :
    LoopInv prompt (callHooks loop hooks) ∧
      ((callHooks loop hooks).swallowed = false →
        (callHooks loop hooks).calls.length = loop.calls.length + hooks.length) := by
  induction hooks generalizing loop with
  | nil => exact ⟨h, fun _ => rfl⟩
  | cons hook hooks ih =>
    rw [callHooks]
    split
    · rename_i hStop
      refine ⟨h, fun hGoes => ?_⟩
      rw [hStop] at hGoes
      cases hGoes
    · rename_i hGoes
      obtain ⟨hInv, hLength⟩ := ih (h.callHook (Bool.eq_false_iff.mpr hGoes) hook)
      refine ⟨hInv, fun hEnd => ?_⟩
      rw [hLength hEnd, (callHook_eq loop hook).1]
      simp only [List.length_append, List.length_cons, List.length_nil]
      omega

theorem fieldAfter_of_unedited (hSees : ∀ before call after, calls = before ++ call :: after →
      call.seen.prompt = fieldAfter prompt before)
    (h : ∀ call ∈ calls, ¬call.Edits) :
    fieldAfter prompt calls = .string (rewrittenSoFar prompt calls) := by
  induction calls using List.reverseRecOn with
  | nil => rfl
  | append_singleton calls call ih =>
    rw [fieldAfter_snoc, rewrittenSoFar_snoc]
    cases hCall : call.rewrites with
    | some s => rfl
    | none =>
      have hLeft : call.left.prompt = call.seen.prompt :=
        not_not.mp (h call (List.mem_append_right _ (List.mem_singleton_self _)))
      have hSeen := hSees calls call [] rfl
      have hRest := ih
        (fun before other after hSplit => hSees before other (after ++ [call]) (by simp [hSplit]))
        fun other hOther => h other (List.mem_append_left _ hOther)
      rw [Option.map_none, Option.getD_none, Option.getD_none, hLeft, hSeen, hRest]

/-- What holds of every dispatch over `count` hooks. -/
structure Dispatches (prompt : Bytes) (checkStack : Bool) (count : Nat) (result : PromptResult σ) :
    Prop where
  swallowed_iff : result.swallowed = true ↔ ∃ call ∈ result.calls, call.Swallows
  /-- A hook that swallows the prompt is the last one that runs. -/
  stops : ∀ call ∈ result.calls.dropLast, ¬call.Swallows
  order : result.calls.map PromptCall.hook = List.range result.calls.length
  all : checkStack = true → result.swallowed = false → result.calls.length = count
  sees : ∀ before call after, result.calls = before ++ call :: after →
    (∀ other ∈ before, ¬other.Edits) → call.seen.prompt = .string (rewrittenSoFar prompt before)

theorem loopInv_start (prompt : Bytes) (event : Lua.Value) (state : σ) :
    LoopInv prompt { payload := ⟨event, .string prompt⟩, state } where
  field := rfl
  rewritten := by simp
  swallowed := by simp
  stops := by simp
  order := rfl
  sees := by simp

theorem LoopInv.sees_text (h : LoopInv prompt loop) (hSplit : loop.calls = before ++ call :: after)
    (hEdits : ∀ other ∈ before, ¬other.Edits) :
    call.seen.prompt = .string (rewrittenSoFar prompt before) := by
  rw [h.sees before call after hSplit]
  refine fieldAfter_of_unedited (fun front other behind hFront => ?_) hEdits
  exact h.sees front other (behind ++ call :: after) (by simp [hSplit, hFront])

theorem luaAutocmdUserPromptPre_dispatches (lua : LuaLib) (checkStack : Bool)
    (hooks : List (PromptHook σ)) (state : σ) (prompt : Bytes) :
    Dispatches prompt checkStack hooks.length
      (luaAutocmdUserPromptPre lua checkStack hooks state prompt) := by
  rw [luaAutocmdUserPromptPre]
  split
  · rename_i hNone
    refine ⟨by simp, by simp, rfl, fun hStack _ => ?_, by simp⟩
    rcases hNone with rfl | hNone
    · rfl
    · rw [hStack] at hNone
      cases hNone
  · obtain ⟨hInv, hLength⟩ := callHooks_inv (loopInv_start prompt (.string promptEvent) state) hooks
    refine ⟨hInv.swallowed, hInv.stops, hInv.order, fun _ hGoes => ?_, ?_⟩
    · exact (hLength hGoes).trans (Nat.zero_add _)
    · exact fun before call after hSplit => hInv.sees_text hSplit

/-- Behind the last string that was returned, which has no NUL, the `prompt` field is left to be
read as that string. -/
def KeptToTheEnd (lua : LuaLib) (calls : List PromptCall) : Prop :=
  ∀ before call after s, calls = before ++ call :: after → call.rewrites = some s →
    (∀ other ∈ after, other.rewrites = none) →
      NulFree s ∧ ∀ last ∈ after.getLast?, captureRewrite lua last.left = s

theorem lastRewrite_iff :
    (calls.filterMap PromptCall.rewrites).getLast? = some s ↔
      ∃ before call after, calls = before ++ call :: after ∧ call.rewrites = some s ∧
        ∀ other ∈ after, other.rewrites = none := by
  rw [List.getLast?_eq_some_iff]
  constructor
  · rintro ⟨texts, hTexts⟩
    obtain ⟨front, back, rfl, -, hBack⟩ := List.filterMap_eq_append_iff.mp hTexts
    obtain ⟨skipped, call, after, rfl, -, hCall, hAfter⟩ := List.filterMap_eq_cons_iff.mp hBack
    refine ⟨front ++ skipped, call, after, by rw [List.append_assoc], hCall, ?_⟩
    exact List.filterMap_eq_nil_iff.mp hAfter
  · rintro ⟨before, call, after, rfl, hCall, hAfter⟩
    refine ⟨before.filterMap PromptCall.rewrites, ?_⟩
    rw [List.filterMap_append, List.filterMap_cons_some hCall,
      List.filterMap_eq_nil_iff.mpr hAfter]

theorem read_eq_iff (hCall : call.rewrites = some s)
    (hAfter : ∀ other ∈ after, other.rewrites = none) :
    cstr ((toLString lua (fieldAfter prompt (before ++ call :: after))).getD []) = s ↔
      NulFree s ∧ ∀ last ∈ after.getLast?, captureRewrite lua last.left = s := by
  rcases List.eq_nil_or_concat after with rfl | ⟨mid, last, rfl⟩
  · rw [fieldAfter_snoc, hCall]
    constructor
    · intro hRead
      refine ⟨?_, by simp⟩
      rw [← hRead]
      exact nulFree_cstr _
    · exact fun h => cstr_of_nulFree h.1
  · have hLast : last.rewrites = none := hAfter last (by simp)
    rw [List.concat_eq_append, ← List.cons_append, ← List.append_assoc, fieldAfter_snoc, hLast,
      List.getLast?_concat]
    constructor
    · intro hRead
      refine ⟨?_, fun other hOther => ?_⟩
      · rw [← hRead]
        exact nulFree_cstr _
      · obtain rfl := Option.mem_some.mp hOther
        exact hRead
    · exact fun h => h.2 last rfl

theorem keptToTheEnd_iff (prompt : Bytes) :
    KeptToTheEnd lua calls ↔ ∀ s, (calls.filterMap PromptCall.rewrites).getLast? = some s →
      cstr ((toLString lua (fieldAfter prompt calls)).getD []) = s := by
  constructor
  · intro hKept s hLast
    obtain ⟨before, call, after, rfl, hCall, hAfter⟩ := lastRewrite_iff.mp hLast
    exact (read_eq_iff hCall hAfter).mpr (hKept before call after s rfl hCall hAfter)
  · rintro hRead before call after s rfl hCall hAfter
    have hLast := hRead s (lastRewrite_iff.mpr ⟨before, call, after, rfl, hCall, hAfter⟩)
    exact (read_eq_iff hCall hAfter).mp hLast

theorem turnText_eq (lua : LuaLib) (checkStack : Bool) (hooks : List (PromptHook σ)) (state : σ)
    (prompt : Bytes)
    (hGoes : (luaAutocmdUserPromptPre lua checkStack hooks state prompt).swallowed = false) :
    turnText (luaAutocmdUserPromptPre lua checkStack hooks state prompt) prompt =
      let calls := (luaAutocmdUserPromptPre lua checkStack hooks state prompt).calls
      if calls.filterMap PromptCall.rewrites = [] then some prompt
      else some (cstr ((toLString lua (fieldAfter prompt calls)).getD [])) := by
  rw [turnText, hGoes, if_neg Bool.false_ne_true]
  rw [luaAutocmdUserPromptPre] at hGoes ⊢
  split at hGoes
  · rename_i hNone
    rw [if_pos hNone]
    rfl
  · rename_i hSome
    rw [if_neg hSome]
    have hInv := (callHooks_inv (loopInv_start prompt (.string promptEvent) state) hooks).1
    dsimp only at hGoes ⊢
    generalize callHooks _ hooks = loop at hInv hGoes ⊢
    rw [hGoes]
    by_cases hRewritten : loop.rewritten = true
    · rw [if_pos ⟨Bool.false_ne_true, hRewritten⟩, if_neg (hInv.rewritten.mp hRewritten),
        captureRewrite, hInv.field]
      rfl
    · have hEmpty := not_not.mp (mt hInv.rewritten.mpr hRewritten)
      rw [if_neg fun h => hRewritten h.2, if_pos hEmpty]
      rfl

/-- Every dispatch runs the hooks in order up to the first that returns false, and shows each of
them the text as rewritten so far. The turn gets the last string that was returned, or the prompt,
just if the prompt is swallowed or that string, free of NUL, is kept to the end. -/
theorem userPromptPre_sound_iff (lua : LuaLib) (checkStack : Bool) (hooks : List (PromptHook σ))
    (state : σ) (prompt : Bytes) :
    let result := luaAutocmdUserPromptPre lua checkStack hooks state prompt
    Dispatches prompt checkStack hooks.length result ∧
      ((result.swallowed = false →
          turnText result prompt = some (rewrittenSoFar prompt result.calls)) ↔
        result.swallowed = true ∨ KeptToTheEnd lua result.calls) := by
  intro result
  refine ⟨luaAutocmdUserPromptPre_dispatches lua checkStack hooks state prompt, ?_⟩
  cases hGoes : result.swallowed with
  | true => simp
  | false =>
    have hText := turnText_eq lua checkStack hooks state prompt hGoes
    simp only [forall_const, Bool.false_eq_true, false_or]
    rw [hText, keptToTheEnd_iff prompt]
    change (if result.calls.filterMap PromptCall.rewrites = [] then some prompt
      else some (cstr ((toLString lua (fieldAfter prompt result.calls)).getD []))) =
        some (((result.calls.filterMap PromptCall.rewrites).getLast?).getD prompt) ↔ _
    cases hLast : (result.calls.filterMap PromptCall.rewrites).getLast? with
    | none =>
      rw [if_pos (List.getLast?_eq_none_iff.mp hLast)]
      simp
    | some s =>
      have hNe : result.calls.filterMap PromptCall.rewrites ≠ [] := by
        intro hNil
        rw [hNil] at hLast
        cases hLast
      rw [if_neg hNe]
      simp

def returning (text : Bytes) : PromptHook Unit := fun _ payload => (some (.string text), payload, ())

def editing (text : Bytes) : PromptHook Unit := fun _ payload =>
  (some .nil, { payload with prompt := .string text }, ())

def editedPrompt : PromptResult Unit :=
  luaAutocmdUserPromptPre plainLua true [returning (ascii "a"), editing (ascii "b")] () (ascii "p")

/-- The turn gets what the second hook wrote, and not what the first one returned. -/
theorem userPromptPre_edited :
    editedPrompt.swallowed = false ∧ turnText editedPrompt (ascii "p") = some (ascii "b") ∧
      turnText editedPrompt (ascii "p") ≠ some (rewrittenSoFar (ascii "p") editedPrompt.calls) := by
  decide +kernel

end Mua.Prompt
