import Mathlib.Data.List.Induction
import Mua.Api

/-! # The options store over a run

The calls of `mua_set_option` one after another, from either caller. A String
of the store keeps the data pointer it came with, which the RPC decoder leaves
NULL for a string of no bytes; the getter of the system prompt returns it.
-/

namespace Mua.Api

structure RawOptions where
  store : OptionStore
  data : OptionKey → Option Bytes

def RawOptions.empty : RawOptions := ⟨.empty, fun _ => none⟩

structure SetCall where
  caller : Caller
  args : List Object

/-- A call of `mua_set_option`: the options after it, and its error. -/
def setOption (raw : RawOptions) (call : SetCall) : RawOptions × Option Error :=
  match call.args with
  | [.string name, value] =>
    match optionsSet raw.store name value with
    | .error err => (raw, some err)
    | .ok store =>
      match optionIndex name, value with
      | some key, .string s =>
        -- api_string_dup keeps a String without data as it is
        (⟨store, Function.update raw.data key (call.caller.data s)⟩, none)
      | _, _ => ({ raw with store }, none)
  | _ => (raw, some (validation "mua_set_option expects (string name, value)"))

def optionsRun (calls : List SetCall) : RawOptions :=
  calls.foldl (fun raw call => (setOption raw call).1) .empty

/-- `options_system_prompt`, a C string; none is NULL. -/
def rawSystemPrompt (raw : RawOptions) : Option Bytes :=
  match raw.store.slots .systemPrompt with
  | some _ => (raw.data .systemPrompt).map cstr
  | none => (optionDef .systemPrompt).strDefault

def SetCall.accepted (call : SetCall) : Option (OptionKey × Object) :=
  match call.args with
  | [.string name, value] =>
    (optionIndex name).bind fun key =>
      if value.type = (optionDef key).type ∧ InRange (optionDef key) value then some (key, value)
      else none
  | _ => none

def lastAccepted (calls : List SetCall) (key : OptionKey) : Option Object :=
  ((calls.filterMap SetCall.accepted).reverse.find? fun entry => entry.1 = key).map (·.2)

/-- The RPC channel sets the system prompt to the empty string. -/
def SetCall.EmptyPrompt (call : SetCall) : Prop :=
  call.caller = .rpc ∧ call.accepted = some (.systemPrompt, .string [])

variable {raw : RawOptions} {call : SetCall} {calls : List SetCall} {key : OptionKey}
  {value : Object}

theorem setOption_value (raw : RawOptions) (caller : Caller) (name : Bytes) (value : Object) :
    (∃ err, optionsSet raw.store name value = .error err ∧
        setOption raw ⟨caller, [.string name, value]⟩ = (raw, some err)) ∨
      ∃ store raw', optionsSet raw.store name value = .ok store ∧ raw'.store = store ∧
        setOption raw ⟨caller, [.string name, value]⟩ = (raw', none) := by
  unfold setOption
  dsimp only
  cases optionsSet raw.store name value with
  | error err => exact .inl ⟨err, rfl, rfl⟩
  | ok store =>
    right
    dsimp only
    split
    · exact ⟨store, _, rfl, rfl, rfl⟩
    · exact ⟨store, _, rfl, rfl, rfl⟩

theorem dispatchSetOption_raw (st : Stores) (call : SetCall) (hStore : st.options = raw.store) :
    dispatchSetOption st call.args = some (match (setOption raw call).2 with
      | some err => .error err
      | none => .ok (.nil, { st with options := (setOption raw call).1.store })) := by
  obtain ⟨caller, args⟩ := call
  unfold dispatchSetOption
  split
  · rename_i name value hArgs
    obtain rfl : args = [.string name, value] := hArgs
    rw [hStore]
    rcases setOption_value raw caller name value with
      ⟨err, hErr, hSet⟩ | ⟨store, raw', hOk, rfl, hSet⟩
    · rw [hErr, hSet]
      rfl
    · rw [hOk, hSet]
      rfl
  · rename_i hArgs
    have hSet : setOption raw ⟨caller, args⟩ =
        (raw, some (validation "mua_set_option expects (string name, value)")) := by
      unfold setOption
      split
      · rename_i hShape
        exact absurd hShape (hArgs _ _)
      · rfl
    rw [hSet]

theorem optionsSet_cases (store : OptionStore) (name : Bytes) (value : Object) :
    (∃ key store', optionIndex name = some key ∧ value.type = (optionDef key).type ∧
        InRange (optionDef key) value ∧ optionsSet store name value = .ok store' ∧
        store'.slots = Function.update store.slots key (some value)) ∨
      (∃ err, optionsSet store name value = .error err) ∧ ∀ key, optionIndex name = some key →
        ¬(value.type = (optionDef key).type ∧ InRange (optionDef key) value) := by
  unfold optionsSet
  split
  · rename_i hKey
    refine .inr ⟨⟨_, rfl⟩, fun key hSome => ?_⟩
    cases hKey.symm.trans hSome
  rename_i key hKey
  by_cases hType : value.type = (optionDef key).type
  · by_cases hRange : InRange (optionDef key) value
    · rw [dif_pos hType, dif_pos hRange]
      exact .inl ⟨key, _, hKey, hType, hRange, rfl, rfl⟩
    · rw [dif_pos hType, dif_neg hRange]
      refine .inr ⟨⟨_, rfl⟩, fun key' hSome hBoth => ?_⟩
      cases hKey.symm.trans hSome
      exact hRange hBoth.2
  · rw [dif_neg hType]
    refine .inr ⟨⟨_, rfl⟩, fun key' hSome hBoth => ?_⟩
    cases hKey.symm.trans hSome
    exact hType hBoth.1

theorem setOption_cases (raw : RawOptions) (call : SetCall) :
    (∃ key value, call.accepted = some (key, value) ∧ (setOption raw call).2 = none ∧
        (setOption raw call).1.store.slots = Function.update raw.store.slots key (some value) ∧
        (setOption raw call).1.data =
          match value with
          | .string s => Function.update raw.data key (call.caller.data s)
          | _ => raw.data) ∨
      call.accepted = none ∧ ∃ err, setOption raw call = (raw, some err) := by
  unfold SetCall.accepted setOption
  split
  · rename_i name value hArgs
    rcases optionsSet_cases raw.store name value with
      ⟨key, store, hKey, hType, hRange, hOk, hSlots⟩ | ⟨⟨err, hErr⟩, hNot⟩
    · left
      refine ⟨key, value, ?_, ?_⟩
      · rw [hKey, Option.bind_some, if_pos ⟨hType, hRange⟩]
      · rw [hOk, hKey]
        cases value with
        | string s => exact ⟨rfl, hSlots, rfl⟩
        | _ => exact ⟨rfl, hSlots, rfl⟩
    · right
      refine ⟨?_, err, by rw [hErr]⟩
      cases hKey : optionIndex name with
      | none => rfl
      | some key => rw [Option.bind_some, if_neg (hNot key hKey)]
  · exact .inr ⟨rfl, _, rfl⟩

theorem optionsRun_snoc (calls : List SetCall) (call : SetCall) :
    optionsRun (calls ++ [call]) = (setOption (optionsRun calls) call).1 := by
  rw [optionsRun, List.foldl_append]
  rfl

theorem lastAccepted_some (h : call.accepted = some (key, value)) :
    lastAccepted (calls ++ [call]) = Function.update (lastAccepted calls) key (some value) := by
  funext other
  rw [lastAccepted, List.filterMap_append, List.reverse_append]
  have hLast : [call].filterMap SetCall.accepted = [(key, value)] := by
    rw [List.filterMap_cons, h]
    rfl
  rw [hLast]
  by_cases hOther : key = other
  · subst hOther
    simp
  · rw [Function.update_of_ne (Ne.symm hOther), lastAccepted]
    simp [hOther]

theorem lastAccepted_none (h : call.accepted = none) :
    lastAccepted (calls ++ [call]) = lastAccepted calls := by
  funext other
  rw [lastAccepted, lastAccepted, List.filterMap_append]
  have hLast : [call].filterMap SetCall.accepted = [] := by
    rw [List.filterMap_cons, h]
    rfl
  rw [hLast, List.append_nil]

theorem optionsRun_slots (calls : List SetCall) :
    (optionsRun calls).store.slots = lastAccepted calls := by
  induction calls using List.reverseRecOn with
  | nil => rfl
  | append_singleton calls call ih =>
    rw [optionsRun_snoc]
    rcases setOption_cases (optionsRun calls) call with
      ⟨key, value, hAccepted, -, hSlots, -⟩ | ⟨hAccepted, err, hSame⟩
    · rw [hSlots, lastAccepted_some hAccepted, ih]
    · rw [hSame, lastAccepted_none hAccepted, ih]

/-- Where no call is an empty prompt from RPC, the prompt has its data. -/
theorem optionsRun_data (hCalls : ∀ call ∈ calls, ¬call.EmptyPrompt) {text : Bytes}
    (h : (optionsRun calls).store.slots .systemPrompt = some (.string text)) :
    (optionsRun calls).data .systemPrompt = some text := by
  induction calls using List.reverseRecOn generalizing text with
  | nil => cases h
  | append_singleton calls call ih =>
    have hBefore : ∀ call ∈ calls, ¬call.EmptyPrompt :=
      fun c hc => hCalls c (List.mem_append_left _ hc)
    have hCall : ¬call.EmptyPrompt := hCalls call (List.mem_append_right _ (List.mem_singleton.mpr rfl))
    rw [optionsRun_snoc] at h ⊢
    rcases setOption_cases (optionsRun calls) call with
      ⟨key, value, hAccepted, -, hSlots, hData⟩ | ⟨-, err, hSame⟩
    · rw [hSlots] at h
      rw [hData]
      by_cases hKey : key = .systemPrompt
      · subst hKey
        rw [Function.update_self] at h
        cases h
        dsimp only
        rw [Function.update_self]
        -- the caller gives the string data, unless it is empty and comes from RPC
        match hCaller : call.caller, text with
        | .lua, text => rfl
        | .rpc, b :: rest => rfl
        | .rpc, [] => exact absurd ⟨hCaller, hAccepted⟩ hCall
      · rw [Function.update_of_ne (Ne.symm hKey)] at h
        have hOld := ih hBefore h
        cases value with
        | string s => rw [← hOld]; exact Function.update_of_ne (Ne.symm hKey) _ _
        | _ => exact hOld
    · rw [hSame] at h ⊢
      exact ih hBefore h

structure OptionsLaw (calls : List SetCall) (raw : RawOptions) : Prop where
  stepCap : stepCapMin ≤ optionsStepCap raw.store ∧ optionsStepCap raw.store ≤ stepCapMax
  contextPct : contextPctMin ≤ optionsContextPct raw.store ∧
    optionsContextPct raw.store ≤ contextPctMax
  contextWarnPct : contextWarnPctMin ≤ optionsContextWarnPct raw.store ∧
    optionsContextWarnPct raw.store ≤ contextWarnPctMax
  systemPrompt : ∃ prompt text, rawSystemPrompt raw = some prompt ∧
    optionsGet raw.store (ascii "system_prompt") = .ok (.string text) ∧
      (NulFree text → prompt = text)
  get : ∀ key, optionsGet raw.store (optionDef key).name =
    .ok ((lastAccepted calls key).getD (defaultObject (optionDef key)))
  rejected : ∀ call err, (setOption raw call).2 = some err →
    call.accepted = none ∧ (setOption raw call).1 = raw

theorem optionIndex_self (key : OptionKey) : optionIndex (optionDef key).name = some key := by
  cases key <;> decide

theorem optionsGet_key (store : OptionStore) (key : OptionKey) :
    optionsGet store (optionDef key).name =
      .ok ((store.slots key).getD (defaultObject (optionDef key))) := by
  rw [optionsGet, optionIndex_self]

theorem prompt_slot (store : OptionStore) :
    store.slots .systemPrompt = none ∨ ∃ text, store.slots .systemPrompt = some (.string text) := by
  cases h : store.slots .systemPrompt with
  | none => exact .inl rfl
  | some value =>
    have hType := store.typed _ _ h
    cases value with
    | string text => exact .inr ⟨text, rfl⟩
    | _ => cases hType

theorem defaultSystemPrompt_nulFree : NulFree defaultSystemPrompt := by
  decide +kernel

theorem optionsRun_law (hCalls : ∀ call ∈ calls, ¬call.EmptyPrompt) :
    OptionsLaw calls (optionsRun calls) := by
  refine ⟨optionsInt_range _ .stepCap (by decide), optionsInt_range _ .contextPct (by decide),
    optionsInt_range _ .contextWarnPct (by decide), ?_, ?_, ?_⟩
  · have hGet := optionsGet_key (optionsRun calls).store .systemPrompt
    unfold rawSystemPrompt
    rcases prompt_slot (optionsRun calls).store with hNone | ⟨text, hSome⟩
    · rw [hNone] at hGet ⊢
      exact ⟨_, _, rfl, hGet, fun _ => (cstr_of_nulFree defaultSystemPrompt_nulFree).symm⟩
    · rw [hSome] at hGet ⊢
      rw [optionsRun_data hCalls hSome]
      exact ⟨_, _, rfl, hGet, fun hText => cstr_of_nulFree hText⟩
  · intro key
    rw [optionsGet_key, optionsRun_slots]
  · intro call err hErr
    rcases setOption_cases (optionsRun calls) call with ⟨key, value, -, hNone, -⟩ | ⟨hNot, err', hSame⟩
    · rw [hNone] at hErr
      cases hErr
    · exact ⟨hNot, congrArg Prod.fst hSame⟩

theorem emptyPrompt_null (h : call.EmptyPrompt) (raw : RawOptions) :
    rawSystemPrompt (setOption raw call).1 = none := by
  obtain ⟨hCaller, hAccepted⟩ := h
  rcases setOption_cases raw call with ⟨key, value, hSome, -, hSlots, hData⟩ | ⟨hNone, -⟩
  · cases hAccepted.symm.trans hSome
    unfold rawSystemPrompt
    rw [hSlots, hData, Function.update_self, hCaller]
    dsimp only
    rw [Function.update_self]
    rfl
  · cases hAccepted.symm.trans hNone

/-- Every state of a run keeps the promises of the options if and only if no call of it sets the
system prompt to the empty string from RPC. -/
theorem optionsRun_law_iff (calls : List SetCall) :
    (∀ before after, calls = before ++ after → OptionsLaw before (optionsRun before)) ↔
      ∀ call ∈ calls, ¬call.EmptyPrompt := by
  constructor
  · intro hLaw call hCall hEmpty
    obtain ⟨before, after, rfl⟩ := List.append_of_mem hCall
    have hHere := hLaw (before ++ [call]) after (by simp)
    obtain ⟨prompt, text, hPrompt, -⟩ := hHere.systemPrompt
    rw [optionsRun_snoc, emptyPrompt_null hEmpty] at hPrompt
    cases hPrompt
  · rintro hCalls before after rfl
    exact optionsRun_law fun call hCall => hCalls call (List.mem_append_left _ hCall)

/-! An empty system prompt over RPC. -/

theorem rpc_prompt_null :
    rawSystemPrompt (optionsRun [⟨.rpc, [.string (ascii "system_prompt"), .string []]⟩]) = none := by
  decide

end Mua.Api
