import Mua.Api
import Mua.MsgpackEncode

/-! # What the API can answer

The objects a frame carries are bounded by the frame, and a call on bounded
arguments leaves stores whose values, like every answer and every error text, can
be encoded.
-/

namespace Mua

mutual

/-- No string and no container is longer than `n`. -/
def Object.Fits (n : Nat) : Object → Prop
  | .nil | .boolean _ | .integer _ | .float _ | .session => True
  | .string s => s.length ≤ n
  | .array items => items.length ≤ n ∧ Object.ItemsFit n items
  | .dict items => items.length ≤ n ∧ Object.MembersFit n items

def Object.ItemsFit (n : Nat) : List Object → Prop
  | [] => True
  | item :: rest => item.Fits n ∧ Object.ItemsFit n rest

def Object.MembersFit (n : Nat) : List (Bytes × Object) → Prop
  | [] => True
  | (key, value) :: rest => key.length ≤ n ∧ value.Fits n ∧ Object.MembersFit n rest

end

theorem Object.itemsFit_iff {n : Nat} {items : List Object} :
    Object.ItemsFit n items ↔ ∀ item ∈ items, item.Fits n := by
  induction items with
  | nil => simp [Object.ItemsFit]
  | cons item rest ih => rw [Object.ItemsFit, ih, List.forall_mem_cons]

theorem Object.membersFit_iff {n : Nat} {items : List (Bytes × Object)} :
    Object.MembersFit n items ↔ ∀ m ∈ items, m.1.length ≤ n ∧ m.2.Fits n := by
  induction items with
  | nil => simp [Object.MembersFit]
  | cons member rest ih =>
    obtain ⟨key, value⟩ := member
    rw [Object.MembersFit, ih, List.forall_mem_cons, and_assoc]

mutual

theorem Object.Fits.sized {n : Nat} (hn : n < 2 ^ 32) {obj : Object} (h : obj.Fits n) :
    obj.Sized := by
  cases obj with
  | string s => exact Nat.lt_of_le_of_lt h hn
  | array items => exact ⟨Nat.lt_of_le_of_lt h.1 hn, itemsFit_sized hn h.2⟩
  | dict items => exact ⟨Nat.lt_of_le_of_lt h.1 hn, membersFit_sized hn h.2⟩
  | _ => trivial

theorem Object.itemsFit_sized {n : Nat} (hn : n < 2 ^ 32) {items : List Object}
    (h : Object.ItemsFit n items) : Object.ItemsSized items := by
  cases items with
  | nil => trivial
  | cons item rest => exact ⟨h.1.sized hn, itemsFit_sized hn h.2⟩

theorem Object.membersFit_sized {n : Nat} (hn : n < 2 ^ 32) {items : List (Bytes × Object)}
    (h : Object.MembersFit n items) : Object.MembersSized items := by
  cases items with
  | nil => trivial
  | cons member rest =>
    obtain ⟨key, value⟩ := member
    exact ⟨Nat.lt_of_le_of_lt h.1 hn, h.2.1.sized hn, membersFit_sized hn h.2.2⟩

end

mutual

theorem Object.Fits.mono {n m : Nat} (hnm : n ≤ m) {obj : Object} (h : obj.Fits n) :
    obj.Fits m := by
  cases obj with
  | string s => exact Nat.le_trans h hnm
  | array items => exact ⟨Nat.le_trans h.1 hnm, itemsFit_mono hnm h.2⟩
  | dict items => exact ⟨Nat.le_trans h.1 hnm, membersFit_mono hnm h.2⟩
  | _ => trivial

theorem Object.itemsFit_mono {n m : Nat} (hnm : n ≤ m) {items : List Object}
    (h : Object.ItemsFit n items) : Object.ItemsFit m items := by
  cases items with
  | nil => trivial
  | cons item rest => exact ⟨h.1.mono hnm, itemsFit_mono hnm h.2⟩

theorem Object.membersFit_mono {n m : Nat} (hnm : n ≤ m) {items : List (Bytes × Object)}
    (h : Object.MembersFit n items) : Object.MembersFit m items := by
  cases items with
  | nil => trivial
  | cons member rest =>
    obtain ⟨key, value⟩ := member
    exact ⟨Nat.le_trans h.1 hnm, h.2.1.mono hnm, membersFit_mono hnm h.2.2⟩

end

namespace Msgpack

theorem blob_length {family : Family} {s b : Bytes} (h : family.Blob s b) : s.length ≤ b.length := by
  obtain ⟨head, -, rfl⟩ := h.split
  rw [List.length_append]
  omega

theorem scalar_bounds {v : Object} {b : Bytes} (h : Scalar v b) :
    v.nesting = 0 ∧ v.Fits b.length := by
  cases h with
  | str h => exact ⟨rfl, blob_length h⟩
  | bin h => exact ⟨rfl, blob_length h⟩
  | unsigned h =>
    rw [unsignedObject]
    split <;> exact ⟨rfl, trivial⟩
  | _ => exact ⟨rfl, trivial⟩

theorem chunk_length_le {c : Bytes} {chunks : List Bytes} (h : c ∈ chunks) :
    c.length ≤ chunks.flatten.length := (List.sublist_flatten_of_mem h).length_le

/-- A decoded object nests and stretches no further than its bytes. -/
theorem Encodes.bounds {room : Nat} {v : Object} {b : Bytes} (h : Encodes room v b) :
    v.nesting ≤ room ∧ v.Fits b.length := by
  induction room generalizing v b with
  | zero =>
    obtain ⟨hNesting, hFits⟩ := scalar_bounds h
    exact ⟨Nat.le_of_eq hNesting, hFits⟩
  | succ room ih =>
    rcases h with hScalar | hContainer
    · obtain ⟨hNesting, hFits⟩ := scalar_bounds hScalar
      exact ⟨by omega, hFits⟩
    · cases hContainer with
      | @array items chunks head hHead hItems =>
        have hEach : ∀ item ∈ items, item.nesting ≤ room ∧ item.Fits chunks.flatten.length := by
          intro item hItem
          obtain ⟨i, hi, rfl⟩ := List.mem_iff_getElem.mp hItem
          have hc : i < chunks.length := hItems.length_eq ▸ hi
          obtain ⟨hNesting, hFits⟩ := ih (hItems.get hi hc)
          exact ⟨hNesting, hFits.mono (chunk_length_le (List.getElem_mem hc))⟩
        have hCount := length_le_flatten (fun _ _ h => h.ne_nil) hItems
        have hLength : chunks.flatten.length ≤ (head ++ chunks.flatten).length := by simp
        refine ⟨Object.itemsNesting_le fun item h => (hEach item h).1, by omega, ?_⟩
        exact Object.itemsFit_iff.mpr fun item h => (hEach item h).2.mono hLength
      | @dict items chunks head hHead hItems =>
        have hEach : ∀ m ∈ items, m.2.nesting ≤ room ∧ m.1.length ≤ chunks.flatten.length ∧
            m.2.Fits chunks.flatten.length := by
          intro m hMember
          obtain ⟨i, hi, rfl⟩ := List.mem_iff_getElem.mp hMember
          have hc : i < chunks.length := hItems.length_eq ▸ hi
          have hLength := chunk_length_le (List.getElem_mem hc)
          have hPair := hItems.get hi hc
          rw [List.get_eq_getElem, List.get_eq_getElem] at hPair
          generalize items[i] = pair at hPair
          generalize chunks[i] = chunk at hPair hLength
          cases hPair with
          | mk hKey hValue =>
            obtain ⟨hNesting, hFits⟩ := ih hValue
            have hKey := blob_length hKey
            rw [List.length_append] at hLength
            exact ⟨hNesting, by dsimp only; omega, hFits.mono (by omega)⟩
        have hCount := length_le_flatten (fun _ _ h => h.ne_nil) hItems
        have hLength : chunks.flatten.length ≤ (head ++ chunks.flatten).length := by simp
        refine ⟨Object.membersNesting_le fun m h => (hEach m h).1, by omega, ?_⟩
        refine Object.membersFit_iff.mpr fun m h => ?_
        obtain ⟨-, hKey, hFits⟩ := hEach m h
        exact ⟨by omega, hFits.mono hLength⟩

end Msgpack

theorem length_cstr_le (s : Bytes) : (cstr s).length ≤ s.length :=
  (List.takeWhile_sublist _).length_le

/-- The encoder takes the object without an assertion failing. -/
def Object.Encodable (obj : Object) : Prop := obj.nesting ≤ kMarshalDepthCap ∧ obj.Sized

theorem variablesSet_forall {P : Object → Prop} {vars : Variables} (name : Option Bytes)
    {value : Object} (hValue : P value) (hNesting : value.nesting ≤ kMarshalDepthCap)
    (h : ∀ entry ∈ vars.entries, P entry.value) :
    ∃ result, variablesSet vars name value = some result ∧
      match result with
      | .error err => err = tooManyVariables
      | .ok vars' => ∀ entry ∈ vars'.entries, P entry.value := by
  have hCopy := apiCopyObject_eq hNesting
  rw [variablesSet]
  split
  · rename_i idx hIdx
    split
    · refine ⟨_, rfl, fun entry hEntry => ?_⟩
      rw [Variables.remove] at hEntry
      split at hEntry
      · rename_i hLt
        exact h entry (List.mem_of_mem_eraseIdx ((removeEntry_perm hLt).mem_iff.mp hEntry))
      · exact h entry hEntry
    · rw [hCopy]
      refine ⟨_, rfl, fun entry hEntry => ?_⟩
      obtain ⟨i, hi, rfl⟩ := List.mem_iff_getElem.mp hEntry
      simp only [Variables.overwrite, List.getElem_modify]
      split
      · exact hValue
      · exact h _ (List.getElem_mem _)
  · split
    · exact ⟨_, rfl, h⟩
    · split
      · exact ⟨_, rfl, rfl⟩
      · rw [hCopy]
        refine ⟨_, rfl, fun entry hEntry => ?_⟩
        rcases List.mem_append.mp hEntry with hOld | hNew
        · exact h entry hOld
        · obtain rfl := List.mem_singleton.mp hNew
          exact hValue

theorem variablesGet_forall {P : Object → Prop} {vars : Variables} (name : Option Bytes)
    (hNil : P .nil) (hNesting : ∀ entry ∈ vars.entries, entry.value.nesting ≤ kMarshalDepthCap)
    (h : ∀ entry ∈ vars.entries, P entry.value) :
    ∃ value, variablesGet vars name = some value ∧ P value := by
  rw [variablesGet]
  split
  · rename_i entry hEntry
    obtain ⟨idx, -, hGet⟩ := Option.bind_eq_some_iff.mp hEntry
    have hMem := List.mem_of_getElem? hGet
    exact ⟨_, apiCopyObject_eq (hNesting entry hMem), h entry hMem⟩
  · exact ⟨_, rfl, hNil⟩

theorem optionsSet_ok {store store' : OptionStore} {name : Bytes} {value : Object}
    (h : optionsSet store name value = .ok store') :
    ∃ key, store'.slots = Function.update store.slots key (some value) := by
  rw [optionsSet] at h
  split at h
  · cases h
  · rename_i key hKey
    split at h
    · split at h
      · cases h
        exact ⟨key, rfl⟩
      · cases h
    · cases h

theorem optionsSet_error {store : OptionStore} {name : Bytes} {value : Object} {err : Error}
    (h : optionsSet store name value = .error err) : err.msg.length ≤ name.length + 100 := by
  have hName : ∀ key, (optionDef key).name.length ≤ 20 := by
    intro key
    cases key <;> decide
  have hMin : ∀ key, (ascii (toString (optionDef key).intMin)).length ≤ 20 := by
    intro key
    rw [length_ascii]
    exact length_toString_le (by decide) (by cases key <;> decide)
  have hMax : ∀ key, (ascii (toString (optionDef key).intMax)).length ≤ 20 := by
    intro key
    rw [length_ascii]
    exact length_toString_le (by decide) (by cases key <;> decide)
  have hType : ∀ type, (typeName type).length ≤ 20 := by
    intro type
    cases type <;> decide
  rw [optionsSet] at h
  split at h
  · cases h
    have := length_cstr_le name
    simp only [unknownOption, List.length_append, length_ascii]
    have : "unknown option '".length = 16 := by decide
    have : "'".length = 1 := by decide
    omega
  · rename_i key hKey
    have := hName key
    have := hMin key
    have := hMax key
    have := hType (optionDef key).type
    have : (ascii "option '").length = 8 := by decide
    have : (ascii "' out of range [").length = 16 := by decide
    have : (ascii ", ").length = 2 := by decide
    have : (ascii "]").length = 1 := by decide
    have : (ascii "' expects ").length = 10 := by decide
    split at h
    · split at h
      · cases h
      · cases h
        simp only [List.length_append]
        omega
    · cases h
      simp only [List.length_append]
      omega

namespace Api

/-- The stores of a channel: no session is current, and every value can be encoded. -/
structure Stores.Sound (st : Stores) : Prop where
  noSession : st.session = none
  vars : ∀ entry ∈ st.vars.entries, entry.value.Encodable
  options : ∀ key value, st.options.slots key = some value → value.Encodable

theorem empty_sound : Stores.Sound ⟨.empty, .empty, none⟩ where
  noSession := rfl
  vars entry h := by cases h
  options key value h := by cases h

def maxText : Nat := 2 ^ 32 - 1

/-- The answer and the text of an error can be encoded, and the stores stay sound. -/
def Outcome.Sound : Outcome → Prop
  | none => False
  | some (.error err) => err.msg.length ≤ maxText
  | some (.ok (value, st)) => value.Encodable ∧ st.Sound

/-- What an argument is bounded by, from a frame or from Lua. -/
def Bounded (obj : Object) : Prop := obj.nesting ≤ kMarshalDepthCap ∧ obj.Fits (2 ^ 31)

theorem Bounded.encodable {obj : Object} (h : Bounded obj) : obj.Encodable :=
  ⟨h.1, h.2.sized (by decide)⟩

theorem validation_length {text : String} (h : text.length ≤ 100) :
    (validation text).msg.length ≤ maxText := by
  rw [validation, length_ascii, maxText]
  omega

theorem nil_encodable : Object.nil.Encodable := ⟨Nat.zero_le _, trivial⟩

theorem Stores.Sound.setOption {st : Stores} {options : OptionStore} {key : OptionKey}
    {value : Object} (h : st.Sound) (hValue : value.Encodable)
    (hSlots : options.slots = Function.update st.options.slots key (some value)) :
    Stores.Sound { st with options } := by
  refine ⟨h.noSession, h.vars, fun k v hSlot => ?_⟩
  rw [hSlots] at hSlot
  by_cases hk : k = key
  · subst hk
    rw [Function.update_self] at hSlot
    exact Option.some.inj hSlot ▸ hValue
  · rw [Function.update_of_ne hk] at hSlot
    exact h.options k v hSlot

theorem setOption_sound {st : Stores} (hSound : st.Sound) {args : List Object}
    (hArgs : ∀ arg ∈ args, Bounded arg) : (dispatchSetOption st args).Sound := by
  unfold dispatchSetOption
  split
  · rename_i name value
    have hName : name.length ≤ 2 ^ 31 := (hArgs (.string name) List.mem_cons_self).2
    have hValue := (hArgs value (List.mem_cons_of_mem _ List.mem_cons_self)).encodable
    cases hSet : optionsSet st.options name value with
    | error err =>
      have := optionsSet_error hSet
      change err.msg.length ≤ maxText
      rw [maxText]
      omega
    | ok options =>
      obtain ⟨key, hSlots⟩ := optionsSet_ok hSet
      exact ⟨nil_encodable, hSound.setOption hValue hSlots⟩
  · exact validation_length (by decide)

theorem default_encodable (key : OptionKey) : (defaultObject (optionDef key)).Encodable := by
  cases key with
  | systemPrompt =>
    refine ⟨Nat.zero_le _, Nat.lt_of_le_of_lt (length_cstr_le _) ?_⟩
    simp only [defaultSystemPrompt, List.length_append, length_ascii]
    decide
  | _ => exact ⟨Nat.zero_le _, trivial⟩

theorem getOption_sound {st : Stores} (hSound : st.Sound) {args : List Object}
    (hArgs : ∀ arg ∈ args, Bounded arg) : (dispatchGetOption st args).Sound := by
  unfold dispatchGetOption
  split
  · rename_i name
    have hName : name.length ≤ 2 ^ 31 := (hArgs (.string name) List.mem_cons_self).2
    rw [optionsGet]
    split
    · have := length_cstr_le name
      change (unknownOption name).msg.length ≤ maxText
      simp only [unknownOption, List.length_append, length_ascii, maxText]
      have : "unknown option '".length = 16 := by decide
      have : "'".length = 1 := by decide
      omega
    · rename_i key hKey
      refine ⟨?_, hSound⟩
      cases hSlot : st.options.slots key with
      | none => exact default_encodable key
      | some value => exact hSound.options key value hSlot
  · exact validation_length (by decide)

theorem setVar_sound {st : Stores} (caller : Caller) (hSound : st.Sound) {args : List Object}
    (hArgs : ∀ arg ∈ args, Bounded arg) : (dispatchSetVar caller st args).Sound := by
  unfold dispatchSetVar
  split
  · rename_i name value
    have hValue := (hArgs value (List.mem_cons_of_mem _ List.mem_cons_self)).encodable
    obtain ⟨result, hSet, hResult⟩ :=
      variablesSet_forall (caller.data name) hValue hValue.1 hSound.vars
    rw [hSet]
    cases result with
    | error err =>
      subst hResult
      change tooManyVariables.msg.length ≤ maxText
      decide
    | ok vars => exact ⟨nil_encodable, hSound.noSession, hResult, hSound.options⟩
  · exact validation_length (by decide)

theorem getVar_sound {st : Stores} (caller : Caller) (hSound : st.Sound) (args : List Object) :
    (dispatchGetVar caller st args).Sound := by
  unfold dispatchGetVar
  split
  · rename_i name
    obtain ⟨value, hGet, hValue⟩ := variablesGet_forall (caller.data name) nil_encodable
      (fun entry h => (hSound.vars entry h).1) hSound.vars
    rw [hGet]
    exact ⟨hValue, hSound⟩
  · exact validation_length (by decide)

theorem sessionResolve_sound {st : Stores} (hSound : st.Sound) (handle : Int32) :
    ∃ err, sessionResolve st handle = .error err ∧ err.msg.length ≤ maxText := by
  rw [sessionResolve]
  split
  · refine ⟨_, rfl, ?_⟩
    have hLow := handle.le_toInt
    have hHigh := handle.toInt_lt
    have hText : (toString handle.toInt).length ≤ 20 + 1 :=
      length_toString_le (by decide) (by omega)
    have : (ascii "unknown session handle: ").length = 24 := by decide
    simp only [List.length_append, Session.decimalInt, length_ascii (toString handle.toInt), maxText]
    omega
  · rw [hSound.noSession]
    exact ⟨_, rfl, by decide⟩

theorem sessHandle_sound (args : List Object) {err : Error} (h : sessHandle args = .error err) :
    err.msg.length ≤ maxText := by
  unfold sessHandle at h
  split at h
  · cases h
  · cases h
  · cases h
    decide

theorem session_sound {st : Stores} (hSound : st.Sound) (args : List Object)
    (answer : Session.SessionState → Except Error (Object × Stores)) :
    Outcome.Sound (some ((sessHandle args).bind fun handle =>
      (sessionResolve st handle).bind answer)) := by
  cases hHandle : sessHandle args with
  | error err => exact sessHandle_sound args hHandle
  | ok handle =>
    obtain ⟨err, hResolve, hLength⟩ := sessionResolve_sound hSound handle
    change Outcome.Sound (some ((sessionResolve st handle).bind answer))
    rw [hResolve]
    exact hLength

theorem getId_eq (st : Stores) (args : List Object) :
    dispatchSessGetId st args = some ((sessHandle args).bind fun handle =>
      (sessionResolve st handle).bind fun sess => .ok (.string sess.id.data, st)) := by
  rw [dispatchSessGetId]
  rfl

theorem call_sound (fn : ApiFn) (caller : Caller) {st : Stores} (hSound : st.Sound)
    {args : List Object} (hArgs : ∀ arg ∈ args, Bounded arg) : (fn.call caller st args).Sound := by
  cases fn with
  | setOption => exact setOption_sound hSound hArgs
  | getOption => exact getOption_sound hSound hArgs
  | setVar => exact setVar_sound caller hSound hArgs
  | getVar => exact getVar_sound caller hSound args
  | sessGetMessages => exact session_sound hSound args _
  | sessGetId =>
    rw [ApiFn.call, getId_eq]
    exact session_sound hSound args _

end Api

end Mua
