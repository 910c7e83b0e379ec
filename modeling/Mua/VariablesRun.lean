import Mathlib.Data.Finmap
import Mathlib.Data.List.Induction
import Mua.Api

/-! # The variables store over a run

Calls of `mua_set_var`, `mua_get_var` and `variables_free` in any order, from
either caller, beside a finite map from byte strings to objects. The two agree
as long as the RPC channel does not name the empty string while it is bound.
-/

namespace Mua.Api

inductive VarCall
  | set (caller : Caller) (name : Bytes) (value : Object)
  | get (caller : Caller) (name : Bytes)
  | free

inductive VarAnswer
  | done
  | failed (err : Error)
  | value (value : Object)

def variablesFree (vars : Variables) : Variables :=
  if _h : 0 < vars.entries.length then variablesFree (vars.remove (vars.entries.length - 1))
  else vars
termination_by vars.entries.length
decreasing_by
  have hLt : vars.entries.length - 1 < vars.entries.length := by omega
  rw [Variables.remove, dif_pos hLt, (removeEntry_perm hLt).length_eq,
    List.length_eraseIdx_of_lt hLt]
  exact hLt

/-- None where the assertion of a copy fails. -/
def varStep (vars : Variables) : VarCall → Option (Variables × VarAnswer)
  | .set caller name value => (variablesSet vars (caller.data name) value).map fun
    | .ok vars => (vars, .done)
    | .error err => (vars, .failed err)
  | .get caller name => (variablesGet vars (caller.data name)).map fun value => (vars, .value value)
  | .free => some (variablesFree vars, .done)

def varRun (vars : Variables) : List VarCall → Option (Variables × List VarAnswer)
  | [] => some (vars, [])
  | call :: rest => (varStep vars call).bind fun (vars, answer) =>
    (varRun vars rest).map fun (vars, answers) => (vars, answer :: answers)

abbrev VarMap : Type := Finmap fun _ : Bytes => Object

def VarMap.step (m : VarMap) : VarCall → VarMap × VarAnswer
  | .set _ name value =>
    if value.type = .nil then (m.erase name, .done)
    else if name ∉ m ∧ m.keys.card = muaVarMax then (m, .failed tooManyVariables)
    else (m.insert name value, .done)
  | .get _ name => (m, .value ((m.lookup name).getD .nil))
  | .free => (∅, .done)

def VarMap.run (m : VarMap) : List VarCall → VarMap × List VarAnswer
  | [] => (m, [])
  | call :: rest =>
    let (m, answer) := m.step call
    let (m, answers) := m.run rest
    (m, answer :: answers)

/-- The store holds the bindings of the map, each under a key of its own. -/
structure Represents (vars : Variables) (m : VarMap) : Prop where
  keys : (vars.entries.map VarEntry.key).Nodup
  lookup : ∀ name, vars.lookup name = m.lookup name
  bound : ∀ name value, m.lookup name = some value →
    value.type ≠ .nil ∧ value.nesting ≤ kMarshalDepthCap

/-- The values the callers build: neither bridge lets one nest past the cap. -/
def VarCall.Capped : VarCall → Prop
  | .set _ _ value => value.nesting ≤ kMarshalDepthCap
  | _ => True

def Misses (vars : Variables) : VarCall → Prop
  | .set .rpc [] _ | .get .rpc [] => vars.lookup [] ≠ none
  | _ => False

variable {vars vars' : Variables} {m : VarMap} {name : Bytes} {value : Object} {idx : Nat}
  {call : VarCall}

theorem lookup_mem (hKeys : (vars.entries.map VarEntry.key).Nodup) :
    vars.lookup name = some value ↔ ⟨name, value⟩ ∈ vars.entries := by
  rw [Variables.lookup, Option.map_eq_some_iff]
  constructor
  · rintro ⟨entry, hEntry, rfl⟩
    have hKey : entry.key = name := by simpa using List.find?_some hEntry
    subst hKey
    exact List.mem_of_find?_eq_some hEntry
  · intro hMem
    refine ⟨⟨name, value⟩, ?_, rfl⟩
    generalize vars.entries = entries at hMem hKeys
    induction entries with
    | nil => cases hMem
    | cons entry rest ih =>
      obtain ⟨hHead, hRest⟩ := List.nodup_cons.mp hKeys
      rw [List.find?_cons]
      rcases List.mem_cons.mp hMem with rfl | hMem
      · simp
      · have hKey : entry.key ≠ name := by
          rintro rfl
          exact hHead (List.mem_map.mpr ⟨_, hMem, rfl⟩)
        simp only [beq_eq_false_iff_ne.mpr hKey]
        exact ih hMem hRest

theorem lookup_none_iff : vars.lookup name = none ↔ name ∉ vars.entries.map VarEntry.key := by
  rw [Variables.lookup, Option.map_eq_none_iff, List.find?_eq_none, List.mem_map]
  simp

theorem entries_perm (hKey : varIndex vars.entries (some name) = some idx) :
    ∃ value, vars.lookup name = some value ∧
      vars.entries.Perm (⟨name, value⟩ :: (vars.remove idx).entries) := by
  obtain ⟨entry, hEntry, rfl, hLookup⟩ := Variables.lookup_of_index hKey
  obtain ⟨hLt, rfl⟩ := List.getElem?_eq_some_iff.mp hEntry
  refine ⟨_, hLookup, ?_⟩
  rw [Variables.remove, dif_pos hLt]
  refine (List.getElem_cons_eraseIdx_perm hLt).symm.trans ?_
  exact (removeEntry_perm hLt).symm.cons _

theorem remove_keys (hKeys : (vars.entries.map VarEntry.key).Nodup)
    (hKey : varIndex vars.entries (some name) = some idx) :
    ((vars.remove idx).entries.map VarEntry.key).Nodup ∧
      name ∉ (vars.remove idx).entries.map VarEntry.key := by
  obtain ⟨value, -, hPerm⟩ := entries_perm hKey
  have hNodup := ((hPerm.map VarEntry.key).nodup_iff).mp hKeys
  rw [List.map_cons, List.nodup_cons] at hNodup
  exact ⟨hNodup.2, hNodup.1⟩

theorem remove_lookup (hKeys : (vars.entries.map VarEntry.key).Nodup)
    (hKey : varIndex vars.entries (some name) = some idx) (other : Bytes) :
    (vars.remove idx).lookup other = if other = name then none else vars.lookup other := by
  obtain ⟨value, -, hPerm⟩ := entries_perm hKey
  obtain ⟨hNodup, hGone⟩ := remove_keys hKeys hKey
  by_cases hSame : other = name
  · subst hSame
    rw [if_pos rfl, lookup_none_iff]
    exact hGone
  · rw [if_neg hSame]
    apply Option.ext
    intro found
    rw [lookup_mem hNodup, lookup_mem hKeys, hPerm.mem_iff, List.mem_cons]
    constructor
    · exact .inr
    · rintro (hHere | hThere)
      · cases hHere
        exact absurd rfl hSame
      · exact hThere

theorem overwrite_keys (vars : Variables) (idx : Nat) (value : Object) :
    (vars.overwrite idx value).entries.map VarEntry.key = vars.entries.map VarEntry.key := by
  apply List.ext_getElem
  · simp [Variables.overwrite]
  · intro i hi hi'
    simp only [Variables.overwrite, List.getElem_map, List.getElem_modify]
    split <;> rfl

theorem variablesFree_entries (vars : Variables) : (variablesFree vars).entries = [] := by
  induction vars using variablesFree.induct with
  | case1 vars h ih =>
    rw [variablesFree, dif_pos h]
    exact ih
  | case2 vars h =>
    rw [variablesFree, dif_neg h]
    exact List.eq_nil_of_length_eq_zero (by omega)

theorem variablesSet_cases (vars : Variables) (name : Option Bytes)
    (hNesting : value.nesting ≤ kMarshalDepthCap) :
    (∃ idx, varIndex vars.entries name = some idx ∧ variablesSet vars name value =
        some (.ok (if value.type = .nil then vars.remove idx else vars.overwrite idx value))) ∨
      varIndex vars.entries name = none ∧
        if value.type = .nil then variablesSet vars name value = some (.ok vars)
        else if vars.entries.length = muaVarMax then
          variablesSet vars name value = some (.error tooManyVariables)
        else ∃ vars', variablesSet vars name value = some (.ok vars') ∧
          vars'.entries = vars.entries ++ [⟨name.getD [], value⟩] := by
  have hCopy := apiCopyObject_eq hNesting
  unfold variablesSet
  split
  · rename_i idx hIdx
    refine .inl ⟨idx, hIdx, ?_⟩
    split
    · rfl
    · rw [hCopy]
      rfl
  · rename_i hIdx
    refine .inr ⟨hIdx, ?_⟩
    split
    · rfl
    split
    · rfl
    · rw [hCopy]
      exact ⟨_, rfl, rfl⟩

theorem variablesGet_cases (vars : Variables) (name : Option Bytes)
    (hNesting : ∀ entry ∈ vars.entries, entry.value.nesting ≤ kMarshalDepthCap) :
    (∃ idx entry, varIndex vars.entries name = some idx ∧ vars.entries[idx]? = some entry ∧
        variablesGet vars name = some entry.value) ∨
      varIndex vars.entries name = none ∧ variablesGet vars name = some .nil := by
  unfold variablesGet
  cases hIdx : varIndex vars.entries name with
  | none => exact .inr ⟨rfl, rfl⟩
  | some idx =>
    left
    cases name with
    | none => cases hIdx
    | some name =>
      obtain ⟨entry, hEntry, -⟩ := varIndex_some hIdx
      rw [Option.bind_some, hEntry]
      exact ⟨idx, entry, rfl, hEntry, apiCopyObject_eq (hNesting entry (List.mem_of_getElem? hEntry))⟩

theorem caller_data (caller : Caller) (name : Bytes)
    (hFound : caller = .rpc → name = [] → vars.lookup [] = none) :
    varIndex vars.entries (caller.data name) = varIndex vars.entries (some name) ∧
      (caller.data name).getD [] = name := by
  match caller, name with
  | .lua, name => exact ⟨rfl, rfl⟩
  | .rpc, b :: rest => exact ⟨rfl, rfl⟩
  | .rpc, [] =>
    refine ⟨?_, rfl⟩
    have hNone : varIndex vars.entries (some []) = none := by
      rw [varIndex, List.findIdx?_eq_none_iff]
      intro entry hEntry
      have := lookup_none_iff.mp (hFound rfl rfl)
      simpa using fun hKey : entry.key = [] => this (List.mem_map.mpr ⟨entry, hEntry, hKey⟩)
    rw [hNone]
    rfl

theorem lookup_snoc {name : Bytes} (hEntries : vars'.entries = vars.entries ++ [⟨name, value⟩])
    (other : Bytes) :
    vars'.lookup other = (vars.lookup other).or (if other = name then some value else none) := by
  rw [Variables.lookup, hEntries, List.find?_append, Variables.lookup]
  cases vars.entries.find? (·.key == other) with
  | some entry => rfl
  | none =>
    by_cases hOther : other = name
    · subst hOther
      simp
    · simp [hOther, Ne.symm hOther]

namespace Represents

theorem mem_iff (h : Represents vars m) : name ∈ m ↔ vars.lookup name ≠ none := by
  rw [h.lookup, ← Finmap.lookup_isSome, Option.isSome_iff_ne_none]

theorem card (h : Represents vars m) : m.keys.card = vars.entries.length := by
  have hKeys : m.keys = (vars.entries.map VarEntry.key).toFinset := by
    apply Finset.ext
    intro name
    rw [Finmap.mem_keys, h.mem_iff, List.mem_toFinset, Ne, lookup_none_iff, not_not]
  rw [hKeys, List.toFinset_card_of_nodup h.keys, List.length_map]

theorem empty : Represents .empty ∅ := ⟨List.nodup_nil, fun _ => rfl, fun _ _ h => by cases h⟩

theorem entry_capped (h : Represents vars m) :
    ∀ entry ∈ vars.entries, entry.value.nesting ≤ kMarshalDepthCap := by
  intro entry hEntry
  have hLookup : vars.lookup entry.key = some entry.value := (lookup_mem h.keys).mpr hEntry
  exact (h.bound _ _ ((h.lookup _).symm.trans hLookup)).2

theorem index_none (h : Represents vars m) :
    varIndex vars.entries (some name) = none ↔ m.lookup name = none := by
  rw [← h.lookup]
  constructor
  · exact Variables.lookup_of_no_index
  · intro hNone
    cases hIdx : varIndex vars.entries (some name) with
    | none => rfl
    | some idx =>
      obtain ⟨entry, -, -, hLookup⟩ := Variables.lookup_of_index hIdx
      cases hNone.symm.trans hLookup

theorem erase (h : Represents vars m) (hIdx : varIndex vars.entries (some name) = some idx) :
    Represents (vars.remove idx) (m.erase name) := by
  have hLookup : ∀ other, (m.erase name).lookup other =
      if other = name then none else m.lookup other := by
    intro other
    split
    · rename_i hSame
      rw [hSame, Finmap.lookup_erase]
    · rename_i hOther
      rw [Finmap.lookup_erase_ne hOther]
  refine ⟨(remove_keys h.keys hIdx).1, fun other => ?_, fun other value hValue => ?_⟩
  · rw [remove_lookup h.keys hIdx, hLookup, h.lookup]
  · rw [hLookup] at hValue
    split at hValue
    · cases hValue
    · exact h.bound other value hValue

theorem insert_lookup (m : VarMap) (name : Bytes) (value : Object) (other : Bytes) :
    (m.insert name value).lookup other = if other = name then some value else m.lookup other := by
  split
  · rename_i hSame
    rw [hSame, Finmap.lookup_insert]
  · rename_i hOther
    rw [Finmap.lookup_insert_of_ne m hOther]

theorem insert_bound (h : Represents vars m) (hType : value.type ≠ .nil)
    (hNesting : value.nesting ≤ kMarshalDepthCap) (other : Bytes) (found : Object)
    (hFound : (m.insert name value).lookup other = some found) :
    found.type ≠ .nil ∧ found.nesting ≤ kMarshalDepthCap := by
  rw [insert_lookup] at hFound
  split at hFound
  · cases hFound
    exact ⟨hType, hNesting⟩
  · exact h.bound other found hFound

theorem overwrite (h : Represents vars m) (hType : value.type ≠ .nil)
    (hNesting : value.nesting ≤ kMarshalDepthCap)
    (hIdx : varIndex vars.entries (some name) = some idx) :
    Represents (vars.overwrite idx value) (m.insert name value) := by
  refine ⟨?_, fun other => ?_, h.insert_bound hType hNesting⟩
  · rw [overwrite_keys]
    exact h.keys
  · rw [Variables.lookup_overwrite hIdx, insert_lookup, h.lookup]

theorem append (h : Represents vars m) (hType : value.type ≠ .nil)
    (hNesting : value.nesting ≤ kMarshalDepthCap) (hNew : m.lookup name = none)
    (hEntries : vars'.entries = vars.entries ++ [⟨name, value⟩]) :
    Represents vars' (m.insert name value) := by
  refine ⟨?_, fun other => ?_, h.insert_bound hType hNesting⟩
  · rw [hEntries, List.map_append]
    refine List.nodup_append.mpr ⟨h.keys, List.nodup_singleton _, ?_⟩
    rintro key hKey last hLast rfl
    rw [List.map_singleton, List.mem_singleton] at hLast
    subst hLast
    exact lookup_none_iff.mp ((h.lookup _).trans hNew) hKey
  · rw [lookup_snoc hEntries, insert_lookup, h.lookup]
    split
    · rename_i hSame
      rw [hSame, hNew]
      rfl
    · exact Option.or_none

end Represents

/-- While the call does not miss a binding, the store answers it as the map does. -/
theorem varStep_represents (h : Represents vars m) (hCapped : call.Capped)
    (hFound : ¬Misses vars call) :
    ∃ vars', varStep vars call = some (vars', (m.step call).2) ∧
      Represents vars' (m.step call).1 := by
  cases call with
  | free =>
    refine ⟨_, rfl, ?_⟩
    have hEntries := variablesFree_entries vars
    refine ⟨?_, fun name => ?_, fun name value hValue => ?_⟩
    · rw [hEntries]
      exact List.nodup_nil
    · rw [Variables.lookup, hEntries]
      rfl
    · cases hValue
  | get caller name =>
    have hName : caller = .rpc → name = [] → vars.lookup [] = none := by
      rintro rfl rfl
      exact not_not.mp hFound
    obtain ⟨hIndex, -⟩ := caller_data caller name hName
    have hStep : varStep vars (.get caller name) =
        (variablesGet vars (caller.data name)).map fun value => (vars, .value value) := rfl
    refine ⟨vars, ?_, h⟩
    rw [hStep]
    rcases variablesGet_cases vars (caller.data name) h.entry_capped with
      ⟨idx, entry, hIdx, hEntry, hGet⟩ | ⟨hIdx, hGet⟩
    · rw [hIndex] at hIdx
      obtain ⟨entry', hEntry', -, hLookup⟩ := Variables.lookup_of_index hIdx
      cases hEntry.symm.trans hEntry'
      rw [hGet, VarMap.step, ← h.lookup, hLookup]
      rfl
    · rw [hIndex] at hIdx
      rw [hGet, VarMap.step, h.index_none.mp hIdx]
      rfl
  | set caller name value =>
    have hName : caller = .rpc → name = [] → vars.lookup [] = none := by
      rintro rfl rfl
      exact not_not.mp hFound
    obtain ⟨hIndex, hData⟩ := caller_data caller name hName
    have hStep : varStep vars (.set caller name value) =
        (variablesSet vars (caller.data name) value).map fun
          | .ok vars => (vars, .done)
          | .error err => (vars, .failed err) := rfl
    rw [hStep, VarMap.step]
    rcases variablesSet_cases vars (caller.data name) hCapped with
      ⟨idx, hIdx, hSet⟩ | ⟨hIdx, hSet⟩
    · rw [hIndex] at hIdx
      obtain ⟨entry, -, -, hLookup⟩ := Variables.lookup_of_index hIdx
      have hKnown : name ∈ m := by
        rw [h.mem_iff, hLookup]
        exact Option.some_ne_none _
      by_cases hNil : value.type = .nil
      · rw [hSet, if_pos hNil, if_pos hNil]
        exact ⟨_, rfl, h.erase hIdx⟩
      · rw [hSet, if_neg hNil, if_neg hNil, if_neg fun hBoth => hBoth.1 hKnown]
        exact ⟨_, rfl, h.overwrite hNil hCapped hIdx⟩
    · rw [hIndex] at hIdx
      have hNew := h.index_none.mp hIdx
      by_cases hNil : value.type = .nil
      · rw [if_pos hNil] at hSet
        rw [hSet, if_pos hNil]
        refine ⟨vars, rfl, h.keys, fun other => ?_, fun other found hFound => ?_⟩
        · by_cases hSame : other = name
          · rw [hSame, Finmap.lookup_erase, h.lookup, hNew]
          · rw [Finmap.lookup_erase_ne hSame, h.lookup]
        · by_cases hSame : other = name
          · rw [hSame, Finmap.lookup_erase] at hFound
            cases hFound
          · rw [Finmap.lookup_erase_ne hSame] at hFound
            exact h.bound other found hFound
      · rw [if_neg hNil] at hSet ⊢
        by_cases hFull : vars.entries.length = muaVarMax
        · rw [if_pos hFull] at hSet
          rw [hSet, if_pos ⟨Finmap.lookup_eq_none.mp hNew, h.card.trans hFull⟩]
          exact ⟨vars, rfl, h⟩
        · rw [if_neg hFull] at hSet
          obtain ⟨vars', hOk, hEntries⟩ := hSet
          rw [hOk, if_neg fun hBoth => hFull (h.card.symm.trans hBoth.2)]
          rw [hData] at hEntries
          exact ⟨vars', rfl, h.append hNil hCapped hNew hEntries⟩

/-- A call that misses a binding answers otherwise than the map, or leaves another store. -/
theorem varStep_misses (h : Represents vars m) (hCapped : call.Capped) (hMiss : Misses vars call) :
    ¬∃ vars', varStep vars call = some (vars', (m.step call).2) ∧
      Represents vars' (m.step call).1 := by
  rintro ⟨vars', hStep, hRep⟩
  have hBound : ∀ {name : Bytes}, vars.lookup name ≠ none → ∃ value, m.lookup name = some value ∧
      value.type ≠ .nil := by
    intro name hSome
    obtain ⟨value, hValue⟩ := Option.ne_none_iff_exists'.mp hSome
    have hMap := (h.lookup name).symm.trans hValue
    exact ⟨value, hMap, (h.bound name value hMap).1⟩
  unfold Misses at hMiss
  split at hMiss
  · rename_i value
    obtain ⟨old, hOld, hOldType⟩ := hBound hMiss
    have hSet : varStep vars (.set .rpc [] value) = (variablesSet vars none value).map fun
          | .ok vars => (vars, .done)
          | .error err => (vars, .failed err) := rfl
    rw [hSet, VarMap.step] at hStep
    rw [VarMap.step] at hRep
    rcases variablesSet_cases vars none hCapped with ⟨idx, hIdx, -⟩ | ⟨-, hCases⟩
    · cases hIdx
    by_cases hNil : value.type = .nil
    · -- Nil deletes nothing
      rw [if_pos hNil] at hCases hRep hStep
      rw [hCases] at hStep
      cases hStep
      have hGone := hRep.lookup []
      rw [Finmap.lookup_erase] at hGone
      exact hMiss hGone
    · rw [if_neg hNil] at hCases hRep hStep
      have hKnown : ¬([] ∉ m ∧ m.keys.card = muaVarMax) := by
        rintro ⟨hNot, -⟩
        exact hNot (h.mem_iff.mpr hMiss)
      rw [if_neg hKnown] at hRep hStep
      by_cases hFull : vars.entries.length = muaVarMax
      · rw [if_pos hFull] at hCases
        rw [hCases] at hStep
        cases hStep
      · rw [if_neg hFull] at hCases
        obtain ⟨longer, hOk, hEntries⟩ := hCases
        rw [hOk] at hStep
        cases hStep
        -- the empty key is stored twice
        have hKeys := hRep.keys
        rw [hEntries, List.map_append] at hKeys
        have hKey : [] ∈ vars.entries.map VarEntry.key := by
          by_contra hNone
          exact hMiss (lookup_none_iff.mpr hNone)
        exact (List.nodup_append.mp hKeys).2.2 [] hKey [] (List.mem_singleton.mpr rfl) rfl
  · obtain ⟨old, hOld, hOldType⟩ := hBound hMiss
    have hGet : varStep vars (.get .rpc []) = some (vars, .value .nil) := rfl
    rw [hGet, VarMap.step, hOld] at hStep
    cases hStep
    exact hOldType rfl
  · exact hMiss

theorem varRun_snoc (vars : Variables) (calls : List VarCall) (call : VarCall) :
    varRun vars (calls ++ [call]) = (varRun vars calls).bind fun (vars, answers) =>
      (varStep vars call).map fun (vars, answer) => (vars, answers ++ [answer]) := by
  induction calls generalizing vars with
  | nil =>
    change (varStep vars call).bind _ = (varStep vars call).map _
    cases varStep vars call <;> rfl
  | cons first rest ih =>
    rw [List.cons_append, varRun, varRun]
    cases varStep vars first with
    | none => rfl
    | some next =>
      obtain ⟨vars', answer⟩ := next
      simp only [Option.bind_some, ih]
      cases varRun vars' rest with
      | none => rfl
      | some last =>
        obtain ⟨vars'', answers⟩ := last
        simp only [Option.bind_some, Option.map_some]
        cases varStep vars'' call <;> rfl

theorem VarMap.run_snoc (m : VarMap) (calls : List VarCall) (call : VarCall) :
    m.run (calls ++ [call]) =
      (((m.run calls).1.step call).1, (m.run calls).2 ++ [((m.run calls).1.step call).2]) := by
  induction calls generalizing m with
  | nil => rfl
  | cons first rest ih =>
    rw [List.cons_append, VarMap.run, VarMap.run]
    simp only [ih, List.cons_append]

/-- The calls give what the map gives, and leave the bindings of the map in the store. -/
def MapRun (calls : List VarCall) : Prop :=
  ∃ vars, varRun .empty calls = some (vars, (VarMap.run ∅ calls).2) ∧
    Represents vars (VarMap.run ∅ calls).1 ∧ (VarMap.run ∅ calls).1.keys.card ≤ muaVarMax

variable {calls : List VarCall}

theorem mapRun_snoc :
    MapRun (calls ++ [call]) ↔ ∃ vars answers, varRun .empty calls = some (vars, answers) ∧
      ∃ vars' answer, varStep vars call = some (vars', answer) ∧
        answers ++ [answer] =
          (VarMap.run ∅ calls).2 ++ [((VarMap.run ∅ calls).1.step call).2] ∧
        Represents vars' ((VarMap.run ∅ calls).1.step call).1 ∧
          ((VarMap.run ∅ calls).1.step call).1.keys.card ≤ muaVarMax := by
  rw [MapRun, varRun_snoc, VarMap.run_snoc]
  constructor
  · rintro ⟨vars', hRun, hRep, hCard⟩
    obtain ⟨⟨vars, answers⟩, hFirst, hLast⟩ := Option.bind_eq_some_iff.mp hRun
    obtain ⟨⟨vars'', answer⟩, hStep, hEq⟩ := Option.map_eq_some_iff.mp hLast
    obtain ⟨rfl, hAnswers⟩ := Prod.mk.inj hEq
    exact ⟨vars, answers, hFirst, vars'', answer, hStep, hAnswers, hRep, hCard⟩
  · rintro ⟨vars, answers, hFirst, vars', answer, hStep, hAnswers, hRep, hCard⟩
    refine ⟨vars', ?_, hRep, hCard⟩
    rw [hFirst, Option.bind_some]
    dsimp only
    rw [hStep, Option.map_some, hAnswers]

/-- In every state of a run the store is the map, with the same answers, if and only if the RPC
channel never names the empty string while it is bound. -/
theorem varRun_map_iff (hCapped : ∀ call ∈ calls, call.Capped) :
    (∀ before after, calls = before ++ after → MapRun before) ↔
      ∀ before call after, calls = before ++ call :: after → ∀ vars answers,
        varRun .empty before = some (vars, answers) → ¬Misses vars call := by
  constructor
  · rintro hMap before call after rfl vars answers hRun hMiss
    obtain ⟨vars₀, hRun₀, hRep, -⟩ := hMap before (call :: after) rfl
    cases hRun.symm.trans hRun₀
    have hNext := hMap (before ++ [call]) after (by simp)
    obtain ⟨vars₁, answers₁, hRun₁, vars', answer, hStep, hAnswers, hRep', -⟩ := mapRun_snoc.mp hNext
    cases hRun.symm.trans hRun₁
    have hAnswer := List.append_cancel_left hAnswers
    cases hAnswer
    have hCall := hCapped call (List.mem_append_right _ List.mem_cons_self)
    exact varStep_misses hRep hCall hMiss ⟨vars', hStep, hRep'⟩
  · intro hFound before after hCalls
    induction before using List.reverseRecOn generalizing after with
    | nil => exact ⟨.empty, rfl, .empty, Nat.zero_le _⟩
    | append_singleton before call ih =>
      have hSplit : calls = before ++ call :: after := by simpa using hCalls
      obtain ⟨vars, hRun, hRep, -⟩ := ih (call :: after) hSplit
      have hCall : call ∈ calls := hSplit ▸ List.mem_append_right _ List.mem_cons_self
      obtain ⟨vars', hStep, hRep'⟩ := varStep_represents hRep (hCapped call hCall)
        (hFound before call after hSplit vars _ hRun)
      refine mapRun_snoc.mpr ⟨vars, _, hRun, vars', _, hStep, rfl, hRep', ?_⟩
      rw [hRep'.card]
      exact vars'.bounded

/-! The empty name, set from Lua and then over RPC. -/

theorem rpc_empty_name_kept :
    (varRun .empty [.set .lua [] (.boolean true), .get .rpc []]).map Prod.snd =
        some [.done, .value .nil] ∧
      (VarMap.run ∅ [.set .lua [] (.boolean true), .get .rpc []]).2 =
        [.done, .value (.boolean true)] :=
  ⟨rfl, rfl⟩

theorem varRun_map_sample :
    MapRun [.set .lua [] (.boolean true), .get .lua [], .set .rpc (ascii "a") .nil] := by
  have hCapped : ∀ call ∈ ([.set .lua [] (.boolean true), .get .lua [],
      .set .rpc (ascii "a") .nil] : List VarCall), call.Capped := by
    intro call hCall
    simp only [List.mem_cons, List.not_mem_nil, or_false] at hCall
    rcases hCall with rfl | rfl | rfl
    · exact Nat.zero_le _
    · trivial
    · exact Nat.zero_le _
  refine (varRun_map_iff hCapped).mpr ?_ _ [] (List.append_nil _).symm
  intro before call after hSplit vars answers _ hMiss
  have hCall : call ∈ ([.set .lua [] (.boolean true), .get .lua [],
      .set .rpc (ascii "a") .nil] : List VarCall) :=
    hSplit ▸ List.mem_append_right _ List.mem_cons_self
  simp only [List.mem_cons, List.not_mem_nil, or_false] at hCall
  rcases hCall with rfl | rfl | rfl <;> exact hMiss

end Mua.Api
