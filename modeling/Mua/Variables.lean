import Mathlib.Data.List.Perm.Basic
import Mua.Helpers

/-! # The variables store

variables.c: names to objects in a dense array, with linear lookup. A name is a
String, which may have no data: it is then found nowhere, and stored as empty.
-/

namespace Mua

def muaVarMax : Nat := 1024

structure VarEntry where
  key : Bytes
  value : Object

structure Variables where
  entries : List VarEntry
  bounded : entries.length ≤ muaVarMax
  distinct : entries.Pairwise fun a b => a.key = b.key → a.key = []

def Variables.empty : Variables := ⟨[], Nat.zero_le _, .nil⟩

def varIndex (entries : List VarEntry) : Option Bytes → Option Nat
  | none => none
  | some name => entries.findIdx? fun entry => entry.key == name

def removeEntry (entries : List VarEntry) (idx : Nat) : List VarEntry :=
  let last := entries.length - 1
  let filled :=
    if idx ≠ last then
      match entries[last]? with
      | some entry => entries.set idx entry
      | none => entries
    else entries
  filled.take last

def tooManyVariables : Error :=
  ⟨.validation, ascii "too many variables (max " ++ decimal muaVarMax ++ ascii ")"⟩

section Entries

variable {entries : List VarEntry} {name : Bytes} {idx : Nat}

theorem varIndex_some (h : varIndex entries (some name) = some idx) :
    ∃ entry, entries[idx]? = some entry ∧ entry.key = name ∧
      ∀ j entry, j < idx → entries[j]? = some entry → entry.key ≠ name := by
  rw [varIndex, List.findIdx?_eq_some_iff_getElem] at h
  obtain ⟨hLt, hKey, hBefore⟩ := h
  refine ⟨entries[idx], List.getElem?_eq_getElem hLt, by simpa using hKey, ?_⟩
  rintro j entry hj hEntry
  obtain ⟨hjLt, rfl⟩ := List.getElem?_eq_some_iff.mp hEntry
  simpa using hBefore j hj

theorem varIndex_none (h : varIndex entries (some name) = none) :
    ∀ entry ∈ entries, entry.key ≠ name := by
  rw [varIndex, List.findIdx?_eq_none_iff] at h
  intro entry hEntry
  simpa using h entry hEntry

theorem removeEntry_perm (h : idx < entries.length) :
    (removeEntry entries idx).Perm (entries.eraseIdx idx) := by
  have hNe : entries ≠ [] := by
    rintro rfl
    cases h
  obtain ⟨front, last, rfl⟩ : ∃ front last, entries = front ++ [last] :=
    ⟨entries.dropLast, entries.getLast hNe, (List.dropLast_append_getLast hNe).symm⟩
  have hLast : (front ++ [last]).length - 1 = front.length := by simp
  rw [removeEntry]
  simp only [hLast]
  by_cases hIdx : idx = front.length
  · subst hIdx
    rw [if_neg (by simp), List.eraseIdx_append_of_length_le (Nat.le_refl _)]
    simp
  · have hLt : idx < front.length := by
      rw [List.length_append, List.length_singleton] at h
      omega
    rw [if_pos hIdx, List.eraseIdx_append_of_lt_length hLt]
    simp only [List.getElem?_concat_length]
    rw [List.set_append_left _ _ hLt, List.take_left' (by simp)]
    -- the last entry stands where the removed one was
    rw [List.set_eq_take_append_cons_drop, if_pos hLt, List.eraseIdx_eq_take_drop_succ,
      List.append_assoc]
    exact (List.perm_append_singleton last _).symm.append_left _

end Entries

namespace Variables

def overwrite (vars : Variables) (idx : Nat) (value : Object) : Variables where
  entries := vars.entries.modify idx fun entry => { entry with value := value }
  bounded := by
    rw [List.length_modify]
    exact vars.bounded
  distinct := by
    have h := vars.distinct
    rw [List.pairwise_iff_getElem] at h ⊢
    intro i j hi hj hij hKey
    rw [List.length_modify] at hi hj
    simp only [List.getElem_modify] at hKey ⊢
    have := h i j hi hj hij
    split at hKey <;> split at hKey <;> simp_all

def remove (vars : Variables) (idx : Nat) : Variables :=
  if h : idx < vars.entries.length then
    { entries := removeEntry vars.entries idx
      bounded := by
        rw [(removeEntry_perm h).length_eq]
        exact (List.length_eraseIdx_le ..).trans vars.bounded
      distinct := by
        have hSymm : ∀ {a b : VarEntry}, (a.key = b.key → a.key = []) → b.key = a.key → b.key = [] :=
          fun h hKey => hKey.trans (h hKey.symm)
        exact ((removeEntry_perm h).pairwise_iff hSymm).mpr
          (vars.distinct.sublist (List.eraseIdx_sublist ..)) }
  else vars

def append (vars : Variables) (key : Bytes) (value : Object) (hRoom : vars.entries.length < muaVarMax)
    (hNew : key = [] ∨ ∀ entry ∈ vars.entries, entry.key ≠ key) : Variables where
  entries := vars.entries ++ [⟨key, value⟩]
  bounded := by
    rw [List.length_append]
    exact hRoom
  distinct := by
    refine List.pairwise_append.mpr ⟨vars.distinct, List.pairwise_singleton _ _, ?_⟩
    intro entry hEntry last hLast hKey
    obtain rfl := List.mem_singleton.mp hLast
    rcases hNew with hEmpty | hNew
    · exact hKey.trans hEmpty
    · exact absurd hKey (hNew entry hEntry)

def lookup (vars : Variables) (name : Bytes) : Option Object :=
  (vars.entries.find? fun entry => entry.key == name).map (·.value)

end Variables

theorem varIndex_new {entries : List VarEntry} {name : Option Bytes}
    (h : varIndex entries name = none) :
    name.getD [] = [] ∨ ∀ entry ∈ entries, entry.key ≠ name.getD [] := by
  cases name with
  | none => exact .inl rfl
  | some name => exact .inr (varIndex_none h)

/-- None where an assertion of `api_copy_object` fails. -/
def variablesSet (vars : Variables) (name : Option Bytes) (value : Object) :
    Option (Except Error Variables) :=
  match hIdx : varIndex vars.entries name with
  | some idx =>
    if value.type = .nil then some (.ok (vars.remove idx))
    else (apiCopyObject value).map fun copy => .ok (vars.overwrite idx copy)
  | none =>
    if value.type = .nil then some (.ok vars)
    else if hMax : vars.entries.length = muaVarMax then some (.error tooManyVariables)
    else (apiCopyObject value).map fun copy => .ok <|
      vars.append (name.getD []) copy (Nat.lt_of_le_of_ne vars.bounded hMax) (varIndex_new hIdx)

def variablesGet (vars : Variables) (name : Option Bytes) : Option Object :=
  match (varIndex vars.entries name).bind fun idx => vars.entries[idx]? with
  | some entry => apiCopyObject entry.value
  | none => some .nil

namespace Variables

variable {vars vars' : Variables} {name : Bytes} {idx : Nat} {value : Object}

theorem lookup_of_index (h : varIndex vars.entries (some name) = some idx) :
    ∃ entry, vars.entries[idx]? = some entry ∧ entry.key = name ∧
      vars.lookup name = some entry.value := by
  obtain ⟨entry, hEntry, hKey, hBefore⟩ := varIndex_some h
  refine ⟨entry, hEntry, hKey, ?_⟩
  obtain ⟨hLt, rfl⟩ := List.getElem?_eq_some_iff.mp hEntry
  rw [lookup, List.find?_eq_some_iff_getElem.mpr]
  · rfl
  · refine ⟨by simpa using hKey, idx, hLt, rfl, fun j hj => ?_⟩
    have := hBefore j _ hj (List.getElem?_eq_getElem (by omega))
    simpa using this

theorem lookup_of_no_index (h : varIndex vars.entries (some name) = none) :
    vars.lookup name = none := by
  rw [lookup, List.find?_eq_none.mpr, Option.map_none]
  intro entry hEntry
  simpa using varIndex_none h entry hEntry

theorem find_modify (entries : List VarEntry) (idx : Nat) (value : Object) (name : Bytes) :
    (entries.modify idx fun entry => { entry with value := value }).find? (·.key == name) =
      if entries.findIdx? (·.key == name) = some idx then
        (entries.find? (·.key == name)).map fun entry => { entry with value := value }
      else entries.find? (·.key == name) := by
  induction entries generalizing idx with
  | nil => simp
  | cons entry rest ih =>
    cases idx with
    | zero =>
      rw [List.modify_zero_cons, List.findIdx?_cons, List.find?_cons, List.find?_cons]
      cases entry.key == name <;> simp
    | succ idx =>
      rw [List.modify_succ_cons, List.findIdx?_cons, List.find?_cons, List.find?_cons, ih idx]
      cases entry.key == name <;> simp

theorem lookup_overwrite (h : varIndex vars.entries (some name) = some idx) (other : Bytes) :
    (vars.overwrite idx value).lookup other =
      if other = name then some value else vars.lookup other := by
  obtain ⟨entry, hEntry, hKey, hLookup⟩ := lookup_of_index h
  rw [lookup, overwrite, find_modify]
  by_cases hOther : other = name
  · subst hOther
    rw [lookup] at hLookup
    obtain ⟨found, hFound, -⟩ := Option.map_eq_some_iff.mp hLookup
    rw [varIndex] at h
    rw [if_pos h, if_pos rfl, hFound]
    rfl
  · rw [if_neg hOther, if_neg, lookup]
    intro hIdx
    obtain ⟨entry', hEntry', hKey', -⟩ := varIndex_some hIdx
    rw [hEntry] at hEntry'
    cases hEntry'
    exact hOther (hKey'.symm.trans hKey)

theorem lookup_append {hRoom : vars.entries.length < muaVarMax}
    {hNew : name = [] ∨ ∀ entry ∈ vars.entries, entry.key ≠ name} (other : Bytes) :
    (vars.append name value hRoom hNew).lookup other =
      (vars.lookup other).or (if other = name then some value else none) := by
  rw [lookup, append, List.find?_append, lookup]
  cases vars.entries.find? (·.key == other) with
  | some entry => rfl
  | none =>
    by_cases hOther : other = name
    · subst hOther
      simp
    · simp [hOther, Ne.symm hOther]

end Variables

section Accessors

variable {vars vars' : Variables} {name : Bytes} {value : Object}

theorem variablesGet_eq (vars : Variables) (name : Bytes) :
    variablesGet vars (some name) =
      match vars.lookup name with
      | some value => apiCopyObject value
      | none => some .nil := by
  rw [variablesGet]
  cases hIdx : varIndex vars.entries (some name) with
  | none => rw [Variables.lookup_of_no_index hIdx, Option.bind_none]
  | some idx =>
    obtain ⟨entry, hEntry, -, hLookup⟩ := Variables.lookup_of_index hIdx
    rw [hLookup, Option.bind_some, hEntry]

/-- There is room for a name that is known or while entries are left. -/
def Variables.HasRoom (vars : Variables) (name : Bytes) : Prop :=
  vars.lookup name ≠ none ∨ vars.entries.length < muaVarMax

theorem variablesSet_room (hNil : value.type ≠ .nil) (hNesting : value.nesting ≤ kMarshalDepthCap)
    (hRoom : vars.HasRoom name) :
    ∃ vars', variablesSet vars (some name) value = some (.ok vars') ∧
      ∀ other, vars'.lookup other = if other = name then some value else vars.lookup other := by
  have hCopy := apiCopyObject_eq hNesting
  rw [variablesSet]
  split
  · rename_i idx hIdx
    rw [if_neg hNil, hCopy]
    exact ⟨_, rfl, Variables.lookup_overwrite hIdx⟩
  · rename_i hIdx
    have hNone := Variables.lookup_of_no_index hIdx
    have hMax : vars.entries.length ≠ muaVarMax := by
      rcases hRoom with hKnown | hLt
      · exact absurd hNone hKnown
      · omega
    rw [if_neg hNil, dif_neg hMax, hCopy]
    refine ⟨_, rfl, fun other => ?_⟩
    rw [Variables.lookup_append]
    by_cases hOther : other = name
    · subst hOther
      rw [hNone]
      rfl
    · simp [hOther]

end Accessors

end Mua
