import Mathlib.Data.List.Perm.Subperm
import Mua.Number

/-! # Lua values and the classification of tables

Tables live on a heap and may be shared or cyclic. Their entries stand in the
order `lua_next` visits them. `classifyTable` is the loop of bridge.c: a sequence
has exactly the keys 1..n, a record has only strings, and nothing else is stored.
-/

namespace Mua.Lua

/-- The types `lua_pop_object` refuses. -/
inductive OtherType
  | lightuserdata
  | function
  | userdata
  | thread
  | cdata
  deriving DecidableEq, Repr

inductive Value
  | nil
  | boolean (b : Bool)
  | number (d : Double)
  | string (s : Bytes)
  | table (id : Nat)
  | other (type : OtherType) (id : Nat)
  deriving DecidableEq, Repr

def rawEqual : Value → Value → Bool
  | .number a, .number b => a.equals b
  | a, b => a == b

/-- A key is neither nil nor a NaN, a value is not nil. The VM keeps tables below 2^31
entries. -/
structure Table where
  entries : List (Value × Value)
  keyed : ∀ entry ∈ entries, entry.1 ≠ .nil ∧ rawEqual entry.1 entry.1 = true
  distinct : entries.Pairwise fun a b => rawEqual a.1 b.1 = false
  present : ∀ entry ∈ entries, entry.2 ≠ .nil
  small : entries.length < 2 ^ 31

def Table.empty : Table := ⟨[], nofun, .nil, nofun, by decide⟩

abbrev Heap := Nat → Table

def Table.rawget (t : Table) (key : Value) : Value :=
  ((t.entries.find? fun entry => rawEqual entry.1 key).map (·.2)).getD .nil

theorem rawEqual_symm {a b : Value} (h : rawEqual a b = true) : rawEqual b a = true := by
  cases a with
  | number x =>
    cases b with
    | number y => exact Double.equals_symm h
    | _ => cases h
  | _ =>
    obtain rfl := eq_of_beq h
    exact h

theorem rawEqual_trans {a b c : Value} (h : rawEqual a b = true) (h' : rawEqual b c = true) :
    rawEqual a c = true := by
  cases a with
  | number x =>
    cases b with
    | number y =>
      cases c with
      | number z => exact Double.equals_trans h h'
      | _ => cases h'
    | _ => cases h
  | _ =>
    obtain rfl := eq_of_beq h
    exact h'

theorem rawEqual_string {a : Value} {s : Bytes} (h : rawEqual a (.string s) = true) :
    a = .string s := by
  cases a <;> exact eq_of_beq h

namespace Table

variable {t : Table} {key value : Value}

theorem rawget_of_mem {entry : Value × Value} (h : entry ∈ t.entries)
    (hKey : rawEqual entry.1 key = true) : t.rawget key = entry.2 := by
  have hPairwise := t.distinct
  rw [rawget]
  generalize t.entries = entries at h hPairwise
  induction entries with
  | nil => cases h
  | cons head rest ih =>
    obtain ⟨hHead, hRest⟩ := List.pairwise_cons.mp hPairwise
    rw [List.find?_cons]
    rcases List.mem_cons.mp h with rfl | hMem
    · rw [hKey]
      rfl
    · have hOther : rawEqual head.1 key = false := by
        rw [Bool.eq_false_iff]
        intro hEqual
        have := rawEqual_trans hEqual (rawEqual_symm hKey)
        rw [hHead entry hMem] at this
        cases this
      rw [hOther]
      exact ih hMem hRest

theorem rawget_ne_nil_iff :
    t.rawget key ≠ .nil ↔ ∃ entry ∈ t.entries, rawEqual entry.1 key = true := by
  constructor
  · intro h
    rw [rawget] at h
    cases hFind : t.entries.find? fun entry => rawEqual entry.1 key with
    | none =>
      rw [hFind] at h
      exact absurd rfl h
    | some entry =>
      have hEqual := List.find?_some hFind
      exact ⟨entry, List.mem_of_find?_eq_some hFind, hEqual⟩
  · rintro ⟨entry, hEntry, hKey⟩
    rw [rawget_of_mem hEntry hKey]
    exact t.present entry hEntry

theorem rawget_self {entry : Value × Value} (h : entry ∈ t.entries) :
    t.rawget entry.1 = entry.2 := rawget_of_mem h (t.keyed entry h).2

end Table

inductive TableKind
  | array
  | dict
  | invalid
  deriving DecidableEq, Repr

structure Census where
  cnt : Nat
  allString : Bool
  allPosint : Bool
  maxInt : Nat

/-- `(lua_Integer)k` when that is k again and at least 1. -/
def posint (castOutside : Double → Int64) (k : Double) : Option Nat :=
  let ki := k.toInt64 castOutside
  if k.equals (.ofInt ki) ∧ 1 ≤ ki then some ki.toNat else none

/-- None abandons the iteration. -/
def countKey (castOutside : Double → Int64) (c : Census) : Value → Option Census
  | .string _ => some { c with cnt := c.cnt + 1, allPosint := false }
  | .number k =>
    match posint castOutside k with
    | some ki => some ⟨c.cnt + 1, false, c.allPosint, if ki > c.maxInt then ki else c.maxInt⟩
    | none => some ⟨c.cnt + 1, false, false, c.maxInt⟩
  | _ => none

def census (castOutside : Double → Int64) : List (Value × Value) → Census → Option Census
  | [], c => some c
  | (key, _) :: rest, c =>
    match countKey castOutside c key with
    | none => none
    | some c => census castOutside rest c

def classifyTable (castOutside : Double → Int64) (t : Table) : TableKind :=
  match census castOutside t.entries ⟨0, true, true, 0⟩ with
  | none => .invalid
  | some c =>
    if c.cnt = 0 then .array
    else if c.allString then .dict
    else if c.allPosint ∧ c.maxInt = c.cnt then .array
    else .invalid

section Census

variable {castOutside : Double → Int64}

def keyInt (castOutside : Double → Int64) : Value → Option Nat
  | .number k => posint castOutside k
  | _ => none

def isString : Value → Bool
  | .string _ => true
  | _ => false

theorem keyInt_some {key : Value} {n : Nat} (h : keyInt castOutside key = some n) :
    1 ≤ n ∧ rawEqual key (.number (.ofInt n)) = true := by
  cases key with
  | number k =>
    rw [keyInt, posint] at h
    obtain ⟨⟨hEquals, hPos⟩, hn⟩ := Option.ite_none_right_eq_some.mp h
    have hInt : k.toInt64 castOutside = n := by
      have := Option.some.inj hn
      omega
    rw [hInt] at hEquals hPos
    exact ⟨by omega, hEquals⟩
  | _ => cases h

theorem keyInt_of_equal {key : Value} {n : Nat} (hPos : 1 ≤ n) (hLt : n < 2 ^ 53)
    (h : rawEqual key (.number (.ofInt n)) = true) : keyInt castOutside key = some n := by
  cases key with
  | number k =>
    obtain rfl := Double.eq_of_equals hPos hLt h
    have hInt := Double.toInt64_natCast castOutside hPos hLt
    rw [keyInt, posint, hInt, if_pos ⟨h, by omega⟩]
    rfl
  | _ => cases h

/-- Only strings and numbers are counted; the flags and the maximum are over all keys. -/
theorem census_some {entries : List (Value × Value)} {c c' : Census}
    (h : census castOutside entries c = some c') :
    c'.cnt = c.cnt + entries.length ∧
    (c'.allString = true ↔ c.allString = true ∧ ∀ e ∈ entries, isString e.1 = true) ∧
    (c'.allPosint = true ↔
      c.allPosint = true ∧ ∀ e ∈ entries, (keyInt castOutside e.1).isSome = true) ∧
    c.maxInt ≤ c'.maxInt ∧
    (∀ e ∈ entries, ∀ n, keyInt castOutside e.1 = some n → n ≤ c'.maxInt) ∧
    (c'.maxInt = c.maxInt ∨ ∃ e ∈ entries, keyInt castOutside e.1 = some c'.maxInt) := by
  induction entries generalizing c with
  | nil =>
    cases h
    simp
  | cons entry rest ih =>
    obtain ⟨key, value⟩ := entry
    rw [census] at h
    cases hKey : countKey castOutside c key with
    | none =>
      rw [hKey] at h
      cases h
    | some c₁ =>
      rw [hKey] at h
      obtain ⟨hCnt, hString, hPosint, hLe, hMax, hReached⟩ := ih h
      have hStep : c₁.cnt = c.cnt + 1 ∧
          (c₁.allString = true ↔ c.allString = true ∧ isString key = true) ∧
          (c₁.allPosint = true ↔
            c.allPosint = true ∧ (keyInt castOutside key).isSome = true) ∧
          c.maxInt ≤ c₁.maxInt ∧ (∀ n, keyInt castOutside key = some n → n ≤ c₁.maxInt) ∧
          (c₁.maxInt = c.maxInt ∨ keyInt castOutside key = some c₁.maxInt) := by
        cases key with
        | string s =>
          cases hKey
          simp [isString, keyInt]
        | number k =>
          rw [countKey] at hKey
          cases hInt : posint castOutside k with
          | none =>
            rw [hInt] at hKey
            cases hKey
            simp [isString, keyInt, hInt]
          | some ki =>
            rw [hInt] at hKey
            cases hKey
            simp only [isString, keyInt, hInt]
            refine ⟨trivial, by simp, by simp, ?_, ?_, ?_⟩
            · split <;> omega
            · rintro n ⟨⟩
              split <;> omega
            · split
              · exact .inr rfl
              · exact .inl rfl
        | _ => cases hKey
      obtain ⟨hCnt₁, hString₁, hPosint₁, hLe₁, hMax₁, hReached₁⟩ := hStep
      refine ⟨?_, ?_, ?_, Nat.le_trans hLe₁ hLe, ?_, ?_⟩
      · rw [hCnt, hCnt₁, List.length_cons]
        omega
      · rw [hString, hString₁, List.forall_mem_cons, and_assoc]
      · rw [hPosint, hPosint₁, List.forall_mem_cons, and_assoc]
      · intro e he n hn
        rcases List.mem_cons.mp he with rfl | he
        · exact Nat.le_trans (hMax₁ n hn) hLe
        · exact hMax e he n hn
      · rcases hReached with hSame | ⟨e, he, hn⟩
        · rcases hReached₁ with hSame₁ | hn
          · exact .inl (hSame.trans hSame₁)
          · exact .inr ⟨_, List.mem_cons_self, hSame ▸ hn⟩
        · exact .inr ⟨e, List.mem_cons_of_mem _ he, hn⟩

theorem census_none {entries : List (Value × Value)} {c : Census}
    (h : census castOutside entries c = none) :
    ∃ e ∈ entries, isString e.1 = false ∧ ∀ d, e.1 ≠ .number d := by
  induction entries generalizing c with
  | nil => cases h
  | cons entry rest ih =>
    obtain ⟨key, value⟩ := entry
    rw [census] at h
    cases hKey : countKey castOutside c key with
    | none =>
      refine ⟨_, List.mem_cons_self, ?_⟩
      cases key with
      | string s => cases hKey
      | number k =>
        rw [countKey] at hKey
        split at hKey <;> cases hKey
      | _ => exact ⟨rfl, fun d hd => by cases hd⟩
    | some c₁ =>
      rw [hKey] at h
      obtain ⟨e, he, hOther⟩ := ih h
      exact ⟨e, List.mem_cons_of_mem _ he, hOther⟩

def Table.IsSequence (t : Table) (n : Nat) : Prop :=
  ∀ key, t.rawget key ≠ .nil ↔
    ∃ i : Nat, 1 ≤ i ∧ i ≤ n ∧ rawEqual key (.number (.ofInt i)) = true

def Table.IsRecord (t : Table) : Prop := ∀ key, t.rawget key ≠ .nil → isString key = true

def keyInts (castOutside : Double → Int64) (t : Table) : List Nat :=
  t.entries.filterMap fun e => keyInt castOutside e.1

theorem mem_keyInts {t : Table} {n : Nat} :
    n ∈ keyInts castOutside t ↔ ∃ e ∈ t.entries, keyInt castOutside e.1 = some n :=
  List.mem_filterMap

theorem keyInts_nodup (t : Table) : (keyInts castOutside t).Nodup := by
  refine t.distinct.filterMap _ ?_
  intro a b hDistinct m hm n hn hSame
  subst hSame
  have hEqual := rawEqual_trans (keyInt_some hm).2 (rawEqual_symm (keyInt_some hn).2)
  rw [hDistinct] at hEqual
  cases hEqual

theorem length_keyInts {t : Table}
    (h : ∀ e ∈ t.entries, (keyInt castOutside e.1).isSome = true) :
    (keyInts castOutside t).length = t.entries.length := by
  rw [keyInts]
  generalize t.entries = entries at h
  induction entries with
  | nil => rfl
  | cons entry rest ih =>
    obtain ⟨hHead, hRest⟩ := List.forall_mem_cons.mp h
    obtain ⟨n, hn⟩ := Option.isSome_iff_exists.mp hHead
    have hCons : (entry :: rest).filterMap (fun e => keyInt castOutside e.1) =
        n :: rest.filterMap fun e => keyInt castOutside e.1 := List.filterMap_cons_some hn
    rw [hCons, List.length_cons, List.length_cons, ih hRest]

theorem isSequence_of_bounded (castOutside : Double → Int64) {t : Table}
    (hInts : ∀ e ∈ t.entries, (keyInt castOutside e.1).isSome = true)
    (hMax : ∀ e ∈ t.entries, ∀ n, keyInt castOutside e.1 = some n → n ≤ t.entries.length) :
    t.IsSequence t.entries.length := by
  have hSubset : keyInts castOutside t ⊆ List.range' 1 t.entries.length := by
    intro n hn
    obtain ⟨e, he, hInt⟩ := mem_keyInts.mp hn
    have := (keyInt_some hInt).1
    have := hMax e he n hInt
    exact List.mem_range'_1.mpr ⟨by omega, by omega⟩
  have hPerm : (keyInts castOutside t).Perm (List.range' 1 t.entries.length) := by
    refine (List.subperm_of_subset (keyInts_nodup t) hSubset).perm_of_length_le ?_
    rw [length_keyInts hInts, List.length_range']
  intro key
  rw [Table.rawget_ne_nil_iff]
  constructor
  · rintro ⟨e, he, hEqual⟩
    obtain ⟨n, hn⟩ := Option.isSome_iff_exists.mp (hInts e he)
    obtain ⟨hPos, hNumber⟩ := keyInt_some hn
    exact ⟨n, hPos, hMax e he n hn, rawEqual_trans (rawEqual_symm hEqual) hNumber⟩
  · rintro ⟨i, hPos, hLe, hEqual⟩
    have hMem := hPerm.mem_iff.mpr (List.mem_range'_1.mpr ⟨hPos, by omega⟩)
    obtain ⟨e, he, hInt⟩ := mem_keyInts.mp hMem
    exact ⟨e, he, rawEqual_trans (keyInt_some hInt).2 (rawEqual_symm hEqual)⟩

theorem rawEqual_ofInt {i : Nat} (hPos : 1 ≤ i) (hLt : i < 2 ^ 53) :
    rawEqual (.number (.ofInt i)) (.number (.ofInt i)) = true :=
  Double.equals_refl (Double.isNaN_of_isFinite (Double.ofInt_natCast hPos hLt).1)

theorem sequence_le {t : Table} {n m : Nat} (h : t.IsSequence n) (hm : m ≤ n)
    (hLt : m < 2 ^ 53) : m ≤ t.entries.length := by
  have castOutside : Double → Int64 := fun _ => 0
  have hSubset : List.range' 1 m ⊆ keyInts castOutside t := by
    intro i hi
    obtain ⟨hPos, hi⟩ := List.mem_range'_1.mp hi
    have hSelf := rawEqual_ofInt hPos (by omega)
    obtain ⟨e, he, hEqual⟩ :=
      Table.rawget_ne_nil_iff.mp ((h _).mpr ⟨i, hPos, by omega, hSelf⟩)
    exact mem_keyInts.mpr ⟨e, he, keyInt_of_equal hPos (by omega) hEqual⟩
  have hLength := (List.subperm_of_subset List.nodup_range' hSubset).length_le
  rw [List.length_range'] at hLength
  exact hLength.trans (List.length_filterMap_le _ _)

theorem sequence_length (castOutside : Double → Int64) {t : Table} {n : Nat} (h : t.IsSequence n) :
    n = t.entries.length ∧ ∀ e ∈ t.entries, ∃ i, i ≤ n ∧ keyInt castOutside e.1 = some i := by
  have hSmall := t.small
  have hn : n < 2 ^ 31 := by
    by_contra hNot
    have := sequence_le h (m := 2 ^ 31) (by omega) (by omega)
    omega
  have hInts : ∀ e ∈ t.entries, ∃ i, i ≤ n ∧ keyInt castOutside e.1 = some i := by
    intro e he
    have hNil : t.rawget e.1 ≠ .nil := by
      rw [Table.rawget_self he]
      exact t.present e he
    obtain ⟨i, hPos, hLe, hEqual⟩ := (h e.1).mp hNil
    exact ⟨i, hLe, keyInt_of_equal hPos (by omega) hEqual⟩
  refine ⟨Nat.le_antisymm (sequence_le h (Nat.le_refl n) (by omega)) ?_, hInts⟩
  have hSubset : keyInts castOutside t ⊆ List.range' 1 n := by
    intro i hi
    obtain ⟨e, he, hInt⟩ := mem_keyInts.mp hi
    obtain ⟨j, hLe, hInt'⟩ := hInts e he
    obtain rfl := Option.some.inj (hInt.symm.trans hInt')
    have := (keyInt_some hInt).1
    exact List.mem_range'_1.mpr ⟨by omega, by omega⟩
  have hLength := (List.subperm_of_subset (keyInts_nodup t) hSubset).length_le
  rw [List.length_range', length_keyInts] at hLength
  · exact hLength
  · intro e he
    obtain ⟨i, -, hInt⟩ := hInts e he
    rw [hInt]
    rfl

theorem classify_array {t : Table} (h : classifyTable castOutside t = .array) :
    t.IsSequence t.entries.length := by
  rw [classifyTable] at h
  cases hCensus : census castOutside t.entries ⟨0, true, true, 0⟩ with
  | none =>
    rw [hCensus] at h
    cases h
  | some c =>
    rw [hCensus] at h
    obtain ⟨hCnt, -, hPosint, -, hMax, -⟩ := census_some hCensus
    rw [Nat.zero_add] at hCnt
    dsimp only at h
    split at h
    · rename_i hZero
      have hEmpty := List.eq_nil_of_length_eq_zero (hCnt.symm.trans hZero)
      apply isSequence_of_bounded castOutside
      · rw [hEmpty]
        rintro e ⟨⟩
      · rw [hEmpty]
        rintro e ⟨⟩
    · split at h
      · cases h
      · split at h
        · rename_i hArray
          apply isSequence_of_bounded castOutside (hPosint.mp hArray.1).2
          rw [← hCnt, ← hArray.2]
          exact hMax
        · cases h

theorem classify_dict {t : Table} (h : classifyTable castOutside t = .dict) :
    ∀ e ∈ t.entries, isString e.1 = true := by
  rw [classifyTable] at h
  cases hCensus : census castOutside t.entries ⟨0, true, true, 0⟩ with
  | none =>
    rw [hCensus] at h
    cases h
  | some c =>
    rw [hCensus] at h
    obtain ⟨-, hString, -⟩ := census_some hCensus
    dsimp only at h
    split at h
    · cases h
    · split at h
      · rename_i hAll
        exact (hString.mp hAll).2
      · split at h <;> cases h

theorem classify_of_sequence {t : Table} {n : Nat} (h : t.IsSequence n) :
    classifyTable castOutside t = .array := by
  obtain ⟨hLength, hInts⟩ := sequence_length castOutside h
  rw [classifyTable]
  cases hCensus : census castOutside t.entries ⟨0, true, true, 0⟩ with
  | none =>
    obtain ⟨e, he, -, hNumber⟩ := census_none hCensus
    obtain ⟨i, -, hInt⟩ := hInts e he
    cases hKey : e.1 with
    | number d => exact absurd hKey (hNumber d)
    | _ => rw [hKey] at hInt; cases hInt
  | some c =>
    obtain ⟨hCnt, hString, hPosint, -, hMax, hReached⟩ := census_some hCensus
    rw [Nat.zero_add] at hCnt
    dsimp only
    split
    · rfl
    · rename_i hZero
      have hSome : 0 < t.entries.length := by omega
      have hNotString : ¬ c.allString = true := by
        intro hAll
        have hHead := List.getElem_mem hSome
        obtain ⟨i, -, hInt⟩ := hInts _ hHead
        have hStrings := (hString.mp hAll).2 _ hHead
        cases hKey : t.entries[0].1 with
        | string s => rw [hKey] at hInt; cases hInt
        | _ => rw [hKey] at hStrings; cases hStrings
      have hMaxInt : c.maxInt = c.cnt := by
        apply Nat.le_antisymm
        · rcases hReached with hNone | ⟨e, he, hInt⟩
          · rw [hNone]
            exact Nat.zero_le _
          · obtain ⟨i, hLe, hInt'⟩ := hInts e he
            obtain rfl := Option.some.inj (hInt.symm.trans hInt')
            omega
        · have hSmall := t.small
          have hSelf := rawEqual_ofInt (i := n) (by omega) (by omega)
          obtain ⟨e, he, hEqual⟩ :=
            Table.rawget_ne_nil_iff.mp ((h _).mpr ⟨n, by omega, Nat.le_refl n, hSelf⟩)
          have := hMax e he n (keyInt_of_equal (by omega) (by omega) hEqual)
          omega
      have hAll : c.allPosint = true := by
        refine hPosint.mpr ⟨rfl, fun e he => ?_⟩
        obtain ⟨i, -, hInt⟩ := hInts e he
        rw [hInt]
        rfl
      rw [if_neg hNotString, if_pos ⟨hAll, hMaxInt⟩]

theorem classify_of_record {t : Table} (h : t.IsRecord) :
    classifyTable castOutside t ≠ .invalid := by
  have hStrings : ∀ e ∈ t.entries, isString e.1 = true := by
    intro e he
    apply h
    rw [Table.rawget_self he]
    exact t.present e he
  rw [classifyTable]
  cases hCensus : census castOutside t.entries ⟨0, true, true, 0⟩ with
  | none =>
    obtain ⟨e, he, hOther, -⟩ := census_none hCensus
    rw [hStrings e he] at hOther
    cases hOther
  | some c =>
    obtain ⟨-, hString, -⟩ := census_some hCensus
    dsimp only
    split
    · rintro ⟨⟩
    · rw [if_pos (hString.mpr ⟨rfl, hStrings⟩)]
      rintro ⟨⟩

theorem classify_invalid_iff {t : Table} :
    classifyTable castOutside t = .invalid ↔ ¬ ((∃ n, t.IsSequence n) ∨ t.IsRecord) := by
  constructor
  · rintro hInvalid (⟨n, hSequence⟩ | hRecord)
    · rw [classify_of_sequence hSequence] at hInvalid
      cases hInvalid
    · exact classify_of_record hRecord hInvalid
  · intro hNeither
    cases hKind : classifyTable castOutside t with
    | invalid => rfl
    | array => exact absurd (.inl ⟨_, classify_array hKind⟩) hNeither
    | dict =>
      refine absurd (.inr fun key hKey => ?_) hNeither
      obtain ⟨e, he, hEqual⟩ := Table.rawget_ne_nil_iff.mp hKey
      have hString := classify_dict hKind e he
      cases hSelf : e.1 with
      | string s =>
        rw [hSelf] at hEqual
        rw [rawEqual_string (rawEqual_symm hEqual)]
        rfl
      | _ => rw [hSelf] at hString; cases hString

end Census

end Mua.Lua
