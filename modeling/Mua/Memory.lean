import Mathlib.Algebra.Order.Ring.Int
import Mathlib.Data.List.TakeWhile

/-! # Bytes, C strings, errors and the capped buffer

A `char *` that is read as a C string ends at its first NUL; `cstr` is that
reading. `Buf max` is the growable buffer of memory.c with its hard cap in the
type: a buffer longer than its cap cannot be built.
-/

namespace Mua

abbrev Byte := UInt8

abbrev Bytes := List Byte

def ascii (s : String) : Bytes := s.toList.map fun c => UInt8.ofNat c.toNat

theorem ascii_ofList (l : List Char) :
    ascii (String.ofList l) = l.map fun c => UInt8.ofNat c.toNat := by
  rw [ascii, String.toList_ofList]

def cstr (s : Bytes) : Bytes := s.takeWhile fun b => b != 0

def NulFree (s : Bytes) : Prop := (0 : Byte) ∉ s

instance (s : Bytes) : Decidable (NulFree s) := inferInstanceAs (Decidable ((0 : Byte) ∉ s))

theorem nulFree_nil : NulFree [] := List.not_mem_nil

theorem nulFree_append {s t : Bytes} : NulFree (s ++ t) ↔ NulFree s ∧ NulFree t := by
  simp [NulFree, not_or]

theorem nulFree_cstr (s : Bytes) : NulFree (cstr s) := by
  intro h
  have h := List.mem_takeWhile_imp h
  simp at h

theorem cstr_of_nulFree {s : Bytes} (h : NulFree s) : cstr s = s := by
  rw [cstr, List.takeWhile_eq_self_iff]
  intro b hb
  have : b ≠ 0 := fun h0 => h (h0 ▸ hb)
  simpa using this

theorem cstr_cons {b : Byte} (hb : b ≠ 0) (s : Bytes) : cstr (b :: s) = b :: cstr s :=
  List.takeWhile_cons_of_pos (by simpa using hb)

theorem cstr_append_nul {s : Bytes} (h : NulFree s) (rest : Bytes) : cstr (s ++ 0 :: rest) = s := by
  induction s with
  | nil => exact List.takeWhile_cons_of_neg (by decide)
  | cons b s ih =>
    have hb : b ≠ 0 := fun h0 => h (h0 ▸ List.mem_cons_self)
    rw [List.cons_append, cstr_cons hb, ih fun hMem => h (List.mem_cons_of_mem b hMem)]

@[simp] theorem cstr_cstr (s : Bytes) : cstr (cstr s) = cstr s := cstr_of_nulFree (nulFree_cstr s)

/-- A `char[cap]` that holds a C string. -/
@[ext] structure FixedStr (cap : Nat) where
  data : Bytes
  fits : data.length < cap
  nulFree : NulFree data

def FixedStr.clear {cap : Nat} (s : FixedStr cap) : FixedStr cap :=
  ⟨[], (Nat.zero_le _).trans_lt s.fits, nulFree_nil⟩

/-- The copy of a C string with its NUL, when there is room for both. -/
def FixedStr.copy? (cap : Nat) (s : Bytes) : Option (FixedStr cap) :=
  if h : (cstr s).length < cap then some ⟨cstr s, h, nulFree_cstr s⟩ else none

/-- The first `cap` bytes, then a NUL. -/
def FixedStr.truncate (cap : Nat) (s : Bytes) : FixedStr (cap + 1) where
  data := cstr (s.take cap)
  fits := by
    have h : (cstr (s.take cap)).length ≤ (s.take cap).length :=
      (List.takeWhile_sublist _).length_le
    exact Nat.lt_succ_of_le (h.trans (List.length_take_le cap s))
  nulFree := nulFree_cstr _

@[simp] theorem FixedStr.truncate_data (cap : Nat) (s : Bytes) :
    (FixedStr.truncate cap s).data = cstr (s.take cap) := rfl

inductive ErrorType
  | exception
  | validation
  deriving DecidableEq, Repr

structure Error where
  type : ErrorType
  msg : Bytes
  deriving DecidableEq, Repr

@[ext] structure Buf (max : Nat) where
  data : Bytes
  fits : data.length ≤ max

instance {max : Nat} : DecidableEq (Buf max) := fun a b =>
  decidable_of_iff (a.data = b.data) Buf.ext_iff.symm

def bufInit (max : Nat) : Buf max := ⟨[], Nat.zero_le max⟩

def bufReset {max : Nat} (_ : Buf max) : Buf max := ⟨[], Nat.zero_le max⟩

/-- An append that would pass the cap is refused and changes nothing. -/
def bufAppend {max : Nat} (buf : Buf max) (bytes : Bytes) : Option (Buf max) :=
  if h : buf.data.length + bytes.length ≤ max then
    some ⟨buf.data ++ bytes, by rw [List.length_append]; exact h⟩
  else none

variable {max : Nat}

@[simp] theorem bufInit_data : (bufInit max).data = [] := rfl

@[simp] theorem bufReset_data (buf : Buf max) : (bufReset buf).data = [] := rfl

theorem bufReset_eq_init (buf : Buf max) : bufReset buf = bufInit max := rfl

theorem bufAppend_eq_some {buf buf' : Buf max} {bytes : Bytes} :
    bufAppend buf bytes = some buf' ↔ buf'.data = buf.data ++ bytes := by
  unfold bufAppend
  constructor
  · intro h
    split at h
    · rw [← Option.some.inj h]
    · cases h
  · intro h
    have hle : buf.data.length + bytes.length ≤ max := by
      rw [← List.length_append, ← h]
      exact buf'.fits
    rw [dif_pos hle]
    exact congrArg some (Buf.ext h.symm)

theorem bufAppend_eq_none {buf : Buf max} {bytes : Bytes} :
    bufAppend buf bytes = none ↔ max < buf.data.length + bytes.length := by
  unfold bufAppend
  split
  · rename_i h
    simpa using h
  · rename_i h
    simpa using h

@[simp] theorem bufAppend_nil (buf : Buf max) : bufAppend buf [] = some buf := by
  rw [bufAppend_eq_some, List.append_nil]

theorem bufAppend_append (buf : Buf max) (s t : Bytes) :
    bufAppend buf (s ++ t) = (bufAppend buf s).bind fun b => bufAppend b t := by
  cases h : bufAppend buf s with
  | none =>
    rw [bufAppend_eq_none] at h
    rw [Option.bind_none, bufAppend_eq_none, List.length_append]
    omega
  | some b =>
    rw [bufAppend_eq_some] at h
    rw [Option.bind_some]
    unfold bufAppend
    simp only [h, List.length_append, List.append_assoc, Nat.add_assoc]

end Mua
