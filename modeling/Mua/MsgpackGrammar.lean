import Mathlib.Data.List.Forall2
import Mua.Msgpack

/-! # The reference grammar of msgpack

The formats of this codec, minimal or not, as relations between a value and its
bytes. `Encodes room` allows `room` containers inside one another. `Faults` is a
left-to-right read that meets what no value can start with, or one container too
many, while every header so far fits in the bytes after it.
-/

namespace Mua.Msgpack

def beValue (p : Bytes) : Nat := p.foldl (fun v b => 256 * v + b.toNat) 0

def signExtend (p : Bytes) : Int := Int.bmod (beValue p) (256 ^ p.length)

def unsignedObject (n : Nat) : Object :=
  if n ≤ int64Max then .integer (Int64.ofNat n) else .float (Double.ofInt n)

def uintFormats : List (Byte × Nat) := [(0xcc, 1), (0xcd, 2), (0xce, 4), (0xcf, 8)]

def intFormats : List (Byte × Nat) := [(0xd0, 1), (0xd1, 2), (0xd2, 4), (0xd3, 8)]

/-- Headers that announce a count: small ones in the format byte, wide ones after it. -/
structure Family where
  fixBase : Nat
  fixCount : Nat
  wide : List (Byte × Nat)

def strFamily : Family := ⟨0xa0, 32, [(0xd9, 1), (0xda, 2), (0xdb, 4)]⟩

def binFamily : Family := ⟨0, 0, [(0xc4, 1), (0xc5, 2), (0xc6, 4)]⟩

def arrayFamily : Family := ⟨0x90, 16, [(0xdc, 2), (0xdd, 4)]⟩

def mapFamily : Family := ⟨0x80, 16, [(0xde, 2), (0xdf, 4)]⟩

inductive Family.Head (family : Family) : Nat → Bytes → Prop
  | fix {b : Byte} (hLow : family.fixBase ≤ b.toNat)
    (hHigh : b.toNat < family.fixBase + family.fixCount) : Head family (b.toNat - family.fixBase) [b]
  | wide {tag : Byte} {p : Bytes} (h : (tag, p.length) ∈ family.wide) :
    Head family (beValue p) (tag :: p)

inductive Family.Blob (family : Family) : Bytes → Bytes → Prop
  | mk {s head : Bytes} (h : family.Head s.length head) : Blob family s (head ++ s)

inductive Scalar : Object → Bytes → Prop
  | nil : Scalar .nil [0xc0]
  | no : Scalar (.boolean false) [0xc2]
  | yes : Scalar (.boolean true) [0xc3]
  | positive {b : Byte} (h : b.toNat ≤ 0x7f) : Scalar (.integer (Int64.ofNat b.toNat)) [b]
  | negative {b : Byte} (h : 0xe0 ≤ b.toNat) : Scalar (.integer (Int64.ofInt (b.toNat - 256))) [b]
  | unsigned {tag : Byte} {p : Bytes} (h : (tag, p.length) ∈ uintFormats) :
    Scalar (unsignedObject (beValue p)) (tag :: p)
  | signed {tag : Byte} {p : Bytes} (h : (tag, p.length) ∈ intFormats) :
    Scalar (.integer (Int64.ofInt (signExtend p))) (tag :: p)
  | float32 {p : Bytes} (h : p.length = 4) :
    Scalar (.float (Double.ofFloat32 (UInt32.ofNat (beValue p)))) (0xca :: p)
  | float64 {p : Bytes} (h : p.length = 8) :
    Scalar (.float ⟨UInt64.ofNat (beValue p)⟩) (0xcb :: p)
  | str {s b : Bytes} (h : strFamily.Blob s b) : Scalar (.string s) b
  | bin {s b : Bytes} (h : binFamily.Blob s b) : Scalar (.string s) b

inductive Pair (Inner : Object → Bytes → Prop) : Bytes × Object → Bytes → Prop
  | mk {key k b : Bytes} {value : Object} (hKey : strFamily.Blob key k) (hValue : Inner value b) :
    Pair Inner (key, value) (k ++ b)

inductive Container (Inner : Object → Bytes → Prop) : Object → Bytes → Prop
  | array {items : List Object} {chunks : List Bytes} {head : Bytes}
    (hHead : arrayFamily.Head items.length head) (hItems : List.Forall₂ Inner items chunks) :
    Container Inner (.array items) (head ++ chunks.flatten)
  | dict {items : List (Bytes × Object)} {chunks : List Bytes} {head : Bytes}
    (hHead : mapFamily.Head items.length head)
    (hItems : List.Forall₂ (Pair Inner) items chunks) :
    Container Inner (.dict items) (head ++ chunks.flatten)

/-- The bytes are an encoding of the value, with at most `room` nested containers. -/
def Encodes : Nat → Object → Bytes → Prop
  | 0, v, b => Scalar v b
  | room + 1, v, b => Scalar v b ∨ Container (Encodes room) v b

def NoValueStarts (b : Byte) : Prop := ∀ room v rest, ¬ Encodes room v (b :: rest)

def NoKeyStarts (b : Byte) : Prop := ∀ key rest, ¬ strFamily.Blob key (b :: rest)

/-- What a left-to-right read of `buf` as one value meets first: the fault and its error. The
bytes after a container's header are those of its complete children, then `rest`. -/
inductive Faults : Nat → Bytes → Error → Prop
  | start {room : Nat} {b : Byte} (rest : Bytes) (h : NoValueStarts b) :
    Faults room (b :: rest) (unsupportedType b)
  | deep {n : Nat} {head rest : Bytes} (hHead : arrayFamily.Head n head ∨ mapFamily.Head n head)
    (hFits : n ≤ rest.length) : Faults 0 (head ++ rest) msgpackNestingExceeded
  | item {room n : Nat} {head rest : Bytes} {items : List Object} {chunks : List Bytes} {err : Error}
    (hHead : arrayFamily.Head n head) (hFits : n ≤ (chunks.flatten ++ rest).length)
    (hItems : List.Forall₂ (Encodes room) items chunks) (hMore : items.length < n)
    (hFault : Faults room rest err) : Faults (room + 1) (head ++ (chunks.flatten ++ rest)) err
  | key {room n : Nat} {head rest : Bytes} {items : List (Bytes × Object)} {chunks : List Bytes}
    {b : Byte} (hHead : mapFamily.Head n head) (hFits : n ≤ (chunks.flatten ++ b :: rest).length)
    (hItems : List.Forall₂ (Pair (Encodes room)) items chunks) (hMore : items.length < n)
    (hKey : NoKeyStarts b) : Faults (room + 1) (head ++ (chunks.flatten ++ b :: rest)) mapKeyNotString
  | value {room n : Nat} {head rest key k : Bytes} {items : List (Bytes × Object)}
    {chunks : List Bytes} {err : Error} (hHead : mapFamily.Head n head)
    (hFits : n ≤ (chunks.flatten ++ (k ++ rest)).length)
    (hItems : List.Forall₂ (Pair (Encodes room)) items chunks) (hMore : items.length < n)
    (hKey : strFamily.Blob key k) (hFault : Faults room rest err) :
    Faults (room + 1) (head ++ (chunks.flatten ++ (k ++ rest))) err

theorem Faults.append {room : Nat} {buf : Bytes} {err : Error} (h : Faults room buf err)
    (s : Bytes) : Faults room (buf ++ s) err := by
  induction h with
  | start rest h => exact .start (rest ++ s) h
  | deep hHead hFits =>
    rw [List.append_assoc]
    exact .deep hHead (by simp; omega)
  | item hHead hFits hItems hMore hFault ih =>
    rw [List.append_assoc, List.append_assoc]
    refine .item hHead ?_ hItems hMore ih
    simp only [List.length_append] at hFits ⊢
    omega
  | key hHead hFits hItems hMore hKey =>
    rw [List.append_assoc, List.append_assoc, List.cons_append]
    refine .key hHead ?_ hItems hMore hKey
    simp only [List.length_append, List.length_cons] at hFits ⊢
    omega
  | value hHead hFits hItems hMore hKey hFault ih =>
    rw [List.append_assoc, List.append_assoc, List.append_assoc]
    refine .value hHead ?_ hItems hMore hKey ih
    simp only [List.length_append] at hFits ⊢
    omega

def unsupportedStarts : List Byte := [0xc1, 0xc7, 0xc8, 0xc9, 0xd4, 0xd5, 0xd6, 0xd7, 0xd8]

theorem Family.Head.ne_nil {family : Family} {n : Nat} {head : Bytes} (h : family.Head n head) :
    head ≠ [] := by
  cases h <;> exact List.cons_ne_nil _ _

theorem Family.Head.first {family : Family} {n : Nat} {b : Byte} {rest : Bytes}
    (h : family.Head n (b :: rest)) :
    (family.fixBase ≤ b.toNat ∧ b.toNat < family.fixBase + family.fixCount) ∨
      b ∈ family.wide.map (·.1) := by
  cases h with
  | fix hLow hHigh => exact .inl ⟨hLow, hHigh⟩
  | wide h => exact .inr (List.mem_map.mpr ⟨_, h, rfl⟩)

theorem Family.Blob.split {family : Family} {s b : Bytes} (h : family.Blob s b) :
    ∃ head, family.Head s.length head ∧ b = head ++ s := by
  cases h with
  | mk h => exact ⟨_, h, rfl⟩

theorem Family.Blob.first {family : Family} {s : Bytes} {b : Byte} {rest : Bytes}
    (h : family.Blob s (b :: rest)) :
    (family.fixBase ≤ b.toNat ∧ b.toNat < family.fixBase + family.fixCount) ∨
      b ∈ family.wide.map (·.1) := by
  obtain ⟨head, hHead, hBuf⟩ := h.split
  cases head with
  | nil => exact absurd rfl hHead.ne_nil
  | cons b' head =>
    cases hBuf
    exact hHead.first

theorem uintFormats_first {tag : Byte} {n : Nat} (h : (tag, n) ∈ uintFormats) :
    0xcc ≤ tag.toNat ∧ tag.toNat ≤ 0xcf := by
  simp only [uintFormats, List.mem_cons, List.not_mem_nil, or_false, Prod.mk.injEq] at h
  rcases h with ⟨rfl, -⟩ | ⟨rfl, -⟩ | ⟨rfl, -⟩ | ⟨rfl, -⟩ <;> decide

theorem intFormats_first {tag : Byte} {n : Nat} (h : (tag, n) ∈ intFormats) :
    0xd0 ≤ tag.toNat ∧ tag.toNat ≤ 0xd3 := by
  simp only [intFormats, List.mem_cons, List.not_mem_nil, or_false, Prod.mk.injEq] at h
  rcases h with ⟨rfl, -⟩ | ⟨rfl, -⟩ | ⟨rfl, -⟩ | ⟨rfl, -⟩ <;> decide

theorem strFamily_first {s rest : Bytes} {b : Byte} (h : strFamily.Blob s (b :: rest)) :
    (0xa0 ≤ b.toNat ∧ b.toNat ≤ 0xbf) ∨ (0xd9 ≤ b.toNat ∧ b.toNat ≤ 0xdb) := by
  rcases h.first with h | h
  · simp only [strFamily] at h
    omega
  · simp only [strFamily, List.map_cons, List.map_nil, List.mem_cons, List.not_mem_nil,
      or_false] at h
    rcases h with rfl | rfl | rfl <;> decide

theorem binFamily_first {s rest : Bytes} {b : Byte} (h : binFamily.Blob s (b :: rest)) :
    0xc4 ≤ b.toNat ∧ b.toNat ≤ 0xc6 := by
  rcases h.first with h | h
  · simp only [binFamily] at h
    omega
  · simp only [binFamily, List.map_cons, List.map_nil, List.mem_cons, List.not_mem_nil,
      or_false] at h
    rcases h with rfl | rfl | rfl <;> decide

theorem containerFamily_first {n : Nat} {rest : Bytes} {b : Byte}
    (h : arrayFamily.Head n (b :: rest) ∨ mapFamily.Head n (b :: rest)) :
    (0x80 ≤ b.toNat ∧ b.toNat ≤ 0x9f) ∨ (0xdc ≤ b.toNat ∧ b.toNat ≤ 0xdf) := by
  rcases h with h | h
  · rcases h.first with h | h
    · simp only [arrayFamily] at h
      omega
    · simp only [arrayFamily, List.map_cons, List.map_nil, List.mem_cons, List.not_mem_nil,
        or_false] at h
      rcases h with rfl | rfl <;> decide
  · rcases h.first with h | h
    · simp only [mapFamily] at h
      omega
    · simp only [mapFamily, List.map_cons, List.map_nil, List.mem_cons, List.not_mem_nil,
        or_false] at h
      rcases h with rfl | rfl <;> decide

theorem scalar_first {v : Object} {rest : Bytes} {b : Byte} (h : Scalar v (b :: rest)) :
    b.toNat ≤ 0x7f ∨ (0xa0 ≤ b.toNat ∧ b.toNat ≤ 0xc0) ∨ (0xc2 ≤ b.toNat ∧ b.toNat ≤ 0xc6) ∨
      (0xca ≤ b.toNat ∧ b.toNat ≤ 0xd3) ∨ (0xd9 ≤ b.toNat ∧ b.toNat ≤ 0xdb) ∨ 0xe0 ≤ b.toNat := by
  generalize hBuf : b :: rest = buf at h
  cases h with
  | nil | no | yes | float32 | float64 =>
    cases hBuf
    decide
  | positive h | negative h =>
    cases hBuf
    omega
  | unsigned h =>
    cases hBuf
    have := uintFormats_first h
    omega
  | signed h =>
    cases hBuf
    have := intFormats_first h
    omega
  | str h =>
    subst hBuf
    have := strFamily_first h
    omega
  | bin h =>
    subst hBuf
    have := binFamily_first h
    omega

theorem container_first {Inner : Object → Bytes → Prop} {v : Object} {rest : Bytes} {b : Byte}
    (h : Container Inner v (b :: rest)) :
    (0x80 ≤ b.toNat ∧ b.toNat ≤ 0x9f) ∨ (0xdc ≤ b.toNat ∧ b.toNat ≤ 0xdf) := by
  generalize hBuf : b :: rest = buf at h
  cases h with
  | array hHead hItems =>
    rename_i head
    cases head with
    | nil => exact absurd rfl hHead.ne_nil
    | cons b' head =>
      cases hBuf
      exact containerFamily_first (.inl hHead)
  | dict hHead hItems =>
    rename_i head
    cases head with
    | nil => exact absurd rfl hHead.ne_nil
    | cons b' head =>
      cases hBuf
      exact containerFamily_first (.inr hHead)

theorem noValueStarts_of_mem {b : Byte} (h : b ∈ unsupportedStarts) : NoValueStarts b := by
  have hByte : b.toNat = 0xc1 ∨ (0xc7 ≤ b.toNat ∧ b.toNat ≤ 0xc9) ∨
      (0xd4 ≤ b.toNat ∧ b.toNat ≤ 0xd8) := by
    simp only [unsupportedStarts, List.mem_cons, List.not_mem_nil, or_false] at h
    rcases h with rfl | rfl | rfl | rfl | rfl | rfl | rfl | rfl | rfl <;> decide
  intro room v rest hEnc
  cases room with
  | zero =>
    have := scalar_first hEnc
    omega
  | succ room =>
    rcases hEnc with hEnc | hEnc
    · have := scalar_first hEnc
      omega
    · have := container_first hEnc
      omega

end Mua.Msgpack
