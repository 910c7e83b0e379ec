import Mathlib.Data.List.Nodup

/-! # Intrusive singly linked lists

The link is a field of the nodes, here a function `next`. A list is its head and
the links; `Chain` says which nodes it has, in order. A change of links outside a
chain leaves the chain alone.
-/

namespace Linked

variable {ι : Type*} {next next' : ι → Option ι} {head : Option ι} {i p req : ι}
  {l l' pre post : List ι}

/-- From `head` along the links come the nodes `l`, then the end. -/
def Chain (next : ι → Option ι) (head : Option ι) : List ι → Prop
  | [] => head = none
  | i :: l => head = some i ∧ Chain next (next i) l

@[simp] theorem chain_nil : Chain next head [] ↔ head = none := Iff.rfl

theorem Chain.head_eq (h : Chain next head l) : head = l.head? := by
  cases l with
  | nil => exact h
  | cons i l => exact h.1

theorem Chain.congr (h : Chain next head l) (hSame : ∀ i ∈ l, next' i = next i) :
    Chain next' head l := by
  induction l generalizing head with
  | nil => exact h
  | cons i l ih =>
    refine ⟨h.1, ?_⟩
    rw [hSame i List.mem_cons_self]
    exact ih h.2 fun j hj => hSame j (List.mem_cons_of_mem i hj)

theorem Chain.push (h : Chain next head l) (hFresh : i ∉ l) (hNext : next' i = head)
    (hSame : ∀ j, j ≠ i → next' j = next j) : Chain next' (some i) (i :: l) := by
  refine ⟨rfl, ?_⟩
  rw [hNext]
  exact h.congr fun j hj => hSame j fun hji => hFresh (hji ▸ hj)

theorem Chain.after (h : Chain next head (pre ++ i :: post)) : Chain next (next i) post := by
  induction pre generalizing head with
  | nil => exact h.2
  | cons j pre ih => exact ih h.2

theorem Chain.head_ne (h : Chain next head (pre ++ p :: req :: post))
    (hNodup : (pre ++ p :: req :: post).Nodup) : head ≠ some req := by
  rw [h.head_eq]
  cases pre with
  | nil =>
    rintro ⟨⟩
    exact (List.nodup_cons.mp hNodup).1 List.mem_cons_self
  | cons k pre =>
    rintro ⟨⟩
    have hMem : req ∈ pre ++ p :: req :: post := by simp
    exact (List.nodup_cons.mp hNodup).1 hMem

/-- From `prev` on, within `fuel` links, the node before `req`, or the end. -/
def seek [DecidableEq ι] (next : ι → Option ι) (req : ι) : Nat → Option ι → Option ι
  | 0, prev => prev
  | _ + 1, none => none
  | fuel + 1, some prev =>
    if next prev = some req then some prev else seek next req fuel (next prev)

theorem Chain.seek_eq [DecidableEq ι] (h : Chain next head (pre ++ p :: req :: post))
    (hNodup : (pre ++ p :: req :: post).Nodup) {fuel : Nat} (hFuel : pre.length ≤ fuel) :
    seek next req fuel head = some p := by
  induction pre generalizing head fuel with
  | nil =>
    rw [h.1]
    cases fuel with
    | zero => rfl
    | succ fuel => rw [seek, if_pos h.2.1]
  | cons j pre ih =>
    obtain ⟨fuel, rfl⟩ : ∃ n, fuel = n + 1 := Nat.exists_eq_add_one.mpr (Nat.zero_lt_of_lt hFuel)
    have hRest := (List.nodup_cons.mp hNodup).2
    have hSkip : next j ≠ some req := h.2.head_ne hRest
    rw [h.1, seek, if_neg hSkip]
    exact ih h.2 hRest (Nat.le_of_succ_le_succ hFuel)

theorem Chain.unlink (h : Chain next head (pre ++ p :: req :: post))
    (hNodup : (pre ++ p :: req :: post).Nodup) (hNext : next' p = next req)
    (hSame : ∀ i, i ≠ p → next' i = next i) : Chain next' head (pre ++ p :: post) := by
  induction pre generalizing head with
  | nil =>
    refine ⟨h.1, ?_⟩
    rw [hNext]
    have hPost := h.2.2
    apply hPost.congr
    intro i hi
    apply hSame
    rintro rfl
    exact (List.nodup_cons.mp hNodup).1 (List.mem_cons_of_mem req hi)
  | cons j pre ih =>
    have hNodup := List.nodup_cons.mp hNodup
    refine ⟨h.1, ?_⟩
    rw [hSame j fun hjp => hNodup.1 (hjp ▸ List.mem_append_right pre List.mem_cons_self)]
    exact ih h.2 hNodup.2

end Linked
