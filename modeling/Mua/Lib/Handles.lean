import Mathlib.Data.Fintype.Card

/-! # Handles with asynchronous closing

An owner registers handles with an event loop. A close is asked for first and
answered later, by a callback of its own; the owner counts the answers and may
go once there are as many as handles it has registered.
-/

namespace Handles

structure Handle where
  registered : Bool
  closes : Nat
  closed : Bool
  deriving DecidableEq, Repr

def Handle.fresh : Handle := ⟨false, 0, false⟩

/-- It was asked to close: no event of it is delivered any more. -/
def Handle.closing (h : Handle) : Bool := h.closes != 0

def Handle.pending (h : Handle) : Bool := h.closing && !h.closed

structure Handle.Sound (h : Handle) : Prop where
  once : h.closes ≤ 1
  registered : h.closing = true → h.registered = true
  closed : h.closed = true → h.closing = true

instance (h : Handle) : Decidable h.Sound :=
  decidable_of_iff (h.closes ≤ 1 ∧ (h.closing = true → h.registered = true) ∧
      (h.closed = true → h.closing = true))
    ⟨fun ⟨hOnce, hRegistered, hClosed⟩ => ⟨hOnce, hRegistered, hClosed⟩,
      fun hSound => ⟨hSound.once, hSound.registered, hSound.closed⟩⟩

theorem Handle.closing_iff {h : Handle} : h.closing = true ↔ h.closes ≠ 0 := bne_iff_ne

theorem Handle.not_closing_iff {h : Handle} : h.closing = false ↔ h.closes = 0 := by
  rw [← Bool.not_eq_true, closing_iff, not_ne_iff]

theorem Handle.sound_fresh : fresh.Sound := ⟨Nat.zero_le _, nofun, nofun⟩

variable {ι : Type*}

abbrev Table (ι : Type*) := ι → Handle

namespace Table

variable {t t' : Table ι} {i j : ι}

section Change

variable [DecidableEq ι]

def modify (t : Table ι) (f : Handle → Handle) (i : ι) : Table ι :=
  fun j => if j = i then f (t j) else t j

def register (t : Table ι) (i : ι) : Table ι := t.modify (fun h => { h with registered := true }) i

def close (t : Table ι) (i : ι) : Table ι := t.modify (fun h => { h with closes := h.closes + 1 }) i

def answer (t : Table ι) (i : ι) : Table ι := t.modify (fun h => { h with closed := true }) i

theorem modify_field {α : Type*} {f : Handle → Handle} (field : Handle → α)
    (h : ∀ x, field (f x) = field x) : field (t.modify f i j) = field (t j) := by
  rw [modify]
  split
  · exact h (t j)
  · rfl

@[simp] theorem close_registered : (t.close i j).registered = (t j).registered :=
  modify_field Handle.registered fun _ => rfl

@[simp] theorem close_closes :
    (t.close i j).closes = (t j).closes + if j = i then 1 else 0 := by
  rw [close, modify]
  split <;> simp

@[simp] theorem close_closed : (t.close i j).closed = (t j).closed :=
  modify_field Handle.closed fun _ => rfl

@[simp] theorem answer_registered : (t.answer i j).registered = (t j).registered :=
  modify_field Handle.registered fun _ => rfl

@[simp] theorem answer_closes : (t.answer i j).closes = (t j).closes :=
  modify_field Handle.closes fun _ => rfl

@[simp] theorem answer_closed :
    (t.answer i j).closed = (decide (j = i) || (t j).closed) := by
  rw [answer, modify]
  split <;> simp [*]

theorem sound_answer (hSound : ∀ i, (t i).Sound) (hClosing : (t i).closing = true) (j : ι) :
    (t.answer i j).Sound := by
  constructor
  · rw [answer_closes]
    exact (hSound j).once
  · intro h
    rw [answer_registered]
    apply (hSound j).registered
    rwa [Handle.closing_iff, answer_closes, ← Handle.closing_iff] at h
  · intro h
    rw [Handle.closing_iff, answer_closes, ← Handle.closing_iff]
    rw [answer_closed, Bool.or_eq_true, decide_eq_true_iff] at h
    rcases h with rfl | hClosed
    · exact hClosing
    · exact (hSound j).closed hClosed

end Change

variable [Fintype ι]

def registered (t : Table ι) : Finset ι := Finset.univ.filter fun i => (t i).registered = true

def closed (t : Table ι) : Finset ι := Finset.univ.filter fun i => (t i).closed = true

@[simp] theorem mem_registered : i ∈ t.registered ↔ (t i).registered = true := by simp [registered]

@[simp] theorem mem_closed : i ∈ t.closed ↔ (t i).closed = true := by simp [closed]

theorem registered_congr (h : ∀ i, (t' i).registered = (t i).registered) :
    t'.registered = t.registered := by
  ext i
  rw [mem_registered, mem_registered, h i]

theorem closed_congr (h : ∀ i, (t' i).closed = (t i).closed) : t'.closed = t.closed := by
  ext i
  rw [mem_closed, mem_closed, h i]

theorem closed_subset (hSound : ∀ i, (t i).Sound) : t.closed ⊆ t.registered := by
  intro i hi
  rw [mem_closed] at hi
  exact mem_registered.mpr ((hSound i).registered ((hSound i).closed hi))

theorem card_answer [DecidableEq ι] (h : (t i).closed = false) :
    (t.answer i).closed.card = t.closed.card + 1 := by
  have hInsert : (t.answer i).closed = insert i t.closed := by
    ext j
    rw [mem_closed, answer_closed, Bool.or_eq_true, decide_eq_true_iff, Finset.mem_insert,
      mem_closed]
  rw [hInsert, Finset.card_insert_of_notMem]
  simp [h]

theorem card_closed_lt (hSound : ∀ i, (t i).Sound) :
    t.closed.card < t.registered.card ↔ ∃ i, (t i).registered = true ∧ (t i).closed = false := by
  have hSubset := closed_subset hSound
  constructor
  · intro hLt
    obtain ⟨i, hi, hOut⟩ := Finset.exists_mem_notMem_of_card_lt_card hLt
    exact ⟨i, mem_registered.mp hi, Bool.eq_false_iff.mpr fun h => hOut (mem_closed.mpr h)⟩
  · rintro ⟨i, hRegistered, hClosed⟩
    apply Finset.card_lt_card
    refine ⟨hSubset, fun h => ?_⟩
    have hMem := h (mem_registered.mpr hRegistered)
    rw [mem_closed, hClosed] at hMem
    cases hMem

end Table

end Handles
