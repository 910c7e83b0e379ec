import Mathlib.Data.List.Sort
import Mathlib.Order.Bounds.Basic

/-! # Where a word occurs in a text

The occurrences of a word are the positions at which the text goes on with it, also
those that overlap. A search from left to right has at each position the occurrences
from there on before it.
-/

namespace Search

variable {α : Type*}

/-- The text goes on with the word at `p`. -/
def Occurs (word text : List α) (p : Nat) : Prop := word <+: text.drop p

variable {word text : List α} {p q : Nat}

theorem Occurs.fits (h : Occurs word text p) (hWord : word ≠ []) :
    p + word.length ≤ text.length := by
  have hLength := h.length_le
  have hPos := List.length_pos_iff.mpr hWord
  rw [List.length_drop] at hLength
  omega

theorem Occurs.head {a : α} {rest : List α} (h : Occurs (a :: rest) text p) :
    text[p]? = some a := by
  obtain ⟨more, hMore⟩ := h
  rw [← Nat.add_zero p, ← List.getElem?_drop, ← hMore]
  rfl

theorem occurs_iff_take : Occurs word text p ↔ (text.drop p).take word.length = word := by
  rw [Occurs, List.prefix_iff_eq_take]
  exact eq_comm

variable [DecidableEq α]

instance (word text : List α) (p : Nat) : Decidable (Occurs word text p) :=
  inferInstanceAs (Decidable (_ <+: _))

/-- The occurrences from `p` on, in order. -/
def positionsFrom (word text : List α) (p : Nat) : List Nat :=
  (List.range' p (text.length - p)).filter (Occurs word text)

def positions (word text : List α) : List Nat := positionsFrom word text 0

theorem mem_positionsFrom (hWord : word ≠ []) :
    q ∈ positionsFrom word text p ↔ p ≤ q ∧ Occurs word text q := by
  rw [positionsFrom, List.mem_filter, List.mem_range'_1, decide_eq_true_eq]
  constructor
  · exact fun h => ⟨h.1.1, h.2⟩
  · intro ⟨hFrom, hOccurs⟩
    have hFits := hOccurs.fits hWord
    have hPos := List.length_pos_iff.mpr hWord
    exact ⟨⟨hFrom, by omega⟩, hOccurs⟩

theorem mem_positions (hWord : word ≠ []) : q ∈ positions word text ↔ Occurs word text q := by
  rw [positions, mem_positionsFrom hWord]
  exact and_iff_right (Nat.zero_le q)

theorem isLeast_of_positions (hWord : word ≠ []) {rest : List Nat}
    (h : positions word text = p :: rest) : IsLeast {q | Occurs word text q} p := by
  have hOrder : (positions word text).Pairwise (· < ·) := (List.pairwise_lt_range' ..).filter _
  have hMem : ∀ q, q ∈ positions word text ↔ Occurs word text q := fun q => mem_positions hWord
  rw [h] at hOrder hMem
  refine ⟨(hMem p).mp List.mem_cons_self, fun q hq => ?_⟩
  rcases List.mem_cons.mp ((hMem q).mpr hq) with rfl | hRest
  · exact Nat.le_refl _
  · exact Nat.le_of_lt (List.rel_of_pairwise_cons hOrder hRest)

theorem positionsFrom_short (hWord : word ≠ []) (h : text.length < p + word.length) :
    positionsFrom word text p = [] := by
  rw [List.eq_nil_iff_forall_not_mem]
  intro q hq
  rw [mem_positionsFrom hWord] at hq
  have hFits := hq.2.fits hWord
  omega

theorem positionsFrom_of_lt (h : p < text.length) :
    positionsFrom word text p =
      if Occurs word text p then p :: positionsFrom word text (p + 1)
      else positionsFrom word text (p + 1) := by
  have hLength : text.length - p = text.length - (p + 1) + 1 := by omega
  rw [positionsFrom, hLength, List.range'_succ, List.filter_cons]
  simp only [decide_eq_true_eq]
  rfl

theorem positionsFrom_skip (hLe : p ≤ q) (hText : q ≤ text.length)
    (h : ∀ i, p ≤ i → i < q → ¬Occurs word text i) :
    positionsFrom word text p = positionsFrom word text q := by
  induction q, hLe using Nat.le_induction with
  | base => rfl
  | succ q hLe ih =>
    rw [ih (by omega) fun i hi hq => h i hi (by omega), positionsFrom_of_lt (by omega),
      if_neg (h q hLe (by omega))]

theorem positionsFrom_none (hWord : word ≠ [])
    (h : ∀ i, p ≤ i → i + word.length ≤ text.length → ¬Occurs word text i) :
    positionsFrom word text p = [] := by
  rw [List.eq_nil_iff_forall_not_mem]
  intro q hq
  rw [mem_positionsFrom hWord] at hq
  exact h q hq.1 (hq.2.fits hWord) hq.2

end Search
