import Mathlib.Data.List.Lex
import Mathlib.Tactic.Ring

/-! # Codes of fixed width

Lists of one length compare as their parts do, from the first on. A number in a
fixed number of digits, the most significant first, compares as the number.
-/

namespace FixedWidth

variable {α : Type*} [LT α]

theorem append_lt_append_iff {a b c d : List α} (h : a.length = b.length) :
    a ++ c < b ++ d ↔ a < b ∨ a = b ∧ c < d := by
  induction a generalizing b with
  | nil =>
    obtain rfl := List.length_eq_zero_iff.mp h.symm
    simp
  | cons x a ih =>
    cases b with
    | nil => cases h
    | cons y b =>
      have hTails := ih (b := b) (Nat.succ.inj h)
      rw [List.cons_append, List.cons_append, List.cons_lt_cons_iff, List.cons_lt_cons_iff, hTails,
        List.cons.injEq]
      tauto

theorem append_lt_append {a b : List α} (c d : List α) (h : a.length = b.length) (hLt : a < b) :
    a ++ c < b ++ d :=
  (append_lt_append_iff h).mpr (.inl hLt)

theorem append_lt_append_right_iff [Std.Irrefl fun a b : List α => a < b] {a b c : List α}
    (h : a.length = b.length) : a ++ c < b ++ c ↔ a < b := by
  rw [append_lt_append_iff h]
  constructor
  · rintro (hLt | ⟨-, hSelf⟩)
    · exact hLt
    · exact absurd hSelf (Std.Irrefl.irrefl c)
  · exact .inl

variable (base : Nat) (digit : Nat → α)

/-- The last `w` digits of a number. -/
def digits : Nat → Nat → List α
  | 0, _ => []
  | w + 1, n => digits w (n / base) ++ [digit (n % base)]

variable {base digit}

omit [LT α] in
@[simp] theorem digits_length (w n : Nat) : (digits base digit w n).length = w := by
  induction w generalizing n with
  | zero => rfl
  | succ w ih => rw [digits, List.length_append, ih, List.length_singleton]

theorem digits_lt (hDigit : ∀ i j, i < j → j < base → digit i < digit j) {w n m : Nat}
    (h : n < m) (hm : m < base ^ w) : digits base digit w n < digits base digit w m := by
  induction w generalizing n m with
  | zero =>
    rw [Nat.pow_zero] at hm
    omega
  | succ w ih =>
    have hBase : 0 < base := Nat.pos_of_ne_zero fun hZero => by simp [hZero] at hm
    have hQuot : m / base < base ^ w := Nat.div_lt_of_lt_mul (by rwa [← Nat.pow_succ'])
    rw [digits, digits, append_lt_append_iff (by rw [digits_length, digits_length])]
    rcases (Nat.div_le_div_right (c := base) h.le).lt_or_eq with hLt | hEq
    · exact .inl (ih hLt hQuot)
    · refine .inr ⟨by rw [hEq], ?_⟩
      have hMod : n % base < m % base := by
        have hn := Nat.div_add_mod n base
        have hm := Nat.div_add_mod m base
        rw [hEq] at hn
        omega
      exact List.Lex.rel (hDigit _ _ hMod (Nat.mod_lt m hBase))

omit [LT α] in
theorem digits_append {w v n k : Nat} (hk : k < base ^ v) :
    digits base digit (w + v) (n * base ^ v + k) = digits base digit w n ++ digits base digit v k := by
  induction v generalizing k with
  | zero =>
    obtain rfl : k = 0 := by simpa using hk
    simp [digits]
  | succ v ih =>
    have hBase : 0 < base := Nat.pos_of_ne_zero fun hZero => by simp [hZero] at hk
    have hSplit : n * base ^ (v + 1) + k = base * (n * base ^ v) + k := by ring
    have hQuot : (n * base ^ (v + 1) + k) / base = n * base ^ v + k / base := by
      rw [hSplit, Nat.mul_add_div hBase]
    have hMod : (n * base ^ (v + 1) + k) % base = k % base := by
      rw [hSplit, Nat.mul_add_mod]
    have hRest : k / base < base ^ v := Nat.div_lt_of_lt_mul (by rwa [← Nat.pow_succ'])
    rw [← Nat.add_assoc, digits, hQuot, hMod, ih hRest, digits, List.append_assoc]

end FixedWidth
