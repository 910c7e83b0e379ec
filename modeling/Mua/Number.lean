import Mua.Json

/-! # Integers in doubles

Which doubles are integers, and that an integer within 2^53 of zero goes into a
double and back. Equality is C's: a NaN equals nothing, the two zeros are equal.
-/

namespace Mua

namespace Double

def integral (d : Double) : Bool :=
  1075 ≤ d.scale || d.mantissa % 2 ^ (1075 - d.scale) == 0

/-- An integer that a double holds exactly: within 2^53 of zero. -/
def exactInt (d : Double) : Bool := d.isFinite && d.integral && d.trunc.natAbs ≤ 2 ^ 53

theorem bits_eq (d : Double) :
    d.bits.toNat = (if d.negative then 2 ^ 63 else 0) + d.exponent * 2 ^ 52 + d.fraction := by
  have h := d.bits.toNat_lt
  simp only [negative, exponent, fraction, decide_eq_true_eq]
  split <;> omega

def isZero (d : Double) : Bool := d.exponent == 0 && d.fraction == 0

/-- Equal as numbers, a NaN apart: the same bits, or two zeros. -/
def SameNumber (a b : Double) : Prop := a = b ∨ (a.isZero = true ∧ b.isZero = true)

theorem ofNatBits_eq {n k : Nat} (hk : k ≤ 52) (hLow : 2 ^ k ≤ n) (hHigh : n < 2 ^ (k + 1)) :
    ofNatBits n = (1023 + k) * 2 ^ 52 + (n * 2 ^ (52 - k) - 2 ^ 52) := by
  have hn : n ≠ 0 := by
    have := Nat.two_pow_pos k
    omega
  have hLog : Nat.log2 n = k := (Nat.log2_eq_iff hn).mpr ⟨hLow, hHigh⟩
  simp only [ofNatBits, if_neg hn, hLog, if_pos hk]

theorem fraction_lt (d : Double) : d.fraction < 2 ^ 52 := Nat.mod_lt _ (Nat.two_pow_pos 52)

theorem fraction_eq_zero {d : Double} {k : Nat} (hk : 52 ≤ k) (h : d.fraction % 2 ^ k = 0) :
    d.fraction = 0 := by
  have hPow : 2 ^ 52 ≤ 2 ^ k := Nat.pow_le_pow_right (by decide) hk
  rwa [Nat.mod_eq_of_lt (Nat.lt_of_lt_of_le d.fraction_lt hPow)] at h

def floorAbs (d : Double) : Nat :=
  if 1075 ≤ d.scale then d.mantissa * 2 ^ (d.scale - 1075) else d.mantissa / 2 ^ (1075 - d.scale)

theorem trunc_eq (d : Double) :
    d.trunc = if d.negative then -(d.floorAbs : Int) else (d.floorAbs : Int) := rfl

theorem natAbs_trunc (d : Double) : d.trunc.natAbs = d.floorAbs := by
  rw [trunc_eq]
  cases d.negative with
  | true => exact Int.natAbs_neg _
  | false => rfl

/-- The magnitude of an exact integer with a nonzero exponent, back to the bits it came from. -/
theorem ofNatBits_trunc {d : Double} (h : d.exactInt = true) (hExp : d.exponent ≠ 0) :
    ofNatBits d.trunc.natAbs = d.exponent * 2 ^ 52 + d.fraction := by
  have hFraction := d.fraction_lt
  have hMantissa : d.mantissa = d.fraction + 2 ^ 52 := by rw [mantissa, if_neg hExp]
  have hScale : d.scale = d.exponent := by
    rw [scale]
    omega
  simp only [exactInt, integral, Bool.and_eq_true, Bool.or_eq_true, decide_eq_true_eq, beq_iff_eq,
    hScale] at h
  obtain ⟨⟨-, hIntegral⟩, hBound⟩ := h
  have hAbs : d.trunc.natAbs = if 1075 ≤ d.exponent then d.mantissa * 2 ^ (d.exponent - 1075)
      else d.mantissa / 2 ^ (1075 - d.exponent) := by
    rw [natAbs_trunc, floorAbs, hScale]
  rw [hAbs] at hBound ⊢
  by_cases hLarge : 1075 ≤ d.exponent
  · rw [if_pos hLarge] at hBound ⊢
    obtain ⟨j, hj⟩ : ∃ j, d.exponent = 1075 + j := ⟨d.exponent - 1075, by omega⟩
    rw [hj, Nat.add_sub_cancel_left] at hBound ⊢
    match j with
    | 0 =>
      rw [Nat.pow_zero, Nat.mul_one]
      rw [ofNatBits_eq (k := 52) (by omega) (by omega) (by omega)]
      omega
    | 1 =>
      have hPower : d.mantissa * 2 ^ 1 = 2 ^ 53 := by omega
      have hZero : d.fraction = 0 := by omega
      rw [hPower, hZero]
      decide
    | j + 2 =>
      have : 2 ^ 2 ≤ 2 ^ (j + 2) := Nat.pow_le_pow_right (by decide) (by omega)
      have : d.mantissa * 2 ^ 2 ≤ d.mantissa * 2 ^ (j + 2) := Nat.mul_le_mul_left _ this
      omega
  · rw [if_neg hLarge] at hBound ⊢
    obtain ⟨j, hj, hPos⟩ : ∃ j, 1075 - d.exponent = j ∧ d.exponent = 1075 - j :=
      ⟨1075 - d.exponent, rfl, by omega⟩
    rw [hj] at hIntegral hBound ⊢
    have hDvd : 2 ^ j ∣ d.mantissa := Nat.dvd_of_mod_eq_zero (hIntegral.resolve_left hLarge)
    have hMul : d.mantissa / 2 ^ j * 2 ^ j = d.mantissa := Nat.div_mul_cancel hDvd
    have hj52 : j ≤ 52 := by
      by_contra hNot
      have hPow : 2 ^ 53 ≤ 2 ^ j := Nat.pow_le_pow_right (by decide) (by omega)
      have := Nat.le_of_dvd (by omega) hDvd
      omega
    have hSplit : 2 ^ (52 - j) * 2 ^ j = 2 ^ 52 := by
      rw [← Nat.pow_add]
      congr 1
      omega
    have hLow : 2 ^ (52 - j) ≤ d.mantissa / 2 ^ j := by
      rw [Nat.le_div_iff_mul_le (Nat.two_pow_pos j), hSplit]
      omega
    have hHigh : d.mantissa / 2 ^ j < 2 ^ (52 - j + 1) := by
      rw [Nat.div_lt_iff_lt_mul (Nat.two_pow_pos j), Nat.pow_succ, Nat.mul_right_comm, hSplit]
      omega
    rw [ofNatBits_eq (by omega) hLow hHigh, show 52 - (52 - j) = j by omega, hMul]
    omega

theorem ofInt_zero : ofInt 0 = ⟨0⟩ := by decide

/-- An exact integer comes back as the same number. -/
theorem ofInt_trunc {d : Double} (h : d.exactInt = true) : d.SameNumber (ofInt d.trunc) := by
  by_cases hExp : d.exponent = 0
  · have hScale : d.scale = 1 := by rw [scale, hExp]; rfl
    have hMantissa : d.mantissa = d.fraction := by rw [mantissa, if_pos hExp]
    have hIntegral : d.fraction % 2 ^ (1075 - 1) = 0 := by
      simp only [exactInt, integral, Bool.and_eq_true, Bool.or_eq_true, decide_eq_true_eq,
        beq_iff_eq, hScale, hMantissa] at h
      exact h.1.2.resolve_left (by decide)
    have hFraction : d.fraction = 0 := fraction_eq_zero (by decide) hIntegral
    have hTrunc : d.trunc = 0 := by
      have hFloor : d.floorAbs = 0 := by
        rw [floorAbs, hMantissa, hFraction, Nat.zero_mul, Nat.zero_div, ite_self]
      rw [trunc_eq, hFloor]
      cases d.negative <;> rfl
    refine .inr ⟨?_, ?_⟩
    · rw [isZero, hExp, hFraction]
      rfl
    · rw [hTrunc]
      decide
  · refine .inl ?_
    have hBits := ofNatBits_trunc h hExp
    have hSign : (d.trunc < 0) ↔ d.negative = true := by
      have hPos : 0 < d.floorAbs := by
        rcases Nat.eq_zero_or_pos d.floorAbs with hZero | hPos
        · rw [natAbs_trunc, hZero] at hBits
          have : ofNatBits 0 = 0 := rfl
          omega
        · exact hPos
      rw [trunc_eq]
      cases d.negative with
      | true =>
        rw [if_pos rfl]
        exact iff_of_true (by omega) rfl
      | false =>
        rw [if_neg Bool.false_ne_true]
        exact iff_of_false (by omega) Bool.false_ne_true
    have hAll := d.bits_eq
    have : d.bits = UInt64.ofNat (ofNatBits d.trunc.natAbs + if d.trunc < 0 then 2 ^ 63 else 0) := by
      rw [hBits, ← UInt64.ofNat_toNat (x := d.bits), hAll]
      congr 1
      simp only [hSign]
      omega
    cases d
    exact congrArg Double.mk this

def isNaN (d : Double) : Bool := d.exponent == 2047 && d.fraction != 0

def equals (a b : Double) : Bool := !a.isNaN && (a == b || (a.isZero && b.isZero))

theorem equals_refl {a : Double} (h : a.isNaN = false) : a.equals a = true := by
  simp [equals, h]

theorem isNaN_of_isZero {a : Double} (h : a.isZero = true) : a.isNaN = false := by
  rw [isZero, Bool.and_eq_true, beq_iff_eq, beq_iff_eq] at h
  rw [isNaN, h.1]
  rfl

theorem equals_iff {a b : Double} :
    a.equals b = true ↔ (a = b ∧ a.isNaN = false) ∨ (a.isZero = true ∧ b.isZero = true) := by
  simp only [equals, Bool.and_eq_true, Bool.or_eq_true, beq_iff_eq, Bool.not_eq_true']
  constructor
  · rintro ⟨hNaN, rfl | hZero⟩
    · exact .inl ⟨rfl, hNaN⟩
    · exact .inr hZero
  · rintro (⟨rfl, hNaN⟩ | hZero)
    · exact ⟨hNaN, .inl rfl⟩
    · exact ⟨isNaN_of_isZero hZero.1, .inr hZero⟩

theorem equals_symm {a b : Double} (h : a.equals b = true) : b.equals a = true := by
  rw [equals_iff] at h ⊢
  rcases h with ⟨rfl, hNaN⟩ | ⟨ha, hb⟩
  · exact .inl ⟨rfl, hNaN⟩
  · exact .inr ⟨hb, ha⟩

theorem equals_trans {a b c : Double} (h : a.equals b = true) (h' : b.equals c = true) :
    a.equals c = true := by
  rw [equals_iff] at h h' ⊢
  rcases h with ⟨rfl, hNaN⟩ | ⟨ha, hb⟩
  · exact h'
  · rcases h' with ⟨rfl, hNaN⟩ | ⟨hb', hc⟩
    · exact .inr ⟨ha, hb⟩
    · exact .inr ⟨ha, hc⟩

theorem SameNumber.equals {a b : Double} (h : a.SameNumber b) (hNaN : a.isNaN = false) :
    a.equals b = true := by
  rw [equals_iff]
  exact h.imp_left fun hEq => ⟨hEq, hNaN⟩

theorem ofInt_fields {n k : Nat} (hk : k ≤ 52) (hLow : 2 ^ k ≤ n) (hHigh : n < 2 ^ (k + 1)) :
    (ofInt n).negative = false ∧ (ofInt n).exponent = 1023 + k ∧
      (ofInt n).mantissa = n * 2 ^ (52 - k) := by
  have hScaled : 2 ^ 52 ≤ n * 2 ^ (52 - k) ∧ n * 2 ^ (52 - k) < 2 ^ 53 := by
    have hSplit : 2 ^ k * 2 ^ (52 - k) = 2 ^ 52 := by
      rw [← Nat.pow_add, Nat.add_sub_cancel' hk]
    have hSplit' : 2 ^ (k + 1) * 2 ^ (52 - k) = 2 ^ 53 := by
      rw [← Nat.pow_add]
      exact congrArg (2 ^ ·) (by omega)
    exact ⟨hSplit ▸ Nat.mul_le_mul_right _ hLow,
      hSplit' ▸ Nat.mul_lt_mul_of_pos_right hHigh (Nat.two_pow_pos _)⟩
  have hBits : (ofInt n).bits.toNat = (1023 + k) * 2 ^ 52 + (n * 2 ^ (52 - k) - 2 ^ 52) := by
    rw [ofInt, if_neg (by omega), Int.natAbs_natCast, Nat.add_zero, ofNatBits_eq hk hLow hHigh]
    exact UInt64.toNat_ofNat_of_lt (by rw [UInt64.size]; omega)
  have hExponent : (ofInt n).exponent = 1023 + k := by
    rw [exponent, hBits]
    omega
  refine ⟨?_, hExponent, ?_⟩
  · rw [negative, hBits]
    exact decide_eq_false (by omega)
  · rw [mantissa, hExponent, if_neg (by omega), fraction, hBits]
    omega

theorem ofInt_natCast {n : Nat} (hPos : 0 < n) (hLt : n < 2 ^ 53) :
    (ofInt n).isFinite = true ∧ (ofInt n).trunc = n ∧ (ofInt n).isZero = false := by
  obtain ⟨k, hk, hLow, hHigh⟩ : ∃ k, k ≤ 52 ∧ 2 ^ k ≤ n ∧ n < 2 ^ (k + 1) := by
    have hNe : n ≠ 0 := by omega
    refine ⟨Nat.log2 n, ?_, Nat.log2_self_le hNe, Nat.lt_log2_self⟩
    have := (Nat.log2_lt hNe).mpr hLt
    omega
  obtain ⟨hNegative, hExponent, hMantissa⟩ := ofInt_fields hk hLow hHigh
  refine ⟨?_, ?_, ?_⟩
  · rw [isFinite, hExponent]
    exact decide_eq_true (by omega)
  · have hScale : (ofInt n).scale = 1023 + k := by
      rw [scale, hExponent]
      omega
    rw [trunc_eq, hNegative, if_neg Bool.false_ne_true, floorAbs, hMantissa, hScale]
    by_cases hLarge : 1075 ≤ 1023 + k
    · obtain rfl : k = 52 := by omega
      rw [if_pos hLarge]
      exact congrArg Int.ofNat (by omega)
    · rw [if_neg hLarge, show 1075 - (1023 + k) = 52 - k by omega,
        Nat.mul_div_cancel _ (Nat.two_pow_pos _)]
  · rw [isZero, hExponent]
    exact Bool.and_eq_false_iff.mpr (.inl (beq_eq_false_iff_ne.mpr (by omega)))

theorem eq_of_equals {d : Double} {n : Nat} (hPos : 0 < n) (hLt : n < 2 ^ 53)
    (h : d.equals (ofInt n) = true) : d = ofInt n := by
  rcases equals_iff.mp h with ⟨hEq, -⟩ | ⟨-, hZero⟩
  · exact hEq
  · rw [(ofInt_natCast hPos hLt).2.2] at hZero
    cases hZero

theorem ofInt_injective {m n : Nat} (hm : 0 < m) (hm' : m < 2 ^ 53) (hn : 0 < n)
    (hn' : n < 2 ^ 53) (h : ofInt m = ofInt n) : m = n := by
  have hTrunc := (ofInt_natCast hm hm').2.1
  rw [h, (ofInt_natCast hn hn').2.1] at hTrunc
  exact Int.ofNat_inj.mp hTrunc.symm

theorem toInt64_natCast (castOutside : Double → Int64) {n : Nat} (hPos : 0 < n)
    (hLt : n < 2 ^ 53) : (ofInt n).toInt64 castOutside = n := by
  obtain ⟨hFinite, hTrunc, -⟩ := ofInt_natCast hPos hLt
  rw [toInt64, if_pos, hTrunc]
  refine ⟨hFinite, ?_, ?_⟩ <;> rw [hTrunc] <;> omega

theorem isNaN_of_isFinite {d : Double} (h : d.isFinite = true) : d.isNaN = false := by
  rw [isFinite, decide_eq_true_eq] at h
  rw [isNaN, beq_eq_false_iff_ne.mpr h]
  rfl

end Double

end Mua
