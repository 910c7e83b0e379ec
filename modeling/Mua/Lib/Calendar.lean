import Mathlib.Tactic.Linarith

/-! # The proleptic Gregorian calendar

Days are counted from the first of January of the year 0. Dates compare, from the
year on, as their days do.
-/

namespace Calendar

structure Date where
  year : Int
  month : Nat
  day : Nat
  deriving DecidableEq, Repr

def isLeap (year : Int) : Bool := year % 4 = 0 ∧ (year % 100 ≠ 0 ∨ year % 400 = 0)

def daysBeforeYear (year : Int) : Int :=
  365 * year + (year + 3) / 4 - (year + 99) / 100 + (year + 399) / 400

/-- The year of a day: the mean length of a year gives it up to one. -/
def yearOfDay (n : Int) : Int :=
  let guess := n * 400 / 146097
  if n < daysBeforeYear guess then guess - 1
  else if daysBeforeYear (guess + 1) ≤ n then guess + 1
  else guess

def monthLengths (leap : Bool) : List Nat :=
  [31, if leap then 29 else 28, 31, 30, 31, 30, 31, 31, 30, 31, 30, 31]

/-- The month and the day, both from one, of a day from the first of `month` on. -/
def walkMonths (month : Nat) : List Nat → Nat → Nat × Nat
  | [], rest => (month, rest + 1)
  | length :: lengths, rest =>
    if rest < length then (month, rest + 1) else walkMonths (month + 1) lengths (rest - length)

def date (n : Int) : Date :=
  let year := yearOfDay n
  let (month, day) := walkMonths 1 (monthLengths (isLeap year)) (n - daysBeforeYear year).toNat
  ⟨year, month, day⟩

example : date 719528 = ⟨1970, 1, 1⟩ := by decide

example : date (719528 + 11016) = ⟨2000, 2, 29⟩ := by decide

theorem daysBeforeYear_succ (year : Int) :
    daysBeforeYear (year + 1) = daysBeforeYear year + 365 + (if isLeap year then 1 else 0) := by
  unfold daysBeforeYear isLeap
  split <;> rename_i h <;> simp only [decide_eq_true_eq] at h <;> omega

theorem daysBeforeYear_mono {y y' : Int} (h : y ≤ y') : daysBeforeYear y ≤ daysBeforeYear y' := by
  unfold daysBeforeYear
  omega

theorem yearOfDay_spec (n : Int) :
    daysBeforeYear (yearOfDay n) ≤ n ∧ n < daysBeforeYear (yearOfDay n + 1) := by
  unfold yearOfDay
  dsimp only
  split
  · rename_i hEarly
    rw [Int.sub_add_cancel]
    refine ⟨?_, hEarly⟩
    unfold daysBeforeYear
    omega
  · split
    · rename_i hLate
      refine ⟨hLate, ?_⟩
      unfold daysBeforeYear
      omega
    · omega

theorem yearOfDay_mono {n n' : Int} (h : n ≤ n') : yearOfDay n ≤ yearOfDay n' := by
  by_contra hLater
  have hFirst := (yearOfDay_spec n).1
  have hLast := (yearOfDay_spec n').2
  have hMono : daysBeforeYear (yearOfDay n' + 1) ≤ daysBeforeYear (yearOfDay n) :=
    daysBeforeYear_mono (by omega)
  omega

theorem dayOfYear_bounds (n : Int) :
    0 ≤ n - daysBeforeYear (yearOfDay n) ∧
      (n - daysBeforeYear (yearOfDay n)).toNat < (monthLengths (isLeap (yearOfDay n))).sum := by
  obtain ⟨hFirst, hLast⟩ := yearOfDay_spec n
  have hSum : ∀ leap, (monthLengths leap).sum = if leap then 366 else 365 := by decide
  rw [daysBeforeYear_succ] at hLast
  rw [hSum]
  refine ⟨by omega, ?_⟩
  split <;> rename_i hLeap
  · rw [if_pos hLeap] at hLast
    omega
  · rw [if_neg hLeap] at hLast
    omega

theorem walkMonths_ge (month : Nat) (lengths : List Nat) (rest : Nat) :
    month ≤ (walkMonths month lengths rest).1 := by
  induction lengths generalizing month rest with
  | nil => exact le_rfl
  | cons length lengths ih =>
    rw [walkMonths]
    split
    · exact le_rfl
    · exact (Nat.le_succ month).trans (ih (month + 1) (rest - length))

theorem walkMonths_bounds {month rest bound : Nat} {lengths : List Nat}
    (hRest : rest < lengths.sum) (hLengths : ∀ length ∈ lengths, length ≤ bound) :
    (walkMonths month lengths rest).1 < month + lengths.length ∧
      (walkMonths month lengths rest).2 ≤ bound := by
  induction lengths generalizing month rest with
  | nil => cases hRest
  | cons length lengths ih =>
    rw [walkMonths, List.length_cons]
    rw [List.sum_cons] at hRest
    split
    · have hFirst := hLengths length List.mem_cons_self
      exact ⟨by dsimp only; omega, by dsimp only; omega⟩
    · have hLater : rest - length < lengths.sum := by omega
      have hTail : ∀ l ∈ lengths, l ≤ bound := fun l h => hLengths l (List.mem_cons_of_mem _ h)
      refine (ih hLater hTail).imp_left ?_
      intro hMonth
      omega

theorem walkMonths_lt {month rest rest' : Nat} {lengths : List Nat} (h : rest < rest') :
    (walkMonths month lengths rest).1 < (walkMonths month lengths rest').1 ∨
      (walkMonths month lengths rest).1 = (walkMonths month lengths rest').1 ∧
        (walkMonths month lengths rest).2 < (walkMonths month lengths rest').2 := by
  induction lengths generalizing month rest rest' with
  | nil => exact .inr ⟨rfl, Nat.succ_lt_succ h⟩
  | cons length lengths ih =>
    rw [walkMonths, walkMonths]
    rcases Nat.lt_or_ge rest' length with hIn | hOut
    · rw [if_pos (h.trans hIn), if_pos hIn]
      exact .inr ⟨rfl, Nat.succ_lt_succ h⟩
    · rw [if_neg (Nat.not_lt.mpr hOut)]
      split
      · exact .inl (walkMonths_ge (month + 1) lengths (rest' - length))
      · exact ih (by omega)

def Date.number (d : Date) : Int := d.year * 10000 + d.month * 100 + d.day

theorem date_bounds (n : Int) : (date n).month < 13 ∧ (date n).day ≤ 31 := by
  have hLengths : ∀ leap, ∀ length ∈ monthLengths leap, length ≤ 31 := by decide
  have hLength : ∀ leap, (monthLengths leap).length = 12 := by decide
  have hWalk : (date n).month < 1 + (monthLengths (isLeap (yearOfDay n))).length ∧
      (date n).day ≤ 31 := walkMonths_bounds (dayOfYear_bounds n).2 (hLengths _)
  rwa [hLength] at hWalk

theorem date_number_lt {n n' : Int} (h : n < n') : (date n).number < (date n').number := by
  obtain ⟨hMonth, hDay⟩ := date_bounds n
  have hYears := yearOfDay_mono h.le
  have hYear : ∀ m, (date m).year = yearOfDay m := fun _ => rfl
  have hFields : yearOfDay n = yearOfDay n' →
      (date n).month < (date n').month ∨
        (date n).month = (date n').month ∧ (date n).day < (date n').day := by
    intro hSame
    have hFirst := (dayOfYear_bounds n).1
    have hLater : (n - daysBeforeYear (yearOfDay n)).toNat <
        (n' - daysBeforeYear (yearOfDay n')).toNat := by
      rw [← hSame]
      omega
    rw [hSame] at hLater
    simp only [date, hSame]
    exact walkMonths_lt hLater
  unfold Date.number
  rw [hYear, hYear]
  omega

end Calendar
