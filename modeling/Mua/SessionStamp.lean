import Mua.Lib.Calendar
import Mua.Lib.FixedWidth
import Mua.Options
import Mua.SessionLoad

/-! # Session names and their order

The name of a session is the UTC second it was created in and a suffix, all in
fixed width, so that strcmp(3) orders names by time and then by suffix. The C
library may or may not pad a year below 1000; without the padding the stamp is too
short and `session_new` fails.
-/

namespace Mua.Session

open FixedWidth Calendar

structure Tm where
  date : Date
  hour : Nat
  min : Nat
  sec : Nat

def epochDay : Int := 719528

def dayOf (now : Int) : Int := now / 86400 + epochDay

/-- `tm_year` is an int that counts from 1900. -/
def gmtimeR (now : Int) : Option Tm :=
  let day := date (dayOf now)
  let second := (now % 86400).toNat
  if -2 ^ 31 ≤ day.year - 1900 ∧ day.year - 1900 < 2 ^ 31 then
    some ⟨day, second / 3600, second % 3600 / 60, second % 60⟩
  else none

def digit (k : Nat) : Byte := UInt8.ofNat (48 + k)

def padded (w n : Nat) : Bytes := digits 10 digit w n

/-- `%Y`, in four digits where it has them or `pads` adds them. -/
def formatYear (pads : Bool) (year : Int) : Bytes :=
  if year ≤ 9999 ∧ (1000 ≤ year ∨ pads ∧ 0 ≤ year) then padded 4 year.toNat else decimalInt year

def strftimeStamp (pads : Bool) (tm : Tm) : Bytes :=
  formatYear pads tm.date.year ++ padded 2 tm.date.month ++ padded 2 tm.date.day ++ ascii "T" ++
    padded 2 tm.hour ++ padded 2 tm.min ++ padded 2 tm.sec

def utcStamp (pads : Bool) (now : Int) : Option Bytes := (gmtimeR now).map (strftimeStamp pads)

example : utcStamp false 1767225599 = some (ascii "20251231T235959") := by decide +kernel

def FourDigitYear (now : Int) : Prop :=
  0 ≤ (date (dayOf now)).year ∧ (date (dayOf now)).year ≤ 9999

instance (now : Int) : Decidable (FourDigitYear now) :=
  inferInstanceAs (Decidable (0 ≤ (date (dayOf now)).year ∧ (date (dayOf now)).year ≤ 9999))

theorem digit_lt (i j : Nat) (h : i < j) (hj : j < 10) : digit i < digit j := by
  rw [digit, digit, UInt8.lt_iff_toNat_lt, UInt8.toNat_ofNat', UInt8.toNat_ofNat']
  omega

theorem digit_ne_zero {k : Nat} (h : k < 10) : digit k ≠ 0 := by
  intro hZero
  have := congrArg UInt8.toNat hZero
  rw [digit, UInt8.toNat_ofNat'] at this
  simp at this
  omega

theorem padded_length (w n : Nat) : (padded w n).length = w := digits_length w n

theorem padded_lt {w n m : Nat} (h : n < m) (hm : m < 10 ^ w) : padded w n < padded w m :=
  digits_lt digit_lt h hm

theorem padded_append {w v n k : Nat} (hk : k < 10 ^ v) :
    padded w n ++ padded v k = padded (w + v) (n * 10 ^ v + k) :=
  (digits_append hk).symm

theorem nulFree_padded (w n : Nat) : NulFree (padded w n) := by
  induction w generalizing n with
  | zero => exact nulFree_nil
  | succ w ih =>
    intro hMem
    rcases List.mem_append.mp hMem with hInit | hLast
    · exact ih _ hInit
    · have hDigit := List.mem_singleton.mp hLast
      exact digit_ne_zero (Nat.mod_lt n (by decide)) hDigit.symm

theorem twoDigits_eq {nn : Nat} (h : nn < 100) : twoDigits nn = padded 2 nn := by
  have hTens : nn / 10 % 10 = nn / 10 := Nat.mod_eq_of_lt (by omega)
  simp only [twoDigits, padded, digits, digit, hTens, List.nil_append, List.singleton_append]

def timeNumber (now : Int) : Nat :=
  let second := (now % 86400).toNat
  second / 3600 * 10000 + second % 3600 / 60 * 100 + second % 60

def stampOf (now : Int) : Bytes :=
  padded 8 (date (dayOf now)).number.toNat ++ ascii "T" ++ padded 6 (timeNumber now)

theorem formatYear_padded {pads : Bool} {year : Int} (h0 : 0 ≤ year) (h9 : year ≤ 9999)
    (hLength : (formatYear pads year).length = 4) :
    formatYear pads year = padded 4 year.toNat := by
  unfold formatYear at hLength ⊢
  split
  · rfl
  · rename_i hShort
    rw [if_neg hShort] at hLength
    obtain ⟨n, rfl⟩ := Int.eq_ofNat_of_zero_le h0
    have hRepr : n.repr.length ≤ 3 := (Nat.length_repr_le_iff (by decide)).mpr (by omega)
    have hDecimal : (decimalInt n).length = n.repr.length := by
      rw [decimalInt, ascii, List.length_map, String.length_toList]
      rfl
    omega

theorem utcStamp_eq {pads : Bool} {now : Int} {stamp : Bytes} (hYear : FourDigitYear now)
    (h : utcStamp pads now = some stamp) (hLength : stamp.length = kStampLen) :
    stamp = stampOf now := by
  obtain ⟨tm, hTm, rfl⟩ := Option.map_eq_some_iff.mp h
  obtain ⟨hMonth, hDay⟩ := date_bounds (dayOf now)
  obtain ⟨h0, h9⟩ := hYear
  unfold gmtimeR at hTm
  dsimp only at hTm
  rw [if_pos (by omega)] at hTm
  cases hTm
  have hFormat : (formatYear pads (date (dayOf now)).year).length = 4 := by
    simp only [strftimeStamp, List.length_append, padded_length, kStampLen] at hLength
    change _ + 2 + 2 + 1 + 2 + 2 + 2 = 15 at hLength
    omega
  have hNumber : (date (dayOf now)).number.toNat =
      ((date (dayOf now)).year.toNat * 10 ^ 2 + (date (dayOf now)).month) * 10 ^ 2 +
        (date (dayOf now)).day := by
    unfold Date.number
    omega
  have hTime : timeNumber now = ((now % 86400).toNat / 3600 * 10 ^ 2 +
      (now % 86400).toNat % 3600 / 60) * 10 ^ 2 + (now % 86400).toNat % 60 := by
    unfold timeNumber
    dsimp only
    omega
  have hDateDigits := padded_append (w := 4 + 2) (v := 2) (k := (date (dayOf now)).day)
    (n := (date (dayOf now)).year.toNat * 10 ^ 2 + (date (dayOf now)).month) (by omega)
  have hTimeDigits := padded_append (w := 2 + 2) (v := 2) (k := (now % 86400).toNat % 60)
    (n := (now % 86400).toNat / 3600 * 10 ^ 2 + (now % 86400).toNat % 3600 / 60) (by omega)
  rw [← padded_append (by omega)] at hDateDigits hTimeDigits
  rw [stampOf, hNumber, hTime, ← hDateDigits, ← hTimeDigits, strftimeStamp,
    formatYear_padded h0 h9 hFormat]
  simp only [List.append_assoc]

theorem stampOf_length (now : Int) : (stampOf now).length = kStampLen := by
  simp only [stampOf, List.length_append, padded_length]
  rfl

theorem stampOf_lt {now now' : Int} (h : now < now') (hYear : FourDigitYear now)
    (hYear' : FourDigitYear now') : stampOf now < stampOf now' := by
  have hDays : dayOf now ≤ dayOf now' := by
    unfold dayOf
    omega
  have hLengths : ∀ a b, (padded 8 a ++ ascii "T").length = (padded 8 b ++ ascii "T").length := by
    intro a b
    rw [List.length_append, List.length_append, padded_length, padded_length]
  rcases hDays.lt_or_eq with hDay | hDay
  · have hNumber := date_number_lt hDay
    obtain ⟨hMonth, hLast⟩ := date_bounds (dayOf now')
    have h0 := hYear.1
    have h9 := hYear'.2
    refine append_lt_append _ _ (hLengths _ _) (append_lt_append _ _ ?_ (padded_lt ?_ ?_))
    · rw [padded_length, padded_length]
    · unfold Date.number at hNumber ⊢
      omega
    · unfold Date.number
      omega
  · have hTime : timeNumber now < timeNumber now' := by
      unfold timeNumber
      unfold dayOf at hDay
      dsimp only
      omega
    rw [stampOf, stampOf, hDay]
    refine List.append_left_lt (padded_lt hTime ?_)
    unfold timeNumber
    dsimp only
    omega

theorem nulFree_stampOf (now : Int) : NulFree (stampOf now) := by
  intro hMem
  rcases List.mem_append.mp hMem with hDate | hTime
  · rcases List.mem_append.mp hDate with hDate | hMark
    · exact nulFree_padded _ _ hDate
    · exact absurd hMark (by decide)
  · exact nulFree_padded _ _ hTime

def sessionIdOf (now : Int) (nn : Nat) : Bytes := stampOf now ++ ascii "_" ++ twoDigits nn

theorem sessionName_eq (now : Int) (nn : Nat) :
    sessionName (stampOf now) nn = sessionIdOf now nn ++ ascii ".jsonl" := by
  rw [sessionName, cstr_of_nulFree (nulFree_stampOf now), sessionIdOf]

theorem sessionIdOf_length (now : Int) (nn : Nat) : (sessionIdOf now nn).length = kSessionIdLen := by
  simp only [sessionIdOf, List.length_append, stampOf_length]
  rfl

theorem sessionIdOf_lt_second {now now' : Int} (h : now < now') (hYear : FourDigitYear now)
    (hYear' : FourDigitYear now') (i j : Nat) : sessionIdOf now i < sessionIdOf now' j := by
  rw [sessionIdOf, sessionIdOf, List.append_assoc, List.append_assoc]
  exact append_lt_append _ _ (by rw [stampOf_length, stampOf_length]) (stampOf_lt h hYear hYear')

theorem sessionIdOf_lt_suffix (now : Int) {i j : Nat} (h : i < j) (hj : j < 100) :
    sessionIdOf now i < sessionIdOf now j := by
  rw [sessionIdOf, sessionIdOf, twoDigits_eq (h.trans hj), twoDigits_eq hj]
  exact List.append_left_lt (padded_lt h hj)

theorem sessionName_lt_iff {now now' : Int} {i j : Nat} :
    sessionName (stampOf now) i < sessionName (stampOf now') j ↔
      sessionIdOf now i < sessionIdOf now' j := by
  rw [sessionName_eq, sessionName_eq]
  exact append_lt_append_right_iff (by rw [sessionIdOf_length, sessionIdOf_length])

theorem nulFree_sessionIdOf (now : Int) {nn : Nat} (h : nn < 100) : NulFree (sessionIdOf now nn) := by
  intro hMem
  rcases List.mem_append.mp hMem with hStamp | hSuffix
  · rcases List.mem_append.mp hStamp with hStamp | hMark
    · exact nulFree_stampOf now hStamp
    · exact absurd hMark (by decide)
  · rw [twoDigits_eq h] at hSuffix
    exact nulFree_padded _ _ hSuffix

def allDigits (s : Bytes) (first last : Nat) : Bool := ((s.take last).drop first).all isDigit

def sessionNameOk (name : Bytes) : Bool :=
  name.length == kSessionNameLen && allDigits name 0 8 && name[8]? == some 84 &&
    allDigits name 9 15 && name[15]? == some 95 && allDigits name 16 kSessionIdLen &&
    name.drop kSessionIdLen == ascii ".jsonl"

theorem padded_digits (w n : Nat) : (padded w n).all isDigit = true := by
  induction w generalizing n with
  | zero => rfl
  | succ w ih =>
    have hDigits : ∀ k < 10, isDigit (digit k) = true := by decide
    rw [padded, digits, List.all_append, ← padded, ih, Bool.true_and, List.all_cons, List.all_nil,
      hDigits _ (Nat.mod_lt n (by decide))]
    rfl

theorem sessionNameOk_parts {a b c : Bytes} (ha : a.length = 8) (hb : b.length = 6)
    (hc : c.length = 2) (hDate : a.all isDigit = true) (hTime : b.all isDigit = true)
    (hSuffix : c.all isDigit = true) :
    sessionNameOk (a ++ ascii "T" ++ b ++ (ascii "_" ++ c) ++ ascii ".jsonl") = true := by
  match a, ha, b, hb, c, hc with
  | [_, _, _, _, _, _, _, _], _, [_, _, _, _, _, _], _, [_, _], _ =>
    unfold sessionNameOk
    simp only [Bool.and_eq_true, beq_iff_eq]
    exact ⟨⟨⟨⟨⟨⟨rfl, hDate⟩, rfl⟩, hTime⟩, rfl⟩, hSuffix⟩, rfl⟩

theorem sessionNameOk_sessionName (now : Int) {nn : Nat} (h : nn < 100) :
    sessionNameOk (sessionName (stampOf now) nn) = true := by
  rw [sessionName_eq, sessionIdOf, stampOf, twoDigits_eq h, List.append_assoc _ (ascii "_")]
  exact sessionNameOk_parts (padded_length _ _) (padded_length _ _) (padded_length _ _)
    (padded_digits _ _) (padded_digits _ _) (padded_digits _ _)

end Mua.Session
