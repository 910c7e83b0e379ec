import Mua.Cjson

/-! # The strings and the numbers of cJSON

A string that is printed is parsed back, as C reads it. A string that was parsed is parsed the
same whatever follows it, and so is a number that something else follows.
-/

namespace Mua.Cjson

open Separated

variable {num : NumLib} {s rest : Bytes} {b : Byte}

theorem escape_plain (h : 31 < b ∧ b ≠ quote ∧ b ≠ backslash) : escape b = [b] := if_pos h

theorem escape_special (h : ¬(31 < b ∧ b ≠ quote ∧ b ≠ backslash)) :
    (∃ e, escape b = [backslash, e] ∧ e ≠ 117 ∧ simpleEscape e = some b) ∨
      (b < 32 ∧ escape b =
        [backslash, 117, 48, 48, hexChar (b.toNat / 16), hexChar (b.toNat % 16)]) := by
  by_cases hLetter : b = backslash ∨ b = quote ∨ b = 8 ∨ b = 12 ∨ b = 10 ∨ b = 13 ∨ b = 9
  · left
    rcases hLetter with rfl | rfl | rfl | rfl | rfl | rfl | rfl
    · exact ⟨backslash, by decide, by decide, by decide⟩
    · exact ⟨quote, by decide, by decide, by decide⟩
    · exact ⟨98, by decide, by decide, by decide⟩
    · exact ⟨102, by decide, by decide, by decide⟩
    · exact ⟨110, by decide, by decide, by decide⟩
    · exact ⟨114, by decide, by decide, by decide⟩
    · exact ⟨116, by decide, by decide, by decide⟩
  · simp only [not_or] at hLetter
    obtain ⟨hBackslash, hQuote, h8, h12, h10, h13, h9⟩ := hLetter
    right
    constructor
    · rw [UInt8.lt_iff_toNat_lt]
      have hLow : ¬31 < b := fun hLow => h ⟨hLow, hQuote, hBackslash⟩
      rw [UInt8.lt_iff_toNat_lt] at hLow
      simp only [UInt8.reduceToNat] at hLow ⊢
      omega
    · rw [escape, if_neg h, if_neg hBackslash, if_neg hQuote, if_neg h8, if_neg h12, if_neg h10,
        if_neg h13, if_neg h9]

theorem hex_digits : ∀ n < 32,
    parseHex4 [48, 48, hexChar (n / 16), hexChar (n % 16)] = n ∧
      (hexChar (n / 16) ≠ quote ∧ hexChar (n / 16) ≠ backslash ∧ 31 < hexChar (n / 16)) ∧
      hexChar (n % 16) ≠ quote ∧ hexChar (n % 16) ≠ backslash ∧ 31 < hexChar (n % 16) := by
  decide

theorem utf8_low : ∀ n < 32, utf8Encode n = some [UInt8.ofNat n] := by decide

theorem utf16_escape (h : b < 32) (rest : Bytes) :
    utf16LiteralToUtf8 ([backslash, 117, 48, 48, hexChar (b.toNat / 16), hexChar (b.toNat % 16)] ++
      rest) = some ([b], 6) := by
  have hLow : b.toNat < 32 := UInt8.lt_iff_toNat_lt.mp h
  have hHex : parseHex4 ([48, 48, hexChar (b.toNat / 16), hexChar (b.toNat % 16)] ++ rest) =
      b.toNat := (hex_digits _ hLow).1
  have hDrop : ([backslash, 117, 48, 48, hexChar (b.toNat / 16), hexChar (b.toNat % 16)] ++
      rest).drop 2 = [48, 48, hexChar (b.toNat / 16), hexChar (b.toNat % 16)] ++ rest := rfl
  have hLength : ¬([backslash, 117, 48, 48, hexChar (b.toNat / 16), hexChar (b.toNat % 16)] ++
      rest).length < 6 := by
    rw [List.length_append]
    simp
  rw [utf16LiteralToUtf8]
  dsimp only
  rw [hDrop, hHex, if_neg hLength, if_neg (by omega), if_neg (by omega), utf8_low _ hLow,
    UInt8.ofNat_toNat]
  rfl

theorem unescape_plain (hb : b ≠ backslash) (s : Bytes) :
    unescape (b :: s) = (unescape s).map (b :: ·) := by
  cases s with
  | nil => simp only [unescape, if_neg hb, Except.map]
  | cons e s => rw [unescape, if_pos hb]

theorem unescape_escape (b : Byte) (s : Bytes) :
    unescape (escape b ++ s) = (unescape s).map (b :: ·) := by
  by_cases hPlain : 31 < b ∧ b ≠ quote ∧ b ≠ backslash
  · rw [escape_plain hPlain]
    exact unescape_plain hPlain.2.2 s
  rcases escape_special hPlain with ⟨e, hEscape, hLetter, hByte⟩ | ⟨hLow, hEscape⟩
  · rw [hEscape, List.cons_append, List.cons_append, List.nil_append, unescape,
      if_neg (not_not.mpr rfl), if_neg hLetter, hByte]
  · have hLiteral := utf16_escape hLow s
    rw [hEscape]
    simp only [List.cons_append, List.nil_append] at hLiteral ⊢
    rw [unescape, if_neg (not_not.mpr rfl), if_pos rfl, hLiteral]
    rfl

theorem unescape_flatMap (s : Bytes) : unescape (s.flatMap escape) = .ok s := by
  induction s with
  | nil => rw [List.flatMap_nil, unescape]
  | cons b s ih =>
    rw [List.flatMap_cons, unescape_escape, ih]
    rfl

theorem findQuote_plain (hQuote : b ≠ quote) (hBackslash : b ≠ backslash) (s : Bytes) :
    findQuote (b :: s) = (findQuote s).map (· + 1) := by
  rw [findQuote.eq_def]
  simp only [if_neg hQuote, if_neg hBackslash]

theorem findQuote_escape (b : Byte) (s : Bytes) :
    findQuote (escape b ++ s) = (findQuote s).map (· + (escape b).length) := by
  by_cases hPlain : 31 < b ∧ b ≠ quote ∧ b ≠ backslash
  · rw [escape_plain hPlain]
    exact findQuote_plain hPlain.2.1 hPlain.2.2 s
  rcases escape_special hPlain with ⟨e, hEscape, -, -⟩ | ⟨hLow, hEscape⟩
  · rw [hEscape, List.cons_append, List.cons_append, List.nil_append, findQuote,
      if_neg (by decide), if_pos rfl]
    rfl
  · have hHex := (hex_digits _ (UInt8.lt_iff_toNat_lt.mp hLow)).2
    rw [hEscape]
    simp only [List.cons_append, List.nil_append]
    rw [findQuote, if_neg (by decide), if_pos rfl]
    rw [findQuote_plain (by decide) (by decide), findQuote_plain (by decide) (by decide),
      findQuote_plain hHex.1.1 hHex.1.2.1, findQuote_plain hHex.2.1 hHex.2.2.1]
    simp only [Option.map_map]
    rfl

theorem findQuote_flatMap (s rest : Bytes) :
    findQuote (s.flatMap escape ++ quote :: rest) = some (s.flatMap escape).length := by
  induction s with
  | nil =>
    rw [List.flatMap_nil, List.nil_append, findQuote.eq_def]
    exact if_pos rfl
  | cons b s ih =>
    rw [List.flatMap_cons, List.append_assoc, findQuote_escape, ih, List.length_append,
      Option.map_some, Nat.add_comm]

theorem parseString_printString (s rest : Bytes) :
    parseString (printString s ++ rest) = .ok (cstr s, rest) := by
  have hText : printString s ++ rest = quote :: ((cstr s).flatMap escape ++ quote :: rest) := by
    rw [printString]
    simp
  rw [hText, parseString, if_neg (by simp), List.tail_cons, findQuote_flatMap]
  dsimp only
  rw [List.take_left, unescape_flatMap]
  dsimp only
  rw [← List.drop_drop, List.drop_left]
  rfl

theorem escape_printable : ∀ c ∈ escape b, 31 < c := by
  intro c hc
  by_cases hPlain : 31 < b ∧ b ≠ quote ∧ b ≠ backslash
  · rw [escape_plain hPlain, List.mem_singleton] at hc
    exact hc ▸ hPlain.1
  rcases escape_special hPlain with ⟨e, hEscape, -, hByte⟩ | ⟨hLow, hEscape⟩
  · have hLetter : 31 < e := by
      have hLetters : ∀ n : Fin 32, simpleEscape (UInt8.ofNat n) = none := by decide
      by_contra hLess
      rw [UInt8.lt_iff_toNat_lt] at hLess
      have hNone := hLetters ⟨e.toNat, by simp only [UInt8.reduceToNat] at hLess; omega⟩
      rw [UInt8.ofNat_toNat, hByte] at hNone
      cases hNone
    rw [hEscape, List.mem_cons, List.mem_singleton] at hc
    rcases hc with rfl | rfl
    · decide
    · exact hLetter
  · have hHex := (hex_digits _ (UInt8.lt_iff_toNat_lt.mp hLow)).2
    rw [hEscape] at hc
    simp only [List.mem_cons, List.not_mem_nil, or_false] at hc
    rcases hc with rfl | rfl | rfl | rfl | rfl | rfl
    · decide
    · decide
    · decide
    · decide
    · exact hHex.1.2.2
    · exact hHex.2.2.2

theorem printString_printable : ∀ c ∈ printString s, 31 < c := by
  intro c hc
  rw [printString, List.mem_cons, List.mem_append, List.mem_flatMap, List.mem_singleton] at hc
  rcases hc with rfl | ⟨b, -, hEscape⟩ | rfl
  · decide
  · exact escape_printable c hEscape
  · decide

theorem printString_cstr (s : Bytes) : printString (cstr s) = printString s := by
  rw [printString, cstr_cstr, printString]

theorem findQuote_append {n : Nat} (more : Bytes) (h : findQuote s = some n) :
    n < s.length ∧ findQuote (s ++ more) = some n := by
  fun_induction findQuote s generalizing n with
  | case1 => cases h
  | case2 rest =>
    rw [Option.some.injEq] at h
    subst h
    refine ⟨Nat.zero_lt_succ _, ?_⟩
    rw [List.cons_append, findQuote.eq_def]
    exact if_pos rfl
  | case3 => cases h
  | case4 e rest hQuote ih =>
    rw [Option.map_eq_some_iff] at h
    obtain ⟨m, hm, rfl⟩ := h
    obtain ⟨hLess, hMore⟩ := ih hm
    refine ⟨by simpa using hLess, ?_⟩
    rw [List.cons_append, List.cons_append, findQuote, if_neg hQuote, if_pos rfl, hMore]
    rfl
  | case5 c rest hQuote hBackslash ih =>
    rw [Option.map_eq_some_iff] at h
    obtain ⟨m, hm, rfl⟩ := h
    obtain ⟨hLess, hMore⟩ := ih hm
    refine ⟨by simpa using hLess, ?_⟩
    rw [List.cons_append, findQuote_plain hQuote hBackslash, hMore]
    rfl

/-- A string is settled by its closing quote. -/
theorem parseString_append {output left : Bytes} (more : Bytes)
    (h : parseString s = .ok (output, left)) :
    parseString (s ++ more) = .ok (output, left ++ more) := by
  rw [parseString] at h ⊢
  split at h
  · cases h
  rename_i hHead
  rw [not_not] at hHead
  obtain ⟨text, rfl⟩ : ∃ text, s = quote :: text := by
    cases s with
    | nil => cases hHead
    | cons c text => exact ⟨text, by cases hHead; rfl⟩
  rw [List.cons_append, if_neg (by simp)]
  simp only [List.tail_cons] at h ⊢
  cases hEnd : findQuote text with
  | none =>
    rw [hEnd] at h
    cases h
  | some n =>
    obtain ⟨hLess, hMore⟩ := findQuote_append more hEnd
    rw [hEnd] at h
    rw [hMore]
    dsimp only at h ⊢
    rw [List.take_append_of_le_length hLess.le, List.drop_append_of_le_length hLess]
    cases hUnescape : unescape (text.take n) with
    | error e =>
      rw [hUnescape] at h
      cases h
    | ok bytes =>
      rw [hUnescape] at h
      cases h
      rfl

def Follows (rest : Bytes) : Prop := ∀ c ∈ rest.head?, isNumberByte c = false

theorem follows_cons (h : isNumberByte b = false) : Follows (b :: rest) := by
  rintro c ⟨⟩
  exact h

theorem follows_nil : Follows [] := by
  rintro c ⟨⟩

theorem numberText_append {n : Bytes} (hBytes : ∀ c ∈ n, isNumberByte c = true)
    (hLength : n.length ≤ 63) (hRest : Follows rest) : numberText (n ++ rest) = n := by
  have hNone : (rest.take (63 - n.length)).takeWhile isNumberByte = [] := by
    cases rest with
    | nil => rw [List.take_nil, List.takeWhile_nil]
    | cons c rest =>
      have hc := hRest c rfl
      cases 63 - n.length with
      | zero => rfl
      | succ k => rw [List.take_succ_cons, List.takeWhile_cons_of_neg (by simp [hc])]
  rw [numberText, List.take_append, List.take_of_length_le hLength,
    List.takeWhile_append_of_pos hBytes, hNone, List.append_nil]

structure NumberBack (num : NumLib) (d : Double) : Prop where
  head : ∃ c text, printNumber num d = c :: text ∧ (c = 45 ∨ isDigit c = true)
  bytes : ∀ c ∈ printNumber num d, isNumberByte c = true
  length : (printNumber num d).length ≤ 63
  strtod : num.strtod (printNumber num d) = (d, (printNumber num d).length)

theorem parseNumber_printNumber {d : Double} (h : NumberBack num d) (hRest : Follows rest) :
    parseNumber num (printNumber num d ++ rest) = .ok (.number d, rest) := by
  obtain ⟨c, text, hText, -⟩ := h.head
  rw [parseNumber, numberText_append h.bytes h.length hRest, h.strtod]
  dsimp only
  rw [if_neg (by rw [hText]; exact Nat.succ_ne_zero _), List.drop_left]

/-- A number is settled by a byte that is not one of its own. -/
theorem parseNumber_settled {node : CJson} {left : Bytes} (more : Bytes)
    (h : parseNumber num s = .ok (node, b :: left)) (hb : isNumberByte b = false) :
    parseNumber num (s ++ more) = .ok (node, b :: left ++ more) := by
  have hPrefix : numberText s <+: s := (List.takeWhile_prefix _).trans (List.take_prefix _ _)
  have hAll : ∀ c ∈ numberText s, isNumberByte c = true := fun c hc => List.mem_takeWhile_imp hc
  have hShort : (numberText s).length ≤ 63 :=
    (List.takeWhile_prefix _).length_le.trans (List.length_take_le _ _)
  have hTaken := num.taken (numberText s)
  rw [parseNumber] at h
  generalize hn : numberText s = n at *
  obtain ⟨behind, rfl⟩ := hPrefix
  dsimp only at h
  split at h
  · cases h
  rename_i hZero
  simp only [Except.ok.injEq, Prod.mk.injEq] at h
  obtain ⟨rfl, hLeft⟩ := h
  -- all of the copied bytes were taken
  have hWhole : (num.strtod n).2 = n.length := by
    by_contra hNe
    rw [List.drop_append_of_le_length hTaken] at hLeft
    cases hDrop : n.drop (num.strtod n).2 with
    | nil =>
      rw [List.drop_eq_nil_iff] at hDrop
      omega
    | cons c rest =>
      have hMem : c ∈ n := List.mem_of_mem_drop (hDrop ▸ List.mem_cons_self)
      rw [hDrop, List.cons_append, List.cons.injEq] at hLeft
      rw [← hLeft.1, hAll c hMem] at hb
      cases hb
  rw [hWhole, List.drop_left] at hLeft
  subst hLeft
  have hText : numberText (n ++ (b :: left ++ more)) = n :=
    numberText_append hAll hShort (follows_cons hb)
  rw [parseNumber, List.append_assoc, hText]
  dsimp only
  rw [if_neg hZero, hWhole, List.drop_left]

def Scanned (num : NumLib) (d : Double) : Prop :=
  ∃ text, 0 < (num.strtod text).2 ∧ (num.strtod text).1 = d

theorem parseNumber_scanned {node : CJson} {left : Bytes}
    (h : parseNumber num s = .ok (node, left)) : ∃ d, node = .number d ∧ Scanned num d := by
  rw [parseNumber] at h
  dsimp only at h
  split at h
  · cases h
  · rename_i hTaken
    simp only [Except.ok.injEq, Prod.mk.injEq] at h
    exact ⟨_, h.1.symm, numberText s, Nat.pos_of_ne_zero hTaken, rfl⟩

def ReadsInts (num : NumLib) : Prop :=
  ∀ n : Nat, n < 2 ^ 31 → num.strtod (decimal n) = (.ofInt n, (decimal n).length)

theorem decimal_digits {n : Nat} (h : b ∈ decimal n) : isDigit b = true := by
  obtain ⟨c, hc, rfl⟩ := List.mem_map.mp h
  have hc : c ∈ (Nat.repr n).toList := hc
  rw [Nat.repr, String.toList_ofList] at hc
  have hDigit := Nat.isDigit_of_mem_toDigits (by decide) (by decide) hc
  rw [Char.isDigit, Bool.and_eq_true, decide_eq_true_eq, decide_eq_true_eq] at hDigit
  have hLow : 48 ≤ c.toNat := UInt32.le_iff_toNat_le.mp hDigit.1
  have hHigh : c.toNat ≤ 57 := UInt32.le_iff_toNat_le.mp hDigit.2
  have hByte : (UInt8.ofNat c.toNat).toNat = c.toNat := by
    rw [UInt8.toNat_ofNat', Nat.mod_eq_of_lt (by omega)]
  rw [isDigit, Bool.and_eq_true, decide_eq_true_eq, decide_eq_true_eq, UInt8.le_iff_toNat_le,
    UInt8.le_iff_toNat_le, hByte]
  exact ⟨hLow, hHigh⟩

theorem isNumberByte_of_isDigit (h : isDigit b = true) : isNumberByte b = true := by
  simp [isNumberByte, h]

theorem printNumber_ofInt {n : Nat} (h : n < 2 ^ 31) : printNumber num (.ofInt n) = decimal n := by
  have hInt : (Double.ofInt n).isFinite = true ∧ (Double.ofInt n).trunc = n := by
    cases Nat.eq_zero_or_pos n with
    | inl hZero =>
      subst hZero
      have hFloor : (Double.mk 0).floorAbs = 0 := by
        have hMantissa : (Double.mk 0).mantissa = 0 := by decide
        rw [Double.floorAbs, hMantissa, Nat.zero_mul, Nat.zero_div, ite_self]
      refine ⟨by decide, ?_⟩
      rw [Int.natCast_zero, Double.ofInt_zero, Double.trunc_eq, hFloor]
      rfl
    | inr hPos =>
      have hFields := Double.ofInt_natCast hPos (by omega)
      exact ⟨hFields.1, hFields.2.1⟩
  have hValue : valueInt (.ofInt n) = n := by
    rw [valueInt, hInt.2]
    omega
  rw [printNumber, if_neg (not_not.mpr hInt.1), hValue,
    if_pos (Double.equals_refl (Double.isNaN_of_isFinite hInt.1))]
  rfl

theorem numberBack_ofInt {n : Nat} (hNum : ReadsInts num) (h : n < 2 ^ 31) :
    NumberBack num (.ofInt n) := by
  have hShort : (decimal n).length ≤ 63 := by
    have hLength := length_toString_le (n := n) (k := 10) (by decide) (by rw [Int.natAbs_natCast]; omega)
    rw [decimal, length_ascii]
    exact Nat.le_trans hLength (by decide)
  constructor
  · rw [printNumber_ofInt h]
    cases hText : decimal n with
    | nil =>
      have hLength := congrArg List.length hText
      rw [decimal, length_ascii] at hLength
      have hPos : 0 < (Nat.repr n).length := Nat.length_repr_pos
      exact absurd hLength hPos.ne'
    | cons c text => exact ⟨c, text, rfl, .inr (decimal_digits (hText ▸ List.mem_cons_self))⟩
  · rw [printNumber_ofInt h]
    exact fun c hc => isNumberByte_of_isDigit (decimal_digits hc)
  · rw [printNumber_ofInt h]
    exact hShort
  · rw [printNumber_ofInt h]
    exact hNum n h

end Mua.Cjson
