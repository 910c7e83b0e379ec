import Mua.Lib.Incremental

/-! # Journals of terminated records

A journal is the texts of its records, each followed by a terminator that no
text contains. The line machine reads a journal symbol by symbol: it collects a
line up to the terminator and hands it to a handler. Cut anywhere, a journal
still determines the records whose texts lie before the cut.
-/

namespace Records

variable {M A S E : Type*}

section Journal

variable (text : M → List A) (sep : A)

def journal (ms : List M) : List A := ms.flatMap fun m => text m ++ [sep]

/-- Each record of a journal that begins at `start`, with the position its text ends at. -/
def ends : Nat → List M → List (M × Nat)
  | _, [] => []
  | start, m :: ms => (m, start + (text m).length) :: ends (start + (text m).length + 1) ms

def whole (start cut : Nat) (ms : List M) : List M :=
  ((ends text start ms).filter fun r => r.2 ≤ cut).map (·.1)

@[simp] theorem journal_nil : journal text sep [] = [] := rfl

@[simp] theorem journal_cons (m : M) (ms : List M) :
    journal text sep (m :: ms) = text m ++ sep :: journal text sep ms := by
  simp [journal]

theorem ends_add (start d : Nat) (ms : List M) :
    ends text (start + d) ms = (ends text start ms).map fun r => (r.1, r.2 + d) := by
  induction ms generalizing start with
  | nil => rfl
  | cons m ms ih =>
    have hEnd : start + d + (text m).length = start + (text m).length + d := by omega
    rw [ends, ends, List.map_cons, hEnd, Nat.add_right_comm _ d 1, ih]

theorem le_of_mem_ends {start : Nat} {ms : List M} {r : M × Nat} (h : r ∈ ends text start ms) :
    start + (text r.1).length ≤ r.2 := by
  induction ms generalizing start with
  | nil => cases h
  | cons m ms ih =>
    rcases List.mem_cons.mp h with rfl | h
    · exact Nat.le_refl _
    · have := ih h
      omega

@[simp] theorem whole_nil (start cut : Nat) : whole text start cut [] = [] := rfl

theorem whole_add (start d cut : Nat) (ms : List M) :
    whole text (start + d) (cut + d) ms = whole text start cut ms := by
  rw [whole, whole, ends_add, List.filter_map, List.map_map]
  refine congrArg₂ _ rfl (List.filter_congr fun r _ => ?_)
  simp

theorem whole_cons_of_le {start cut : Nat} {m : M} {ms : List M}
    (h : cut ≤ start + (text m).length) :
    whole text start cut (m :: ms) = if cut = start + (text m).length then [m] else [] := by
  have hLater : (ends text (start + (text m).length + 1) ms).filter (fun r => r.2 ≤ cut) = [] := by
    rw [List.filter_eq_nil_iff]
    intro r hr
    have := le_of_mem_ends text hr
    simp
    omega
  rw [whole, ends, List.filter_cons, hLater]
  split
  · rename_i hEnd
    rw [if_pos (Nat.le_antisymm h (of_decide_eq_true hEnd))]
    rfl
  · rename_i hEnd
    have hEnd : ¬ start + (text m).length ≤ cut := by simpa using hEnd
    rw [if_neg (by omega)]
    rfl

theorem whole_cons_of_lt {start cut : Nat} {m : M} {ms : List M}
    (h : start + (text m).length < cut) :
    whole text start cut (m :: ms) = m :: whole text (start + (text m).length + 1) cut ms := by
  rw [whole, ends, List.filter_cons, if_pos (by simpa using Nat.le_of_lt h)]
  rfl

end Journal

section Lines

/-- Reads a word cut at its terminators: each line is handed over, the last one, which no
terminator ends, to `last`. -/
def readLines (max : Nat) (handle : S → List A → Except E S) (tooLong : S → E)
    (last : S → List A → Except E S) : S → List (List A) → Except E S
  | s, [] => .ok s
  | s, [line] => if line.length ≤ max then last s line else .error (tooLong s)
  | s, line :: next :: lines =>
    if line.length ≤ max then
      (handle s line).bind fun s' => readLines max handle tooLong last s' (next :: lines)
    else .error (tooLong s)

variable {max : Nat} {handle last : S → List A → Except E S} {tooLong : S → E}

theorem readLines_cons {s : S} {line : List A} {lines : List (List A)} (h : lines ≠ []) :
    readLines max handle tooLong last s (line :: lines) =
      if line.length ≤ max then
        (handle s line).bind fun s' => readLines max handle tooLong last s' lines
      else .error (tooLong s) := by
  cases lines with
  | nil => exact absurd rfl h
  | cons next lines => rfl

end Lines

section Machine

variable [DecidableEq A] (max : Nat) (sep : A) (handle : S → List A → Except E S) (tooLong : S → E)

/-- One symbol: the terminator hands the line over, any other symbol extends it up to the cap. -/
def lineStep (s : S × List A) (a : A) : Except E (S × List A) :=
  if a = sep then (handle s.1 s.2).map fun s' => (s', [])
  else if s.2.length < max then .ok (s.1, s.2 ++ [a])
  else .error (tooLong s.1)

variable {max sep handle tooLong}

theorem consume_text {s : S} {line t : List A} (hSep : sep ∉ t)
    (hMax : line.length + t.length ≤ max) :
    Incremental.consume (lineStep max sep handle tooLong) (s, line) t = .ok (s, line ++ t) := by
  induction t generalizing line with
  | nil => simp
  | cons a t ih =>
    simp only [List.mem_cons, not_or, List.length_cons] at hSep hMax
    have hStep : lineStep max sep handle tooLong (s, line) a = .ok (s, line ++ [a]) := by
      rw [lineStep, if_neg (Ne.symm hSep.1), if_pos (by simp; omega)]
    rw [Incremental.consume_cons_ok hStep, ih hSep.2 (by simp; omega), List.append_assoc]
    rfl

theorem consume_text_tooLong {s : S} {line t : List A} (hSep : sep ∉ t) (hLine : line.length ≤ max)
    (hMax : max < line.length + t.length) :
    Incremental.consume (lineStep max sep handle tooLong) (s, line) t = .error (tooLong s) := by
  induction t generalizing line with
  | nil => simp at hMax; omega
  | cons a t ih =>
    simp only [List.mem_cons, not_or, List.length_cons] at hSep hMax
    by_cases hFull : line.length < max
    · have hStep : lineStep max sep handle tooLong (s, line) a = .ok (s, line ++ [a]) := by
        rw [lineStep, if_neg (Ne.symm hSep.1), if_pos hFull]
      rw [Incremental.consume_cons_ok hStep]
      exact ih hSep.2 (by simp; omega) (by simp; omega)
    · refine Incremental.consume_cons_error ?_ t
      rw [lineStep, if_neg (Ne.symm hSep.1), if_neg hFull]

theorem consume_sep (s : S) (line rest : List A) :
    Incremental.consume (lineStep max sep handle tooLong) (s, line) (sep :: rest) =
      (handle s line).bind fun s' =>
        Incremental.consume (lineStep max sep handle tooLong) (s', []) rest := by
  rw [Incremental.consume, lineStep, if_pos rfl]
  cases handle s line <;> rfl

theorem consume_record {s : S} {t rest : List A} (hSep : sep ∉ t) (hMax : t.length ≤ max) :
    Incremental.consume (lineStep max sep handle tooLong) (s, []) (t ++ sep :: rest) =
      (handle s t).bind fun s' =>
        Incremental.consume (lineStep max sep handle tooLong) (s', []) rest := by
  rw [Incremental.consume_append_ok (consume_text hSep (by simpa using hMax)), List.nil_append,
    consume_sep]

theorem consume_lines_map {f : S → S} (hHandle : ∀ s line, handle (f s) line = (handle s line).map f)
    (hTooLong : ∀ s, tooLong (f s) = tooLong s) (s : S) (line word : List A) :
    Incremental.consume (lineStep max sep handle tooLong) (f s, line) word =
      (Incremental.consume (lineStep max sep handle tooLong) (s, line) word).map
        fun r => (f r.1, r.2) := by
  refine Incremental.consume_map (f := fun r : S × List A => (f r.1, r.2)) ?_ (s, line) word
  rintro ⟨s, line⟩ a
  unfold lineStep
  dsimp only
  split
  · rw [hHandle]
    cases handle s line <;> rfl
  · split
    · rfl
    · rw [hTooLong]
      rfl

theorem consume_lines_invariant {Inv : S → Prop}
    (hHandle : ∀ s line s', Inv s → handle s line = .ok s' → Inv s') {s s' : S}
    {line line' word : List A} (hs : Inv s)
    (h : Incremental.consume (lineStep max sep handle tooLong) (s, line) word = .ok (s', line')) :
    Inv s' := by
  have hStep : ∀ (r : S × List A) a r', Inv r.1 →
      lineStep max sep handle tooLong r a = .ok r' → Inv r'.1 := by
    rintro ⟨s, line⟩ a ⟨s', line'⟩ hs hStep
    unfold lineStep at hStep
    dsimp only at hs hStep
    split at hStep
    · cases hReply : handle s line with
      | error e =>
        rw [hReply] at hStep
        cases hStep
      | ok t =>
        rw [hReply] at hStep
        cases hStep
        exact hHandle s line s' hs hReply
    · split at hStep
      · cases hStep
        exact hs
      · cases hStep
  exact Incremental.consume_invariant (fun r => Inv r.1) hStep hs h

variable {last : S → List A → Except E S}

theorem splitOn_of_notMem {t : List A} (h : sep ∉ t) : t.splitOn sep = [t] := by
  apply List.splitOnP_eq_singleton
  intro a ha
  exact beq_eq_false_iff_ne.mpr fun hEq => h (hEq ▸ ha)

theorem splitOn_append {t : List A} (h : sep ∉ t) (rest : List A) :
    (t ++ sep :: rest).splitOn sep = t :: rest.splitOn sep := by
  apply List.splitOnP_append_cons_of_forall_mem
  · intro a ha
    exact beq_eq_false_iff_ne.mpr fun hEq => h (hEq ▸ ha)
  · exact beq_self_eq_true sep

theorem splitOn_ne_nil (word : List A) : word.splitOn sep ≠ [] := List.splitOnP_ne_nil _ _

/-- The line machine, finished by `last`, reads the lines of the word. -/
theorem consume_eq_readLines (s : S) (word : List A) :
    ((Incremental.consume (lineStep max sep handle tooLong) (s, []) word).bind
        fun r => last r.1 r.2) =
      readLines max handle tooLong last s (word.splitOn sep) := by
  -- the induction is on the length: the rest of the word after its first terminator is shorter
  induction hLength : word.length using Nat.strongRecOn generalizing s word with
  | ind n ih =>
  by_cases hMem : sep ∈ word
  · obtain ⟨t, rest, rfl, hSep⟩ := List.eq_append_cons_of_mem hMem
    rw [splitOn_append hSep, readLines_cons (splitOn_ne_nil rest)]
    split
    · rename_i hFits
      rw [consume_record hSep hFits]
      cases handle s t with
      | error e => rfl
      | ok s' =>
        refine ih rest.length ?_ s' rest rfl
        rw [← hLength, List.length_append, List.length_cons]
        omega
    · rename_i hLong
      have hError : Incremental.consume (lineStep max sep handle tooLong) (s, []) t =
          .error (tooLong s) := by
        apply consume_text_tooLong hSep (Nat.zero_le _)
        rw [List.length_nil, Nat.zero_add]
        exact Nat.lt_of_not_le hLong
      rw [Incremental.consume_append_error hError]
      rfl
  · rw [splitOn_of_notMem hMem, readLines]
    split
    · rename_i hFits
      rw [consume_text hMem (by simpa using hFits)]
      rfl
    · rename_i hLong
      rw [consume_text_tooLong hMem (Nat.zero_le _) (by simpa using hLong)]
      rfl

end Machine

end Records
