import Mathlib.Data.List.TakeWhile

/-! # Windows of lines

A text is cut behind every separator. `select` passes over some lines and keeps some,
symbol by symbol; it is the window of the list of lines, and it goes on from any cut
of the text.
-/

namespace Lines

variable {α : Type*} [DecidableEq α] (sep : α)

/-- The lines of a text, each with its separator; the last one may be without. -/
def lines : List α → List (List α)
  | [] => []
  | a :: s =>
    if a = sep then [a] :: lines s
    else
      match lines s with
      | [] => [[a]]
      | line :: rest => (a :: line) :: rest

/-- Of a text the lines that come after `skip` others, at most `want`. -/
def select (skip want : Nat) : List α → List α
  | [] => []
  | a :: s =>
    if want = 0 then []
    else if skip = 0 then a :: select 0 (if a = sep then want - 1 else want) s
    else select (if a = sep then skip - 1 else skip) want s

variable {sep} {skip want : Nat} {line rest : List α}

@[simp] theorem select_zero (s : List α) : select sep skip 0 s = [] := by
  cases s <;> rfl

theorem select_eq (s : List α) :
    select sep skip want s = (((lines sep s).drop skip).take want).flatten := by
  induction s generalizing skip want with
  | nil => simp [select, lines]
  | cons a s ih =>
    rw [select, lines]
    split
    · simp_all
    rename_i hWant
    obtain ⟨want, rfl⟩ := Nat.exists_eq_succ_of_ne_zero hWant
    split
    · rename_i hSkip
      subst hSkip
      rw [ih]
      split
      · simp
      · cases lines sep s <;> simp
    · rename_i hSkip
      obtain ⟨skip, rfl⟩ := Nat.exists_eq_succ_of_ne_zero hSkip
      rw [ih]
      split
      · simp
      · cases lines sep s <;> simp

theorem select_all {s : List α} (h : s.length ≤ want) : select sep 0 want s = s := by
  induction s generalizing want with
  | nil => rfl
  | cons a s ih =>
    rw [List.length_cons] at h
    rw [select, if_neg (by omega), if_pos rfl, ih]
    split
    · omega
    · omega

def front (sep : α) (s : List α) : List α := s.takeWhile fun a => a != sep

theorem notMem_front (s : List α) : sep ∉ front sep s := by
  intro h
  have h := List.mem_takeWhile_imp h
  simp at h

theorem front_append_drop (s : List α) : front sep s ++ s.drop (front sep s).length = s :=
  List.prefix_iff_eq_append.mp (List.takeWhile_prefix _)

theorem front_of_drop_nil {s : List α} (h : s.drop (front sep s).length = []) :
    front sep s = s := by
  have hSplit : front sep s ++ _ = s := front_append_drop s
  rwa [h, List.append_nil] at hSplit

theorem front_of_drop_cons {s : List α} {a : α} (h : s.drop (front sep s).length = a :: rest) :
    a = sep ∧ front sep s ++ sep :: rest = s := by
  have hSep : a = sep := by
    induction s with
    | nil => cases h
    | cons b s ih =>
      by_cases hb : b = sep
      · subst hb
        rw [front, List.takeWhile_cons_of_neg (by simp)] at h
        exact (List.cons.inj h).1.symm
      · rw [front, List.takeWhile_cons_of_pos (by simpa using hb)] at h
        exact ih h
  have hSplit : front sep s ++ _ = s := front_append_drop s
  rw [h, hSep] at hSplit
  exact ⟨hSep, hSplit⟩

theorem select_part (hLine : sep ∉ line) (hWant : want ≠ 0) :
    select sep skip want (line ++ rest) =
      (if skip = 0 then line else []) ++ select sep skip want rest := by
  induction line with
  | nil => simp
  | cons a line ih =>
    rw [List.mem_cons, not_or] at hLine
    have hRest := ih hLine.2
    rw [List.cons_append, select, if_neg hWant, if_neg (Ne.symm hLine.1), if_neg (Ne.symm hLine.1)]
    split
    · rename_i hSkip
      subst hSkip
      rw [hRest]
      rfl
    · rename_i hSkip
      rw [hRest, if_neg hSkip]

theorem select_line (hLine : sep ∉ line) (hWant : want ≠ 0) :
    select sep skip want (line ++ sep :: rest) =
      if skip = 0 then line ++ sep :: select sep 0 (want - 1) rest
      else select sep (skip - 1) want rest := by
  rw [select_part hLine hWant, select, if_neg hWant]
  split
  · rw [if_pos rfl]
  · rw [if_pos rfl, List.nil_append]

theorem lines_line (hLine : sep ∉ line) :
    lines sep (line ++ sep :: rest) = (line ++ [sep]) :: lines sep rest := by
  induction line with
  | nil => rw [List.nil_append, lines, if_pos rfl, List.nil_append]
  | cons a line ih =>
    rw [List.mem_cons, not_or] at hLine
    rw [List.cons_append, lines, if_neg (Ne.symm hLine.1), ih hLine.2]
    rfl

theorem lines_part (hLine : sep ∉ line) (hNe : line ≠ []) : lines sep line = [line] := by
  induction line with
  | nil => exact absurd rfl hNe
  | cons a line ih =>
    rw [List.mem_cons, not_or] at hLine
    rw [lines, if_neg (Ne.symm hLine.1)]
    cases line with
    | nil => rfl
    | cons b line => rw [ih hLine.2 (List.cons_ne_nil b line)]

theorem line_induction (sep : α) {motive : List α → Prop}
    (part : ∀ line, sep ∉ line → motive line)
    (step : ∀ line rest, sep ∉ line → motive rest → motive (line ++ sep :: rest)) (s : List α) :
    motive s := by
  induction hLength : s.length using Nat.strong_induction_on generalizing s with
  | _ n ih =>
    cases hRest : s.drop (front sep s).length with
    | nil =>
      have hSplit := front_of_drop_nil hRest
      exact part s (hSplit ▸ notMem_front s)
    | cons a rest =>
      obtain ⟨-, hSplit⟩ := front_of_drop_cons hRest
      have hShort : rest.length < n := by
        rw [← hLength, ← hSplit, List.length_append, List.length_cons]
        omega
      rw [← hSplit]
      exact step _ rest (notMem_front s) (ih rest.length hShort rest rfl)

end Lines
