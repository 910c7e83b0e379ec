import Mathlib.Data.List.TakeWhile
import Mathlib.Data.List.Basic

/-! # Texts with flat markup

A code is an escape symbol with what follows it up to a final symbol. A text is styled
by codes when each style that is turned on is turned off before the next one, and only
marks of the source are left out. Then the codes of the styled text are pairs, and what
remains without them is the source without its marks.
-/

namespace Markup

variable {α : Type*}

/-- The second list is the first one without some of its symbols, each with the property. -/
inductive Sheds (P : α → Prop) : List α → List α → Prop
  | nil : Sheds P [] []
  | keep (a : α) {s t : List α} (h : Sheds P s t) : Sheds P (a :: s) (a :: t)
  | shed {a : α} (ha : P a) {s t : List α} (h : Sheds P s t) : Sheds P (a :: s) t

namespace Sheds

variable {P Q : α → Prop} {s s' t t' u : List α}

theorem refl (s : List α) : Sheds P s s := by
  induction s with
  | nil => exact .nil
  | cons a s ih => exact .keep a ih

theorem append (h : Sheds P s t) (h' : Sheds P s' t') : Sheds P (s ++ s') (t ++ t') := by
  induction h with
  | nil => exact h'
  | keep a _ ih => exact .keep a ih
  | shed ha _ ih => exact .shed ha ih

theorem all (h : ∀ a ∈ s, P a) : Sheds P s [] := by
  induction s with
  | nil => exact .nil
  | cons a s ih =>
    exact .shed (h a List.mem_cons_self) (ih fun b hb => h b (List.mem_cons_of_mem _ hb))

theorem mono (hPQ : ∀ a, P a → Q a) (h : Sheds P s t) : Sheds Q s t := by
  induction h with
  | nil => exact .nil
  | keep a _ ih => exact .keep a ih
  | shed ha _ ih => exact .shed (hPQ _ ha) ih

end Sheds

inductive Token (α : Type*)
  | symbol (a : α)
  | code (params : List α)
  deriving DecidableEq, Repr

def Token.params? : Token α → Option (List α)
  | .symbol _ => none
  | .code params => some params

def Token.symbol? : Token α → Option α
  | .symbol a => some a
  | .code _ => none

section Codes

variable [DecidableEq α] (esc fin : α)

def tokens : List α → List (Token α)
  | [] => []
  | a :: s =>
    if a = esc then
      let params := s.takeWhile fun b => b != fin
      .code params :: tokens (s.drop (params.length + 1))
    else .symbol a :: tokens s
termination_by s => s.length
decreasing_by
  · rw [List.length_drop, List.length_cons]
    omega
  · exact Nat.lt_succ_self _

def codes (s : List α) : List (List α) :=
  (tokens esc fin s).filterMap Token.params?

def plain (s : List α) : List α :=
  (tokens esc fin s).filterMap Token.symbol?

variable {esc fin} {s t params : List α}

@[simp] theorem codes_nil : codes esc fin [] = [] := by rw [codes, tokens, List.filterMap_nil]

@[simp] theorem plain_nil : plain esc fin [] = [] := by rw [plain, tokens, List.filterMap_nil]

theorem tokens_clean (h : esc ∉ s) : tokens esc fin (s ++ t) = s.map .symbol ++ tokens esc fin t := by
  induction s with
  | nil => rfl
  | cons a s ih =>
    rw [List.mem_cons, not_or] at h
    rw [List.cons_append, tokens, if_neg (Ne.symm h.1), ih h.2]
    rfl

theorem tokens_code (h : fin ∉ params) :
    tokens esc fin (esc :: (params ++ fin :: t)) = .code params :: tokens esc fin t := by
  have hTake : (params ++ fin :: t).takeWhile (fun b => b != fin) = params := by
    rw [List.takeWhile_append_of_pos, List.takeWhile_cons_of_neg, List.append_nil]
    · simp
    · intro b hb
      exact bne_iff_ne.mpr fun hEq => h (hEq ▸ hb)
  have hDrop : (params ++ fin :: t).drop (params.length + 1) = t := by
    rw [← List.drop_drop, List.drop_left]
    rfl
  rw [tokens, if_pos rfl, hTake]
  dsimp only
  rw [hDrop]

theorem codes_clean (h : esc ∉ s) : codes esc fin (s ++ t) = codes esc fin t := by
  have hNone : (s.map Token.symbol).filterMap Token.params? = [] := by simp [Token.params?]
  rw [codes, tokens_clean h, List.filterMap_append, hNone]
  rfl

theorem plain_clean (h : esc ∉ s) : plain esc fin (s ++ t) = s ++ plain esc fin t := by
  rw [plain, tokens_clean h, List.filterMap_append, List.filterMap_map]
  congr 1
  exact List.filterMap_some

theorem codes_code (h : fin ∉ params) :
    codes esc fin (esc :: (params ++ fin :: t)) = params :: codes esc fin t := by
  rw [codes, tokens_code h]
  rfl

theorem plain_code (h : fin ∉ params) :
    plain esc fin (esc :: (params ++ fin :: t)) = plain esc fin t := by
  rw [plain, tokens_code h]
  rfl

end Codes

variable {ι : Type*}

structure Style (α ι : Type*) where
  on : ι → List α
  off : ι → List α

def code (esc fin : α) (params : List α) : List α := esc :: (params ++ [fin])

/-- The second text is the first one styled: marks are left out, and pieces between marks stand
between the codes of a style. -/
inductive Styled (esc fin : α) (style : Style α ι) (Mark : α → Prop) : List α → List α → Prop
  | nil : Styled esc fin style Mark [] []
  | keep (a : α) {s t : List α} (h : Styled esc fin style Mark s t) :
    Styled esc fin style Mark (a :: s) (a :: t)
  | shed {a : α} (ha : Mark a) {s t : List α} (h : Styled esc fin style Mark s t) :
    Styled esc fin style Mark (a :: s) t
  | span (i : ι) {opened closed : List α} (body : List α) (hOpened : ∀ a ∈ opened, Mark a)
      (hClosed : ∀ a ∈ closed, Mark a) {s t : List α} (h : Styled esc fin style Mark s t) :
    Styled esc fin style Mark (opened ++ (body ++ (closed ++ s)))
      (code esc fin (style.on i) ++ (body ++ (code esc fin (style.off i) ++ t)))

namespace Styled

variable {esc fin : α} {style : Style α ι} {Mark : α → Prop} {s s' t t' : List α}

theorem append_left (s : List α) (h : Styled esc fin style Mark s' t') :
    Styled esc fin style Mark (s ++ s') (s ++ t') := by
  induction s with
  | nil => exact h
  | cons a s ih => exact .keep a ih

theorem append (h : Styled esc fin style Mark s t) (h' : Styled esc fin style Mark s' t') :
    Styled esc fin style Mark (s ++ s') (t ++ t') := by
  induction h with
  | nil => exact h'
  | keep a _ ih => exact .keep a ih
  | shed ha _ ih => exact .shed ha ih
  | span i body hOpened hClosed _ ih =>
    have hSpan := Styled.span i body hOpened hClosed ih
    simpa only [List.append_assoc] using hSpan

theorem refl (s : List α) : Styled esc fin style Mark s s := by
  have hNil : Styled esc fin style Mark [] [] := .nil
  simpa using append_left s hNil

theorem whole (i : ι) (s : List α) :
    Styled esc fin style Mark s (code esc fin (style.on i) ++ (s ++ code esc fin (style.off i))) := by
  have hNone : ∀ a ∈ ([] : List α), Mark a := nofun
  have hNil : Styled esc fin style Mark [] [] := .nil
  simpa using hNil.span i s hNone hNone

theorem mem_of_mem (h : Styled esc fin style Mark s t) {a : α} (hMem : a ∈ t) :
    a ∈ s ∨ ∃ i, a ∈ code esc fin (style.on i) ∨ a ∈ code esc fin (style.off i) := by
  induction h with
  | nil => exact .inl hMem
  | keep b _ ih =>
    rcases List.mem_cons.mp hMem with rfl | hRest
    · exact .inl List.mem_cons_self
    · exact (ih hRest).imp_left (List.mem_cons_of_mem b)
  | @shed b _ _ _ _ ih => exact (ih hMem).imp_left (List.mem_cons_of_mem b)
  | span i body _ _ _ ih =>
    simp only [List.mem_append] at hMem ⊢
    rcases hMem with hOn | hBody | hOff | hRest
    · exact .inr ⟨i, .inl hOn⟩
    · exact .inl (.inr (.inl hBody))
    · exact .inr ⟨i, .inr hOff⟩
    · exact (ih hRest).imp_left fun h => .inr (.inr (.inr h))

variable [DecidableEq α]

theorem tokens_append (h : Styled esc fin style Mark s t) (hEsc : esc ∉ s)
    (hOn : ∀ i, fin ∉ style.on i) (hOff : ∀ i, fin ∉ style.off i) (u : List α) :
    tokens esc fin (t ++ u) = tokens esc fin t ++ tokens esc fin u := by
  induction h with
  | nil =>
    rw [tokens.eq_1 esc fin]
    rfl
  | @keep a s t _ ih =>
    rw [List.mem_cons, not_or] at hEsc
    have hClean : ∀ v, tokens esc fin ([a] ++ v) = [.symbol a] ++ tokens esc fin v :=
      fun v => tokens_clean (by simpa using hEsc.1)
    have ih := ih hEsc.2
    rw [List.cons_append, ← List.singleton_append, hClean, ih, ← List.append_assoc, ← hClean]
    rfl
  | shed _ _ ih => exact ih fun hMem => hEsc (List.mem_cons_of_mem _ hMem)
  | @span i opened closed body _ _ s t _ ih =>
    simp only [List.mem_append, not_or] at hEsc
    have hSpan : ∀ v, tokens esc fin (code esc fin (style.on i) ++ (body ++
        (code esc fin (style.off i) ++ v))) = .code (style.on i) :: (body.map .symbol ++
          .code (style.off i) :: tokens esc fin v) := by
      intro v
      rw [code, code, List.cons_append, List.append_assoc, List.singleton_append,
        tokens_code (hOn i), tokens_clean hEsc.2.1, List.cons_append, List.append_assoc,
        List.singleton_append, tokens_code (hOff i)]
    have ih := ih hEsc.2.2.2
    rw [List.append_assoc, List.append_assoc, List.append_assoc, hSpan, hSpan, ih]
    simp

theorem plain_append (h : Styled esc fin style Mark s t) (hEsc : esc ∉ s)
    (hOn : ∀ i, fin ∉ style.on i) (hOff : ∀ i, fin ∉ style.off i) (u : List α) :
    plain esc fin (t ++ u) = plain esc fin t ++ plain esc fin u := by
  rw [plain, h.tokens_append hEsc hOn hOff, List.filterMap_append]
  rfl

theorem codes_eq (h : Styled esc fin style Mark s t) (hEsc : esc ∉ s)
    (hOn : ∀ i, fin ∉ style.on i) (hOff : ∀ i, fin ∉ style.off i) :
    ∃ styles : List ι, codes esc fin t = styles.flatMap fun i => [style.on i, style.off i] := by
  induction h with
  | nil => exact ⟨[], codes_nil⟩
  | @keep a s t _ ih =>
    rw [List.mem_cons, not_or] at hEsc
    obtain ⟨styles, hStyles⟩ := ih hEsc.2
    have hClean : codes esc fin ([a] ++ t) = codes esc fin t :=
      codes_clean (by simpa using hEsc.1)
    exact ⟨styles, hClean.trans hStyles⟩
  | shed _ _ ih => exact ih fun hMem => hEsc (List.mem_cons_of_mem _ hMem)
  | @span i opened closed body _ _ s t _ ih =>
    simp only [List.mem_append, not_or] at hEsc
    obtain ⟨styles, hStyles⟩ := ih hEsc.2.2.2
    refine ⟨i :: styles, ?_⟩
    rw [code, code, List.cons_append, List.append_assoc, List.singleton_append, codes_code (hOn i),
      codes_clean hEsc.2.1, List.cons_append, List.append_assoc, List.singleton_append,
      codes_code (hOff i), hStyles]
    rfl

theorem plain_sheds (h : Styled esc fin style Mark s t) (hEsc : esc ∉ s)
    (hOn : ∀ i, fin ∉ style.on i) (hOff : ∀ i, fin ∉ style.off i) :
    Sheds Mark s (plain esc fin t) := by
  induction h with
  | nil =>
    rw [plain_nil]
    exact .nil
  | @keep a s t _ ih =>
    rw [List.mem_cons, not_or] at hEsc
    have hClean : plain esc fin ([a] ++ t) = [a] ++ plain esc fin t :=
      plain_clean (by simpa using hEsc.1)
    rw [List.singleton_append] at hClean
    rw [hClean]
    exact .keep a (ih hEsc.2)
  | shed ha _ ih => exact .shed ha (ih fun hMem => hEsc (List.mem_cons_of_mem _ hMem))
  | @span i opened closed body hOpened hClosed s t _ ih =>
    simp only [List.mem_append, not_or] at hEsc
    rw [code, code, List.cons_append, List.append_assoc, List.singleton_append, plain_code (hOn i),
      plain_clean hEsc.2.1, List.cons_append, List.append_assoc, List.singleton_append,
      plain_code (hOff i)]
    have hRest := (Sheds.all hClosed).append (ih hEsc.2.2.2)
    exact (Sheds.all hOpened).append ((Sheds.refl body).append hRest)

end Styled

end Markup
