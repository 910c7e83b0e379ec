import Mathlib.Data.List.Basic

/-! # Separated lists between brackets

Items with a separator between them, up to a closing symbol. The reader takes any reader
of one item and any way of skipping blanks; an error carries what was left. A list that
was shown is read back, and a list that was read is read the same whatever follows it.
-/

namespace Separated

variable {α σ : Type*}

abbrev Reader (α σ : Type*) := List σ → Except (List σ) (α × List σ)

def joined (sep : σ) : List (List σ) → List σ
  | [] => []
  | [piece] => piece
  | piece :: rest => piece ++ sep :: joined sep rest

theorem joined_cons {sep : σ} (piece next : List σ) (rest : List (List σ)) :
    joined sep (piece :: next :: rest) = piece ++ sep :: joined sep (next :: rest) := rfl

theorem joined_forall {P : σ → Prop} {sep : σ} {pieces : List (List σ)}
    (hPieces : ∀ piece ∈ pieces, ∀ c ∈ piece, P c) (hSep : P sep) :
    ∀ c ∈ joined sep pieces, P c := by
  induction pieces with
  | nil =>
    intro c hc
    cases hc
  | cons piece rest ih =>
    rw [List.forall_mem_cons] at hPieces
    cases rest with
    | nil => exact hPieces.1
    | cons next rest =>
      intro c hc
      rw [joined_cons, List.mem_append, List.mem_cons] at hc
      rcases hc with hc | rfl | hc
      · exact hPieces.1 c hc
      · exact hSep
      · exact ih hPieces.2 c hc

theorem length_pieces (sep : σ) (pieces : List (List σ)) :
    pieces.length ≤ (joined sep pieces).length + 1 := by
  induction pieces with
  | nil => exact Nat.zero_le _
  | cons piece rest ih =>
    cases rest with
    | nil => exact Nat.succ_le_succ (Nat.zero_le _)
    | cons next rest =>
      rw [joined_cons, List.length_append, List.length_cons, List.length_cons (a := sep)]
      omega

variable [DecidableEq σ]

def items (item : Reader α σ) (skip : List σ → List σ) (sep close : σ) : Nat → Reader (List α) σ
  | 0, text => .error text
  | turns + 1, text =>
    match item text with
    | .error left => .error left
    | .ok (a, left) =>
      match skip left with
      | [] => .error []
      | c :: left =>
        if c = sep then (items item skip sep close turns left).map fun r => (a :: r.1, r.2)
        else if c = close then .ok ([a], left)
        else .error (c :: left)

variable {item : Reader α σ} {skip : List σ → List σ} {sep close : σ} {turns : Nat}
  {text left : List σ} {as : List α}

/-- Blanks are skipped up to a separator or the end, and these stay. -/
structure Skips (skip : List σ → List σ) (sep close : σ) : Prop where
  sep : ∀ text, skip (sep :: text) = sep :: text
  close : ∀ text, skip (close :: text) = close :: text
  length : ∀ text, (skip text).length ≤ text.length

/-- How a list of items was read. -/
theorem items_cases (h : items item skip sep close (turns + 1) text = .ok (as, left)) :
    ∃ a behind c rest, item text = .ok (a, behind) ∧ skip behind = c :: rest ∧
      ((c = sep ∧ ∃ more, items item skip sep close turns rest = .ok (more, left) ∧
          as = a :: more) ∨
        (c ≠ sep ∧ c = close ∧ as = [a] ∧ left = rest)) := by
  rw [items] at h
  cases hItem : item text with
  | error e =>
    rw [hItem] at h
    cases h
  | ok r =>
    obtain ⟨a, behind⟩ := r
    rw [hItem] at h
    dsimp only at h
    cases hSkip : skip behind with
    | nil =>
      rw [hSkip] at h
      cases h
    | cons c rest =>
      rw [hSkip] at h
      dsimp only at h
      refine ⟨a, behind, c, rest, rfl, hSkip, ?_⟩
      split at h
      · rename_i hSep
        cases hMore : items item skip sep close turns rest with
        | error e =>
          rw [hMore] at h
          cases h
        | ok more =>
          rw [hMore] at h
          cases h
          exact .inl ⟨hSep, more.1, rfl, rfl⟩
      split at h
      · rename_i hSep hClose
        cases h
        exact .inr ⟨hSep, hClose, rfl, rfl⟩
      · cases h

/-- The reader gives back what was shown, before any text that may follow an item. -/
def ReadsBack (item : Reader α σ) (shown : α → List σ) (Follows : List σ → Prop) (a : α) : Prop :=
  ∀ text, Follows text → item (shown a ++ text) = .ok (a, text)

theorem items_joined {shown : α → List σ} {Follows : List σ → Prop} (hSkips : Skips skip sep close)
    (hNe : sep ≠ close) (hSep : ∀ text, Follows (sep :: text))
    (hClose : ∀ text, Follows (close :: text)) (hAs : as ≠ [])
    (hItems : ∀ a ∈ as, ReadsBack item shown Follows a) (hTurns : as.length ≤ turns) :
    items item skip sep close turns (joined sep (as.map shown) ++ close :: left) =
      .ok (as, left) := by
  induction as generalizing turns with
  | nil => exact absurd rfl hAs
  | cons a as ih =>
    obtain ⟨n, rfl⟩ : ∃ n, turns = n + 1 := ⟨turns - 1, by rw [List.length_cons] at hTurns; omega⟩
    rw [List.length_cons, Nat.add_le_add_iff_right] at hTurns
    rw [List.forall_mem_cons] at hItems
    rw [items]
    cases as with
    | nil =>
      rw [List.map_singleton, joined, hItems.1 _ (hClose left)]
      dsimp only
      rw [hSkips.close]
      dsimp only
      rw [if_neg (Ne.symm hNe), if_pos rfl]
    | cons b as =>
      have hJoined : joined sep ((a :: b :: as).map shown) ++ close :: left =
          shown a ++ sep :: (joined sep ((b :: as).map shown) ++ close :: left) := by
        rw [List.map_cons, List.map_cons, joined_cons, List.append_assoc, List.cons_append]
      rw [hJoined, hItems.1 _ (hSep _)]
      dsimp only
      rw [hSkips.sep]
      dsimp only
      rw [if_pos rfl, ih (List.cons_ne_nil b as) hItems.2 hTurns]
      rfl

/-- What was read is read the same before any further text, if what was left began with a symbol
that ends an item. -/
def SettledBy (Ends : σ → Prop) (item : Reader α σ) : Prop :=
  ∀ text a b left more, item text = .ok (a, b :: left) → Ends b →
    item (text ++ more) = .ok (a, b :: left ++ more)

/-- A separator or a closing symbol behind blanks ends an item, and stays with further text. -/
structure Settles (Ends : σ → Prop) (skip : List σ → List σ) (sep close : σ) : Prop where
  ends : ∀ text c left, skip text = c :: left → c = sep ∨ c = close →
    ∃ b rest, text = b :: rest ∧ Ends b
  grows : ∀ text c left more, skip text = c :: left → c = sep ∨ c = close →
    skip (text ++ more) = c :: left ++ more

theorem items_settled {Ends : σ → Prop} (hItem : SettledBy Ends item)
    (hSkip : Settles Ends skip sep close) (h : items item skip sep close turns text = .ok (as, left))
    (more : List σ) {n : Nat} (hn : turns ≤ n) :
    items item skip sep close n (text ++ more) = .ok (as, left ++ more) := by
  induction turns generalizing n text as with
  | zero => cases h
  | succ turns ih =>
    obtain ⟨m, rfl⟩ : ∃ m, n = m + 1 := ⟨n - 1, by omega⟩
    obtain ⟨a, behind, c, rest, hRead, hSkipped, hEnd⟩ := items_cases h
    have hc : c = sep ∨ c = close := hEnd.imp And.left fun hClose => hClose.2.1
    obtain ⟨b, behind, rfl, hb⟩ := hSkip.ends _ _ _ hSkipped hc
    rw [items, hItem _ _ _ _ more hRead hb]
    dsimp only
    rw [hSkip.grows _ _ _ more hSkipped hc]
    dsimp only [List.cons_append]
    rcases hEnd with ⟨hSep, others, hOthers, rfl⟩ | ⟨hSep, hClose, rfl, rfl⟩
    · rw [if_pos hSep, ih hOthers (by omega)]
      rfl
    · rw [if_neg hSep, if_pos hClose]

theorem items_forall {P : α → Prop} (hItem : ∀ text a left, item text = .ok (a, left) → P a)
    (h : items item skip sep close turns text = .ok (as, left)) : ∀ a ∈ as, P a := by
  induction turns generalizing text as with
  | zero => cases h
  | succ turns ih =>
    obtain ⟨a, behind, c, rest, hRead, -, ⟨-, more, hMore, rfl⟩ | ⟨-, -, rfl, -⟩⟩ := items_cases h
    · exact List.forall_mem_cons.mpr ⟨hItem _ _ _ hRead, ih hMore⟩
    · exact List.forall_mem_singleton.mpr (hItem _ _ _ hRead)

end Separated
