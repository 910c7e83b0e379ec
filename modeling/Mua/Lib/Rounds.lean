import Mua.Lib.After
import Mathlib.Data.List.Forall2

/-! # Conversations in rounds

A conversation is a sequence of rounds. The head of a round may ask for replies,
and the replies follow it at once, one for each, in order. While the last round
is not fully answered the conversation owes the rest of its replies.
-/

namespace Rounds

variable {M C : Type*}

/-- What a head asks for, what answers a request, and which messages may head a round. -/
structure Grammar (M C : Type*) where
  asks : M → List C
  Answers : C → M → Prop
  Heads : M → Prop

variable {G : Grammar M C}

inductive Complete (G : Grammar M C) : List M → Prop
  | nil : Complete G []
  | round {head : M} {replies rest : List M} (hHead : G.Heads head)
      (hReplies : List.Forall₂ G.Answers (G.asks head) replies) (hRest : Complete G rest) :
      Complete G (head :: (replies ++ rest))

/-- The conversation is complete up to its last round, which still owes `pending`. -/
inductive Owes (G : Grammar M C) : List M → List C → Prop
  | settled {conv : List M} (h : Complete G conv) : Owes G conv []
  | dangling {done replies : List M} {head : M} {answered pending : List C}
      (hDone : Complete G done) (hHead : G.Heads head) (hAsks : G.asks head = answered ++ pending)
      (hReplies : List.Forall₂ G.Answers answered replies) :
      Owes G (done ++ head :: replies) pending

namespace Complete

theorem append {a b : List M} (ha : Complete G a) (hb : Complete G b) : Complete G (a ++ b) := by
  induction ha with
  | nil => exact hb
  | round hHead hReplies _ ih =>
    rw [List.cons_append, List.append_assoc]
    exact round hHead hReplies ih

theorem single {head : M} {replies : List M} (hHead : G.Heads head)
    (hReplies : List.Forall₂ G.Answers (G.asks head) replies) : Complete G (head :: replies) := by
  have := round hHead hReplies Complete.nil
  rwa [List.append_nil] at this

theorem replies_follow (hNone : ∀ c m, G.Answers c m → G.asks m = []) {conv : List M}
    (h : Complete G conv) {before after : List M} {m : M} (hConv : conv = before ++ m :: after) :
    ∃ replies rest, after = replies ++ rest ∧ List.Forall₂ G.Answers (G.asks m) replies := by
  -- the message heads this round, is one of its replies, or stands in a later round
  induction h generalizing before with
  | nil => simp at hConv
  | @round head replies rest hHead hReplies hRest ih =>
    cases before with
    | nil =>
      obtain ⟨rfl, rfl⟩ := List.cons.inj hConv
      exact ⟨replies, rest, rfl, hReplies⟩
    | cons head' before =>
      obtain ⟨rfl, hTail⟩ := List.cons.inj hConv
      rcases List.append_eq_append_iff.mp hTail with ⟨skipped, -, hRest⟩ | ⟨left, hLeft, hAfter⟩
      · exact ih hRest
      · cases left with
        | nil => exact ih (hAfter.symm.trans (List.nil_append _).symm)
        | cons m' left =>
          obtain ⟨rfl, -⟩ := List.cons.inj hAfter
          have hLast := List.forall₂_drop_append _ _ _ (hLeft ▸ hReplies)
          obtain ⟨c, -, hAnswers, -, -⟩ := List.forall₂_cons_right_iff.mp hLast
          exact ⟨[], after, rfl, hNone c m hAnswers ▸ .nil⟩

theorem heads_of_asks (hNone : ∀ c m, G.Answers c m → G.asks m = []) {conv : List M} {m : M}
    (h : Complete G conv) (hMem : m ∈ conv) (hAsks : G.asks m ≠ []) : G.Heads m := by
  induction h with
  | nil => cases hMem
  | @round head replies rest hHead hReplies _ ih =>
    rcases List.mem_cons.mp hMem with rfl | hMem
    · exact hHead
    rcases List.mem_append.mp hMem with hReply | hLater
    · obtain ⟨i, hi, rfl⟩ := List.getElem_of_mem hReply
      exact absurd (hNone _ _ (hReplies.get (hReplies.length_eq ▸ hi) hi)) hAsks
    · exact ih hLater

end Complete

namespace Owes

theorem complete {conv : List M} (h : Owes G conv []) : Complete G conv := by
  cases h with
  | settled h => exact h
  | dangling hDone hHead hAsks hReplies =>
    rw [List.append_nil] at hAsks
    exact hDone.append (Complete.single hHead (hAsks ▸ hReplies))

theorem head {conv : List M} {m : M} (h : Owes G conv []) (hHead : G.Heads m) :
    Owes G (conv ++ [m]) (G.asks m) :=
  dangling h.complete hHead (List.nil_append _).symm .nil

theorem reply {conv : List M} {c : C} {pending : List C} {m : M} (h : Owes G conv (c :: pending))
    (hAnswers : G.Answers c m) : Owes G (conv ++ [m]) pending := by
  cases h with
  | dangling hDone hHead hAsks hReplies =>
    rw [List.append_assoc, List.cons_append]
    refine dangling hDone hHead ?_ (List.rel_append hReplies (.cons hAnswers .nil))
    rw [hAsks, List.append_assoc]
    rfl

theorem prepend {done conv : List M} {pending : List C} (hDone : Complete G done)
    (h : Owes G conv pending) : Owes G (done ++ conv) pending := by
  cases h with
  | settled h => exact settled (hDone.append h)
  | dangling hMore hHead hAsks hReplies =>
    rw [← List.append_assoc]
    exact dangling (hDone.append hMore) hHead hAsks hReplies

end Owes

/-- What a conversation that follows the grammar may look like at any moment. -/
def Legal (G : Grammar M C) (conv : List M) : Prop := ∃ pending, Owes G conv pending

theorem legal_round {head : M} {replies told : List M} {answered pending : List C}
    (hHead : G.Heads head) (hAsks : G.asks head = answered ++ pending)
    (hReplies : List.Forall₂ G.Answers answered replies) (hTold : told <+: head :: replies) :
    Legal G told := by
  cases told with
  | nil => exact ⟨[], .settled .nil⟩
  | cons first told =>
    obtain ⟨rfl, later, rfl⟩ := List.cons_prefix_cons.mp hTold
    have hEarly := List.forall₂_take_append answered told later hReplies
    refine ⟨answered.drop told.length ++ pending, Owes.dangling .nil hHead ?_ hEarly⟩
    rw [hAsks, ← List.append_assoc, List.take_append_drop]

theorem Complete.legal_prefix {conv told : List M} (h : Complete G conv) (hTold : told <+: conv) :
    Legal G told := by
  induction h generalizing told with
  | nil =>
    rw [List.prefix_nil.mp hTold]
    exact ⟨[], .settled .nil⟩
  | @round head replies rest hHead hReplies hRest ih =>
    have hAsks : G.asks head = G.asks head ++ [] := (List.append_nil _).symm
    -- the cut falls into this round, or past it
    rw [← List.cons_append] at hTold
    rcases After.prefix_append_cases hTold with hRound | ⟨later, rfl, hLater⟩
    · exact legal_round hHead hAsks hReplies hRound
    · obtain ⟨pending, hOwes⟩ := ih hLater
      exact ⟨pending, hOwes.prepend (.single hHead hReplies)⟩

theorem Legal.of_prefix {conv told : List M} (h : Legal G conv) (hTold : told <+: conv) :
    Legal G told := by
  obtain ⟨pending, h⟩ := h
  cases h with
  | settled h => exact h.legal_prefix hTold
  | dangling hDone hHead hAsks hReplies =>
    rcases After.prefix_append_cases hTold with hEarly | ⟨later, rfl, hLater⟩
    · exact hDone.legal_prefix hEarly
    · obtain ⟨pending, hOwes⟩ := legal_round hHead hAsks hReplies hLater
      exact ⟨pending, hOwes.prepend hDone⟩

end Rounds
