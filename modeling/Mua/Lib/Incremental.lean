import Mathlib.Data.List.Basic

/-! # Machines fed in pieces

A machine consumes one symbol at a time and may halt with a verdict. Feeding it
a list of chunks by a procedure that does on each chunk what the machine does
symbol by symbol depends on the concatenation of the chunks only.
-/

namespace Incremental

variable {S E A : Type*}

/-- Runs the machine over a word, halting at the first verdict. -/
def consume (step : S → A → Except E S) : S → List A → Except E S
  | s, [] => .ok s
  | s, a :: word =>
    match step s a with
    | .ok s' => consume step s' word
    | .error e => .error e

/-- Feeds chunks in order by `feed`, halting at the first verdict. -/
def consumeChunks (feed : S → List A → Except E S) : S → List (List A) → Except E S
  | s, [] => .ok s
  | s, chunk :: chunks =>
    match feed s chunk with
    | .ok s' => consumeChunks feed s' chunks
    | .error e => .error e

variable {step : S → A → Except E S} {feed : S → List A → Except E S}

@[simp] theorem consume_nil (s : S) : consume step s [] = .ok s := rfl

theorem consume_cons_ok {s s' : S} {a : A} (h : step s a = .ok s') (word : List A) :
    consume step s (a :: word) = consume step s' word := by
  rw [consume, h]

theorem consume_cons_error {s : S} {a : A} {e : E} (h : step s a = .error e) (word : List A) :
    consume step s (a :: word) = .error e := by
  rw [consume, h]

theorem consume_append (s : S) (u v : List A) :
    consume step s (u ++ v) =
      match consume step s u with
      | .ok s' => consume step s' v
      | .error e => .error e := by
  induction u generalizing s with
  | nil => rfl
  | cons a u ih =>
    rw [List.cons_append, consume, consume]
    cases step s a with
    | ok s' => exact ih s'
    | error e => rfl

theorem consume_append_ok {s s' : S} {u : List A} (h : consume step s u = .ok s') (v : List A) :
    consume step s (u ++ v) = consume step s' v := by
  rw [consume_append, h]

theorem consume_append_error {s : S} {e : E} {u : List A} (h : consume step s u = .error e)
    (v : List A) : consume step s (u ++ v) = .error e := by
  rw [consume_append, h]

theorem consume_invariant (Inv : S → Prop)
    (hStep : ∀ s a s', Inv s → step s a = .ok s' → Inv s')
    {s s' : S} {word : List A} (hs : Inv s) (h : consume step s word = .ok s') : Inv s' := by
  induction word generalizing s with
  | nil => exact Except.ok.inj h ▸ hs
  | cons a word ih =>
    rw [consume] at h
    cases ha : step s a with
    | ok t =>
      rw [ha] at h
      exact ih (hStep s a t hs ha) h
    | error e =>
      rw [ha] at h
      cases h

theorem consume_map {f : S → S} (hStep : ∀ s a, step (f s) a = (step s a).map f) (s : S)
    (word : List A) : consume step (f s) word = (consume step s word).map f := by
  induction word generalizing s with
  | nil => rfl
  | cons a word ih =>
    rw [consume, consume, hStep]
    cases step s a with
    | ok s' => exact ih s'
    | error e => rfl

theorem consumeChunks_eq_consume {I : S → Prop}
    (hStep : ∀ s a s', I s → step s a = .ok s' → I s')
    (hFeed : ∀ s word, I s → feed s word = consume step s word)
    {s : S} (hs : I s) (chunks : List (List A)) :
    consumeChunks feed s chunks = consume step s chunks.flatten := by
  induction chunks generalizing s with
  | nil => rfl
  | cons chunk chunks ih =>
    rw [consumeChunks, List.flatten_cons, consume_append, hFeed s chunk hs]
    cases h : consume step s chunk with
    | ok s' => exact ih (consume_invariant _ hStep hs h)
    | error e => rfl

end Incremental
