import Mathlib.Data.List.Basic

/-! # Executions one at a time

A log of starts and stops, keyed by an ordered type. `Idle` and `Busy` say that
every execution stopped before the next began and that their keys went up; the
first that none is running, the second that the last one is.
-/

namespace Serial

variable {K : Type*}

inductive Mark (K : Type*)
  | start (k : K)
  | stop (k : K)

def runs (ks : List K) : List (Mark K) := ks.flatMap fun k => [.start k, .stop k]

section

variable (r : K → K → Prop)

def Idle (marks : List (Mark K)) (bound : K) : Prop :=
  ∃ ks, marks = runs ks ∧ ks.Pairwise r ∧ ∀ k ∈ ks, r k bound

def Busy (marks : List (Mark K)) (key : K) : Prop :=
  ∃ ks, marks = runs ks ++ [.start key] ∧ ks.Pairwise r ∧ ∀ k ∈ ks, r k key

/-- Started strictly one at a time, in key order; only the last may still be running. -/
def Ordered (marks : List (Mark K)) : Prop :=
  ∃ ks, ks.Pairwise r ∧
    (marks = runs ks ∨ ∃ done key, ks = done ++ [key] ∧ marks = runs done ++ [.start key])

end

variable {r : K → K → Prop} {marks : List (Mark K)} {a b key : K}

theorem Idle.nil (b : K) : Idle r [] b := ⟨[], rfl, .nil, nofun⟩

theorem Idle.mono (h : Idle r marks a) (hMono : ∀ k, r k a → r k b) : Idle r marks b := by
  obtain ⟨ks, rfl, hSorted, hBelow⟩ := h
  exact ⟨ks, rfl, hSorted, fun k hk => hMono k (hBelow k hk)⟩

theorem Idle.start (h : Idle r marks key) : Busy r (marks ++ [.start key]) key := by
  obtain ⟨ks, rfl, hSorted, hBelow⟩ := h
  exact ⟨ks, rfl, hSorted, hBelow⟩

theorem Busy.stop (h : Busy r marks key) (hNext : r key b) (hMono : ∀ k, r k key → r k b) :
    Idle r (marks ++ [.stop key]) b := by
  obtain ⟨ks, rfl, hSorted, hBelow⟩ := h
  refine ⟨ks ++ [key], ?_, ?_, ?_⟩
  · simp [runs]
  · rw [List.pairwise_append]
    refine ⟨hSorted, List.pairwise_singleton _ _, ?_⟩
    intro k hk k' hk'
    exact List.mem_singleton.mp hk' ▸ hBelow k hk
  · intro k hk
    rcases List.mem_append.mp hk with hk | hk
    · exact hMono k (hBelow k hk)
    · exact List.mem_singleton.mp hk ▸ hNext

theorem Idle.ordered (h : Idle r marks b) : Ordered r marks := by
  obtain ⟨ks, rfl, hSorted, -⟩ := h
  exact ⟨ks, hSorted, .inl rfl⟩

theorem Busy.ordered (h : Busy r marks key) : Ordered r marks := by
  obtain ⟨ks, rfl, hSorted, hBelow⟩ := h
  refine ⟨ks ++ [key], ?_, .inr ⟨ks, key, rfl, rfl⟩⟩
  rw [List.pairwise_append]
  refine ⟨hSorted, List.pairwise_singleton _ _, ?_⟩
  intro k hk k' hk'
  exact List.mem_singleton.mp hk' ▸ hBelow k hk

end Serial
