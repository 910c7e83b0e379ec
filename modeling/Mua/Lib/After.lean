import Mathlib.Data.List.Basic

/-! # What follows a point of a history

Some prefixes of a history are points of interest. `Holds` says of every such
prefix what the rest of the history may be, and `Reached` that there is one. A
history grows by one entry at a time, and each entry is one case of `Holds.snoc`.
-/

namespace After

variable {O : Type*} {At At' : List O → Prop} {Then : List O → List O → Prop} {out : List O} {o : O}

def Reached (At : List O → Prop) (out : List O) : Prop :=
  ∃ before after, out = before ++ after ∧ At before

/-- What follows every point of the history is as `Then` says. -/
def Holds (At : List O → Prop) (Then : List O → List O → Prop) (out : List O) : Prop :=
  ∀ before after, out = before ++ after → At before → Then before after

theorem snoc_eq_append {before after : List O} (h : out ++ [o] = before ++ after) :
    (before = out ++ [o] ∧ after = []) ∨ ∃ rest, after = rest ++ [o] ∧ out = before ++ rest := by
  rcases List.eq_nil_or_concat after with rfl | ⟨rest, last, rfl⟩
  · rw [List.append_nil] at h
    exact .inl ⟨h.symm, rfl⟩
  · rw [List.concat_eq_append, ← List.append_assoc] at h
    obtain ⟨hOut, hLast⟩ := List.append_inj' h rfl
    obtain rfl := List.singleton_inj.mp hLast
    exact .inr ⟨rest, List.concat_eq_append, hOut⟩

theorem prefix_append_cases {told first second : List O} (h : told <+: first ++ second) :
    told <+: first ∨ ∃ later, told = first ++ later ∧ later <+: second := by
  rcases List.prefix_or_prefix_of_prefix h (List.prefix_append first second) with hFirst | hPast
  · exact .inl hFirst
  · obtain ⟨later, rfl⟩ := hPast
    exact .inr ⟨later, rfl, (List.prefix_append_right_inj first).mp h⟩

theorem Reached.of_snoc (h : Reached At (out ++ [o])) : At (out ++ [o]) ∨ Reached At out := by
  obtain ⟨before, after, hOut, hAt⟩ := h
  rcases snoc_eq_append hOut with ⟨rfl, -⟩ | ⟨rest, -, rfl⟩
  · exact .inl hAt
  · exact .inr ⟨before, rest, rfl, hAt⟩

theorem Holds.of_not_reached (h : ¬Reached At out) : Holds At Then out :=
  fun before after hOut hAt => absurd ⟨before, after, hOut, hAt⟩ h

theorem Holds.snoc (h : Holds At Then out) (hNew : At (out ++ [o]) → Then (out ++ [o]) [])
    (hOld : ∀ before after, out = before ++ after → At before → Then before after →
      Then before (after ++ [o])) : Holds At Then (out ++ [o]) := by
  intro before after hOut hAt
  rcases snoc_eq_append hOut with ⟨rfl, rfl⟩ | ⟨rest, rfl, hRest⟩
  · exact hNew hAt
  · exact hOld before rest hRest hAt (h before rest hRest hAt)

end After
