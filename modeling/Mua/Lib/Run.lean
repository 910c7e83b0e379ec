import Mathlib.Order.Basic

/-! # Runs of a partial step function

A transition system is a step function `σ → ε → Option σ`: `none` is an event
that cannot happen in that state. A run folds it over a list of events; what
every step preserves, every run preserves.
-/

namespace Run

variable {σ τ ε : Type*}

def run (step : σ → ε → Option σ) (s : σ) : List ε → Option σ
  | [] => some s
  | e :: es => (step s e).bind fun s' => run step s' es

variable {step : σ → ε → Option σ} {s s' : σ} {e : ε} {es : List ε}

@[simp] theorem run_nil : run step s [] = some s := rfl

theorem run_cons_eq_some :
    run step s (e :: es) = some s' ↔ ∃ mid, step s e = some mid ∧ run step mid es = some s' := by
  rw [run, Option.bind_eq_some_iff]

theorem run_cons (hStep : step s e = some s') : run step s (e :: es) = run step s' es := by
  rw [run, hStep, Option.bind_some]

theorem run_append_eq_some {es₁ es₂ : List ε} :
    run step s (es₁ ++ es₂) = some s' ↔
      ∃ mid, run step s es₁ = some mid ∧ run step mid es₂ = some s' := by
  induction es₁ generalizing s with
  | nil => simp
  | cons e es ih =>
    rw [List.cons_append, run_cons_eq_some]
    constructor
    · rintro ⟨t, hStep, hRun⟩
      obtain ⟨mid, hFirst, hLast⟩ := ih.mp hRun
      exact ⟨mid, run_cons_eq_some.mpr ⟨t, hStep, hFirst⟩, hLast⟩
    · rintro ⟨mid, hFirst, hLast⟩
      obtain ⟨t, hStep, hRest⟩ := run_cons_eq_some.mp hFirst
      exact ⟨t, hStep, ih.mpr ⟨mid, hRest, hLast⟩⟩

theorem run_invariant_of {I : σ → Prop} {P : ε → Prop}
    (hStep : ∀ s e s', P e → I s → step s e = some s' → I s') (hEvents : ∀ e ∈ es, P e)
    (hInv : I s) (hRun : run step s es = some s') : I s' := by
  induction es generalizing s with
  | nil => exact Option.some.inj hRun ▸ hInv
  | cons e es ih =>
    obtain ⟨mid, hFirst, hRest⟩ := run_cons_eq_some.mp hRun
    have hMid := hStep s e mid (hEvents e List.mem_cons_self) hInv hFirst
    exact ih (fun e' he' => hEvents e' (List.mem_cons_of_mem e he')) hMid hRest

theorem run_invariant {I : σ → Prop} (hStep : ∀ s e s', I s → step s e = some s' → I s')
    (hInv : I s) (hRun : run step s es = some s') : I s' := by
  have hAny : ∀ s e s', True → I s → step s e = some s' → I s' := fun s e s' _ => hStep s e s'
  exact run_invariant_of hAny (fun _ _ => trivial) hInv hRun

/-- Every step of the run, with the states before and after it, is as `P` says. -/
def Along (step : σ → ε → Option σ) (P : σ → ε → σ → Prop) (s : σ) : List ε → Prop
  | [] => True
  | e :: es => ∀ s', step s e = some s' → P s e s' ∧ Along step P s' es

variable {P Q : σ → ε → σ → Prop}

theorem Along.cons (hStep : step s e = some s') (hP : P s e s') (hRest : Along step P s' es) :
    Along step P s (e :: es) := by
  intro next hNext
  obtain rfl := Option.some.inj (hStep.symm.trans hNext)
  exact ⟨hP, hRest⟩

theorem Along.and (hP : Along step P s es) (hQ : Along step Q s es) :
    Along step (fun s e s' => P s e s' ∧ Q s e s') s es := by
  induction es generalizing s with
  | nil => trivial
  | cons e es ih =>
    intro s' hStep
    obtain ⟨hP, hRestP⟩ := hP s' hStep
    obtain ⟨hQ, hRestQ⟩ := hQ s' hStep
    exact ⟨⟨hP, hQ⟩, ih hRestP hRestQ⟩

theorem run_invariant_along {I : σ → Prop}
    (hStep : ∀ s e s', P s e s' → I s → step s e = some s' → I s') (hAlong : Along step P s es)
    (hInv : I s) (hRun : run step s es = some s') : I s' := by
  induction es generalizing s with
  | nil => exact Option.some.inj hRun ▸ hInv
  | cons e es ih =>
    obtain ⟨mid, hFirst, hRest⟩ := run_cons_eq_some.mp hRun
    obtain ⟨hKind, hLater⟩ := hAlong mid hFirst
    exact ih hLater (hStep s e mid hKind hInv hFirst) hRest

end Run
