import Mathlib.Logic.Function.Basic
import Mathlib.Data.List.Infix

/-! # Trees of directories

A position in a tree is the list of the names on the way to it, the innermost first. A path is
walked from a position one step at a time, through directories only. Making the prefixes of a path
one after the other, each walked from the start, comes to one walk that makes what is missing.
-/

namespace Directories

variable {ν ρ : Type*}

inductive Kind
  | directory
  | other
  deriving DecidableEq, Repr

structure DirTree (ν : Type*) where
  kind : List ν → Option Kind
  root : kind [] = some .directory
  closed : ∀ name pos, kind (name :: pos) ≠ none → kind pos = some .directory

inductive Step (ν : Type*)
  | stay
  | up
  | down (name : ν)
  deriving DecidableEq, Repr

inductive Fault (ρ : Type*)
  | missing
  | notDirectory
  | refused (reason : ρ)
  deriving DecidableEq, Repr

inductive Answer (ρ : Type*)
  | made
  | there
  | failed (fault : Fault ρ)
  deriving DecidableEq, Repr

def Step.target (pos : List ν) : Step ν → List ν
  | .stay => pos
  | .up => pos.tail
  | .down name => name :: pos

def DirTree.move (t : DirTree ν) (pos : List ν) (step : Step ν) : Except (Fault ρ) (List ν) :=
  if t.kind pos ≠ some .directory then .error .notDirectory
  else if t.kind (step.target pos) = none then .error .missing
  else .ok (step.target pos)

def DirTree.walk (t : DirTree ν) (pos : List ν) : List (Step ν) → Except (Fault ρ) (List ν)
  | [] => .ok pos
  | step :: rest => (t.move pos step).bind fun pos => t.walk pos rest

variable {t t' mid : DirTree ν} {pos start next : List ν} {step : Step ν}
  {steps more : List (Step ν)}

theorem move_ok : (t.move pos step : Except (Fault ρ) _) = .ok next ↔
    t.kind pos = some .directory ∧ t.kind (step.target pos) ≠ none ∧ step.target pos = next := by
  unfold DirTree.move
  split
  · rename_i hDir
    simp [hDir]
  · rename_i hDir
    rw [ne_eq, not_not] at hDir
    split
    · rename_i hNone
      simp [hNone]
    · rename_i hThere
      simp [hDir, hThere]

theorem target_there (h : t.kind pos = some .directory) (hStep : ∀ name, step ≠ .down name) :
    t.kind (step.target pos) = some .directory := by
  cases step with
  | stay => exact h
  | down name => exact absurd rfl (hStep name)
  | up =>
    cases pos with
    | nil => exact h
    | cons name above =>
      apply t.closed name above
      rw [h]
      exact Option.some_ne_none _

theorem walk_append : (t.walk pos (steps ++ more) : Except (Fault ρ) _) =
    (t.walk pos steps).bind fun pos => t.walk pos more := by
  induction steps generalizing pos with
  | nil => rfl
  | cons step rest ih =>
    rw [List.cons_append, DirTree.walk, DirTree.walk]
    cases (t.move pos step : Except (Fault ρ) _) with
    | error fault => rfl
    | ok next => exact ih

structure Extends (t t' : DirTree ν) : Prop where
  keeps : ∀ p k, t.kind p = some k → t'.kind p = some k
  news : ∀ p, t.kind p = none → t'.kind p ≠ none → t'.kind p = some .directory

theorem Extends.refl (t : DirTree ν) : Extends t t := ⟨fun _ _ h => h, fun _ h h' => absurd h h'⟩

theorem Extends.trans (h : Extends t mid) (h' : Extends mid t') : Extends t t' where
  keeps p k hKind := h'.keeps p k (h.keeps p k hKind)
  news p hNone hThere := by
    cases hMid : mid.kind p with
    | none => exact h'.news p hMid hThere
    | some k =>
      have hNew := h.news p hNone (by rw [hMid]; exact Option.some_ne_none k)
      exact h'.keeps p _ hNew

theorem Extends.there {p : List ν} (h : Extends t t') (hThere : t.kind p ≠ none) :
    t'.kind p ≠ none := by
  obtain ⟨k, hKind⟩ := Option.ne_none_iff_exists'.mp hThere
  rw [h.keeps p k hKind]
  exact Option.some_ne_none k

theorem Extends.walk (h : Extends t t')
    (hWalk : (t.walk pos steps : Except (Fault ρ) _) = .ok next) :
    (t'.walk pos steps : Except (Fault ρ) _) = .ok next := by
  induction steps generalizing pos with
  | nil => exact hWalk
  | cons step rest ih =>
    rw [DirTree.walk] at hWalk ⊢
    cases hMove : (t.move pos step : Except (Fault ρ) _) with
    | error fault =>
      rw [hMove] at hWalk
      cases hWalk
    | ok mid =>
      rw [hMove] at hWalk
      obtain ⟨hDir, hThere, hTarget⟩ := move_ok.mp hMove
      have hMove' : (t'.move pos step : Except (Fault ρ) _) = .ok mid :=
        move_ok.mpr ⟨h.keeps pos _ hDir, h.there hThere, hTarget⟩
      rw [hMove']
      exact ih hWalk

variable [DecidableEq ν]

def DirTree.add (t : DirTree ν) (pos : List ν) (name : ν) (h : t.kind pos = some .directory) :
    DirTree ν where
  kind := Function.update t.kind (name :: pos) (some .directory)
  root := t.root
  closed other above hThere := by
    by_cases hSame : above = name :: pos
    · rw [hSame, Function.update_self]
    rw [Function.update_of_ne hSame]
    by_cases hNew : other :: above = name :: pos
    · obtain ⟨-, rfl⟩ := List.cons.inj hNew
      exact h
    · rw [Function.update_of_ne hNew] at hThere
      exact t.closed other above hThere

theorem extends_add {name : ν} (h : t.kind pos = some .directory)
    (hNone : t.kind (name :: pos) = none) : Extends t (t.add pos name h) where
  keeps p k hKind := by
    have hNe : p ≠ name :: pos := by
      rintro rfl
      rw [hNone] at hKind
      cases hKind
    exact (Function.update_of_ne hNe _ _).trans hKind
  news p hp hThere := by
    by_cases hSame : p = name :: pos
    · rw [hSame]
      exact Function.update_self _ _ _
    · exact absurd ((Function.update_of_ne hSame _ _).trans hp) hThere

variable {refuse : List ν → Option ρ}

variable (refuse) in
def DirTree.makeAt (t : DirTree ν) (pos : List ν) (step : Step ν) : Answer ρ × DirTree ν :=
  if h : t.kind pos = some .directory then
    match step with
    | .down name =>
      if t.kind (name :: pos) ≠ none then (.there, t)
      else
        match refuse (name :: pos) with
        | some reason => (.failed (.refused reason), t)
        | none => (.made, t.add pos name h)
    | _ => (.there, t)
  else (.failed .notDirectory, t)

variable (refuse) in
def DirTree.mkdir (t : DirTree ν) (pos : List ν) : List (Step ν) → Answer ρ × DirTree ν
  | [] => (.there, t)
  | [step] => t.makeAt refuse pos step
  | step :: rest =>
    match t.move pos step with
    | .error fault => (.failed fault, t)
    | .ok pos => t.mkdir pos rest

/-- What one step makes: nothing that is there is touched, and the walk goes on behind it. -/
inductive Makes (refuse : List ν → Option ρ) (t : DirTree ν) (pos : List ν) (step : Step ν) :
    Answer ρ × DirTree ν → Prop
  | made {t' : DirTree ν} (hGrows : Extends t t')
      (hMove : (t'.move pos step : Except (Fault ρ) _) = .ok (step.target pos))
      (hOnly : ∀ p, t.kind p = none → t'.kind p ≠ none → p = step.target pos) :
      Makes refuse t pos step (.made, t')
  | there (hMove : (t.move pos step : Except (Fault ρ) _) = .ok (step.target pos)) :
      Makes refuse t pos step (.there, t)
  | notDirectory (hMove : (t.move pos step : Except (Fault ρ) _) = .error .notDirectory) :
      Makes refuse t pos step (.failed .notDirectory, t)
  | refused {reason : ρ} (hMove : (t.move pos step : Except (Fault ρ) _) = .error .missing)
      (hReason : refuse (step.target pos) = some reason) :
      Makes refuse t pos step (.failed (.refused reason), t)

theorem makeAt_makes (refuse : List ν → Option ρ) (t : DirTree ν) (pos : List ν) (step : Step ν) :
    Makes refuse t pos step (t.makeAt refuse pos step) := by
  unfold DirTree.makeAt
  split
  · rename_i hDir
    cases step with
    | stay =>
      apply Makes.there
      have hTarget := target_there hDir (by simp : ∀ name, Step.stay ≠ .down name)
      exact move_ok.mpr ⟨hDir, by rw [hTarget]; simp, rfl⟩
    | up =>
      apply Makes.there
      have hTarget := target_there hDir (by simp : ∀ name, Step.up ≠ .down name)
      exact move_ok.mpr ⟨hDir, by rw [hTarget]; simp, rfl⟩
    | down name =>
      dsimp only
      split
      · rename_i hThere
        exact .there (move_ok.mpr ⟨hDir, hThere, rfl⟩)
      · rename_i hNone
        rw [ne_eq, not_not] at hNone
        cases hReason : refuse (name :: pos) with
        | some reason =>
          refine .refused ?_ hReason
          rw [DirTree.move, if_neg (not_not_intro hDir)]
          exact if_pos hNone
        | none =>
          have hGrows := extends_add hDir hNone
          have hThere : (t.add pos name hDir).kind (name :: pos) = some .directory :=
            Function.update_self _ _ _
          refine .made hGrows (move_ok.mpr ⟨hGrows.keeps pos _ hDir, ?_, rfl⟩) fun p hp hNew => ?_
          · exact fun h => by rw [Step.target, hThere] at h; cases h
          · by_contra hOther
            exact hNew ((Function.update_of_ne hOther _ _).trans hp)
  · rename_i hDir
    apply Makes.notDirectory
    rw [DirTree.move, if_pos hDir]

theorem makeAt_there (h : (t.move pos step : Except (Fault ρ) _) = .ok next) :
    t.makeAt refuse pos step = (.there, t) := by
  obtain ⟨hDir, hThere, -⟩ := move_ok.mp h
  unfold DirTree.makeAt
  rw [dif_pos hDir]
  cases step with
  | stay => rfl
  | up => rfl
  | down name => exact if_pos hThere

theorem mkdir_snoc (h : (t.walk start steps : Except (Fault ρ) _) = .ok pos) :
    t.mkdir refuse start (steps ++ [step]) = t.makeAt refuse pos step := by
  induction steps generalizing start with
  | nil =>
    cases h
    rfl
  | cons first rest ih =>
    rw [DirTree.walk] at h
    obtain ⟨head, tail, hTail⟩ := List.exists_cons_of_ne_nil
      (List.append_ne_nil_of_right_ne_nil rest (List.cons_ne_nil step []))
    rw [List.cons_append, hTail, DirTree.mkdir]
    · cases hMove : (t.move start first : Except (Fault ρ) _) with
      | error fault =>
        rw [hMove] at h
        cases h
      | ok mid =>
        rw [hMove] at h
        dsimp only
        rw [← hTail]
        exact ih h
    · exact fun hNil => by cases hNil

theorem mkdir_there (h : (t.walk start steps : Except (Fault ρ) _) = .ok pos) :
    t.mkdir refuse start steps = (.there, t) := by
  rcases List.eq_nil_or_concat steps with rfl | ⟨front, last, rfl⟩
  · rfl
  · rw [List.concat_eq_append, walk_append] at h
    cases hFront : (t.walk start front : Except (Fault ρ) _) with
    | error fault =>
      rw [hFront] at h
      cases h
    | ok mid =>
      rw [hFront] at h
      change (t.walk mid [last] : Except (Fault ρ) _) = .ok pos at h
      rw [DirTree.walk] at h
      rw [List.concat_eq_append, mkdir_snoc hFront]
      cases hMove : (t.move mid last : Except (Fault ρ) _) with
      | error fault =>
        rw [hMove] at h
        cases h
      | ok next => exact makeAt_there hMove

variable (refuse) in
/-- One walk that makes what is missing behind the steps done. -/
def DirTree.ensure (t : DirTree ν) (pos : List ν) (done : List (Step ν)) :
    List (Step ν) → Option (List (Step ν) × Fault ρ) × DirTree ν
  | [] => (none, t)
  | step :: rest =>
    match t.makeAt refuse pos step with
    | (.failed fault, t) => (some (done ++ [step], fault), t)
    | (_, t) => t.ensure (step.target pos) (done ++ [step]) rest

variable (refuse) in
/-- The paths in turn, each from the start, up to the first that fails. -/
def DirTree.mkdirs (t : DirTree ν) (start : List ν) :
    List (List (Step ν)) → Option (List (Step ν) × Fault ρ) × DirTree ν
  | [] => (none, t)
  | path :: paths =>
    match t.mkdir refuse start path with
    | (.failed fault, t) => (some (path, fault), t)
    | (_, t) => t.mkdirs start paths

/-- Prefixes of a path up to the whole, none more than a step behind the one before. -/
inductive Prefixes (whole : List (Step ν)) : List (Step ν) → List (List (Step ν)) → Prop
  | nil : Prefixes whole whole []
  | same {done : List (Step ν)} {paths : List (List (Step ν))} (h : Prefixes whole done paths) :
      Prefixes whole done (done :: paths)
  | next {done : List (Step ν)} {step : Step ν} {paths : List (List (Step ν))}
      (h : Prefixes whole (done ++ [step]) paths) :
      Prefixes whole done ((done ++ [step]) :: paths)

variable {done whole : List (Step ν)} {paths : List (List (Step ν))}

omit [DecidableEq ν] in
theorem Prefixes.isPrefix (h : Prefixes whole done paths) : done <+: whole := by
  induction h with
  | nil => exact List.prefix_rfl
  | same h ih => exact ih
  | next h ih => exact (List.prefix_append _ _).trans ih

/-- To make the prefixes in turn is to make what is missing on one walk. -/
theorem mkdirs_eq_ensure (h : Prefixes whole done paths) (hWhole : done ++ steps = whole)
    (hWalk : (t.walk start done : Except (Fault ρ) _) = .ok pos) :
    t.mkdirs refuse start paths = t.ensure refuse pos done steps := by
  induction h generalizing t pos steps with
  | nil =>
    obtain rfl := List.append_right_eq_self.mp hWhole
    rfl
  | same h ih =>
    rw [DirTree.mkdirs, mkdir_there hWalk]
    exact ih hWhole hWalk
  | @next done step paths h ih =>
    obtain ⟨rest, hRest⟩ := h.isPrefix
    have hSteps : steps = step :: rest := by
      rw [← hRest, List.append_assoc] at hWhole
      exact List.append_cancel_left hWhole
    have hMakes := makeAt_makes refuse t pos step
    rw [DirTree.mkdirs, mkdir_snoc hWalk, hSteps, DirTree.ensure]
    generalize t.makeAt refuse pos step = r at hMakes ⊢
    have hNext : ∀ {t' : DirTree ν}, Extends t t' →
        (t'.move pos step : Except (Fault ρ) _) = .ok (step.target pos) →
        t'.mkdirs refuse start paths =
          t'.ensure refuse (step.target pos) (done ++ [step]) rest := by
      intro t' hGrows hMove
      refine ih hRest ?_
      rw [walk_append, hGrows.walk hWalk]
      change (t'.walk pos [step] : Except (Fault ρ) _) = _
      rw [DirTree.walk, hMove]
      rfl
    cases hMakes with
    | made hGrows hMove hOnly => exact hNext hGrows hMove
    | there hMove => exact hNext (Extends.refl t) hMove
    | notDirectory hMove => rfl
    | refused hMove hReason => rfl

/-- How the walk ends, by the tree it leaves: a step that fails is the first that does. -/
inductive Ends (refuse : List ν → Option ρ) (t : DirTree ν) (pos : List ν)
    (done steps : List (Step ν)) :
    Option (List (Step ν) × Fault ρ) → Prop
  | done {last : List ν} (h : (t.walk pos steps : Except (Fault ρ) _) = .ok last) :
      Ends refuse t pos done steps none
  | notDirectory {path front rest : List (Step ν)} {step : Step ν} {last : List ν}
      (hSteps : front ++ step :: rest = steps) (hPath : path = done ++ (front ++ [step]))
      (hWalk : (t.walk pos front : Except (Fault ρ) _) = .ok last)
      (hMove : (t.move last step : Except (Fault ρ) _) = .error .notDirectory) :
      Ends refuse t pos done steps (some (path, .notDirectory))
  | refused {path front rest : List (Step ν)} {step : Step ν} {last : List ν} {reason : ρ}
      (hSteps : front ++ step :: rest = steps) (hPath : path = done ++ (front ++ [step]))
      (hWalk : (t.walk pos front : Except (Fault ρ) _) = .ok last)
      (hMove : (t.move last step : Except (Fault ρ) _) = .error .missing)
      (hReason : refuse (step.target last) = some reason) :
      Ends refuse t pos done steps (some (path, .refused reason))

omit [DecidableEq ν] in
theorem walk_cons (hMove : (t.move pos step : Except (Fault ρ) _) = .ok next) :
    (t.walk pos (step :: steps) : Except (Fault ρ) _) = t.walk next steps := by
  rw [DirTree.walk, hMove]
  rfl

omit [DecidableEq ν] in
theorem Ends.cons (hMove : (t.move pos step : Except (Fault ρ) _) = .ok (step.target pos))
    {fault : Option (List (Step ν) × Fault ρ)}
    (h : Ends refuse t (step.target pos) (done ++ [step]) steps fault) :
    Ends refuse t pos done (step :: steps) fault := by
  cases h with
  | done h => exact .done ((walk_cons hMove).trans h)
  | @notDirectory path front rest last _ hSteps hPath hWalk hFails =>
    rw [List.append_assoc] at hPath
    exact .notDirectory (congrArg (step :: ·) hSteps) hPath ((walk_cons hMove).trans hWalk) hFails
  | @refused path front rest last _ _ hSteps hPath hWalk hFails hReason =>
    rw [List.append_assoc] at hPath
    exact .refused (congrArg (step :: ·) hSteps) hPath ((walk_cons hMove).trans hWalk) hFails
      hReason

def OnWay (ρ : Type*) (t t' : DirTree ν) (pos : List ν) (steps : List (Step ν)) : Prop :=
  ∀ p, t.kind p = none → t'.kind p ≠ none →
    ∃ front, front <+: steps ∧ (t'.walk pos front : Except (Fault ρ) _) = .ok p

theorem ensure_ends (refuse : List ν → Option ρ) (t : DirTree ν) (pos : List ν)
    (done steps : List (Step ν)) :
    Extends t (t.ensure refuse pos done steps).2 ∧
      Ends refuse (t.ensure refuse pos done steps).2 pos done steps
        (t.ensure refuse pos done steps).1 ∧
      OnWay ρ t (t.ensure refuse pos done steps).2 pos steps := by
  induction steps generalizing t pos done with
  | nil => exact ⟨Extends.refl t, .done rfl, fun p hp hNew => absurd hp hNew⟩
  | cons step rest ih =>
    have hMakes := makeAt_makes refuse t pos step
    rw [DirTree.ensure]
    generalize t.makeAt refuse pos step = r at hMakes ⊢
    have hNext : ∀ mid : DirTree ν, Extends t mid →
        (mid.move pos step : Except (Fault ρ) _) = .ok (step.target pos) →
        (∀ p, t.kind p = none → mid.kind p ≠ none → p = step.target pos) →
        Extends t (mid.ensure refuse (step.target pos) (done ++ [step]) rest).2 ∧
          Ends refuse (mid.ensure refuse (step.target pos) (done ++ [step]) rest).2 pos done
            (step :: rest) (mid.ensure refuse (step.target pos) (done ++ [step]) rest).1 ∧
          OnWay ρ t (mid.ensure refuse (step.target pos) (done ++ [step]) rest).2 pos
            (step :: rest) := by
      intro mid hGrows hMove hOnly
      obtain ⟨hMore, hEnds, hNews⟩ := ih mid (step.target pos) (done ++ [step])
      generalize mid.ensure refuse (step.target pos) (done ++ [step]) rest = last
        at hMore hEnds hNews ⊢
      obtain ⟨hDir, hThere, -⟩ := move_ok.mp hMove
      have hLast : (last.2.move pos step : Except (Fault ρ) _) = .ok (step.target pos) :=
        move_ok.mpr ⟨hMore.keeps pos _ hDir, hMore.there hThere, rfl⟩
      refine ⟨hGrows.trans hMore, hEnds.cons hLast, fun p hp hNew => ?_⟩
      by_cases hMid : mid.kind p = none
      · obtain ⟨front, hFront, hWalk⟩ := hNews p hMid hNew
        exact ⟨step :: front, List.cons_prefix_cons.mpr ⟨rfl, hFront⟩,
          (walk_cons hLast).trans hWalk⟩
      · refine ⟨[step], List.cons_prefix_cons.mpr ⟨rfl, List.nil_prefix⟩, ?_⟩
        rw [hOnly p hp hMid, walk_cons hLast]
        rfl
    cases hMakes with
    | made hGrows hMove hOnly => exact hNext _ hGrows hMove hOnly
    | there hMove => exact hNext t (Extends.refl t) hMove fun p hp hNew => absurd hp hNew
    | notDirectory hMove =>
      refine ⟨Extends.refl t, ?_, fun p hp hNew => absurd hp hNew⟩
      exact .notDirectory (List.nil_append (step :: rest)) rfl rfl hMove
    | refused hMove hReason =>
      refine ⟨Extends.refl t, ?_, fun p hp hNew => absurd hp hNew⟩
      exact .refused (List.nil_append (step :: rest)) rfl rfl hMove hReason

theorem ensure_there (h : (t.walk pos steps : Except (Fault ρ) _) = .ok next) :
    t.ensure refuse pos done steps = (none, t) := by
  induction steps generalizing pos done with
  | nil => rfl
  | cons step rest ih =>
    rw [DirTree.walk] at h
    cases hMove : (t.move pos step : Except (Fault ρ) _) with
    | error fault =>
      rw [hMove] at h
      cases h
    | ok mid =>
      rw [hMove] at h
      obtain ⟨-, -, rfl⟩ := move_ok.mp hMove
      rw [DirTree.ensure, makeAt_there hMove]
      exact ih h

end Directories
