import Mathlib.Data.List.Basic

/-! # Walks with an explicit stack

A loop over a stack of frames in place of a recursion. A move looks at the frame
on top and at the shared state; the frames below wait for the value the top one
delivers. `Reads` is the recursion the loop replaces, and `run_of_reads` says
that the loop computes it above any stack.
-/

namespace Walk

inductive Move (F S V E : Type*)
  | pop (value : V) (state : S)
  | next (frame : F) (state : S)
  | push (frame child : F) (state : S)
  | halt (err : E) (frame : F) (state : S)

/-- How a walk ends. A walk that halts leaves its frames, the top one first. -/
inductive Verdict (F S V E : Type*)
  | done (value : V) (state : S)
  | halted (err : E) (frames : List F) (state : S)

/-- Every move lowers the cost of what is on the stack and of the state. -/
structure Bound {F S V E : Type*} (move : Nat → F → S → Move F S V E) (give : F → V → F)
    (cost : List F → S → Nat) : Prop where
  pop_lt : ∀ f parent below s v s', move (below.length + 2) f s = .pop v s' →
    cost (give parent v :: below) s' < cost (f :: parent :: below) s
  next_lt : ∀ f below s f' s', move (below.length + 1) f s = .next f' s' →
    cost (f' :: below) s' < cost (f :: below) s
  push_lt : ∀ f below s f' child s', move (below.length + 1) f s = .push f' child s' →
    cost (child :: f' :: below) s' < cost (f :: below) s

/-- A loop body, told how many frames the stack holds, that cannot go on for ever. -/
structure Machine (F S V E : Type*) where
  move : Nat → F → S → Move F S V E
  give : F → V → F
  bounded : ∃ cost, Bound move give cost

namespace Machine

variable {F S V E : Type*} (m : Machine F S V E)

def run (f : F) (below : List F) (s : S) : Verdict F S V E :=
  match _hMove : m.move (below.length + 1) f s with
  | .next f' s' => run f' below s'
  | .push f' child s' => run child (f' :: below) s'
  | .halt e f' s' => .halted e (f' :: below) s'
  | .pop v s' =>
    match _hBelow : below with
    | [] => .done v s'
    | parent :: below => run (m.give parent v) below s'
termination_by m.bounded.choose (f :: below) s
decreasing_by
  · exact m.bounded.choose_spec.next_lt _ _ _ _ _ _hMove
  · exact m.bounded.choose_spec.push_lt _ _ _ _ _ _ _hMove
  · subst _hBelow
    exact m.bounded.choose_spec.pop_lt _ _ _ _ _ _ _hMove

/-- What the loop does with the value of the frame it has popped. -/
def resume (below : List F) (v : V) (s : S) : Verdict F S V E :=
  match below with
  | [] => .done v s
  | parent :: below => m.run (m.give parent v) below s

variable {m} {f f' child : F} {below : List F} {s s' : S}

theorem run_eq : m.run f below s =
    match m.move (below.length + 1) f s with
    | .pop v s' => m.resume below v s'
    | .next f' s' => m.run f' below s'
    | .push f' child s' => m.run child (f' :: below) s'
    | .halt e f' s' => .halted e (f' :: below) s' := by
  rw [run]
  split
  · rename_i hMove
    rw [hMove]
  · rename_i hMove
    rw [hMove]
  · rename_i hMove
    rw [hMove]
  · rename_i hMove
    cases below with
    | nil =>
      simp only [hMove]
      rfl
    | cons parent below =>
      simp only [hMove]
      rfl

variable (m)

/-- The walk of one frame and of all it opens, `depth` counting it. -/
inductive Reads : Nat → F → S → Verdict F S V E → Prop
  | pop {depth f s v s'} (h : m.move depth f s = .pop v s') : Reads depth f s (.done v s')
  | next {depth f s f' s' r} (h : m.move depth f s = .next f' s') (rest : Reads depth f' s' r) :
    Reads depth f s r
  | push {depth f s f' child s' v t r} (h : m.move depth f s = .push f' child s')
    (inner : Reads (depth + 1) child s' (.done v t)) (rest : Reads depth (m.give f' v) t r) :
    Reads depth f s r
  | halt {depth f s e f' s'} (h : m.move depth f s = .halt e f' s') :
    Reads depth f s (.halted e [f'] s')
  | inside {depth f s f' child s' e frames t} (h : m.move depth f s = .push f' child s')
    (inner : Reads (depth + 1) child s' (.halted e frames t)) :
    Reads depth f s (.halted e (frames ++ [f']) t)

def under (below : List F) : Verdict F S V E → Verdict F S V E
  | .done v s => m.resume below v s
  | .halted e frames s => .halted e (frames ++ below) s

variable {m}

theorem run_of_reads {depth : Nat} {r : Verdict F S V E} (h : m.Reads depth f s r)
    (hDepth : depth = below.length + 1) : m.run f below s = m.under below r := by
  induction h generalizing below with
  | pop h =>
    subst hDepth
    rw [run_eq, h]
    rfl
  | next h rest ih =>
    subst hDepth
    rw [run_eq, h]
    exact ih rfl
  | push h inner rest ihInner ihRest =>
    subst hDepth
    rw [run_eq, h]
    exact (ihInner rfl).trans (ihRest rfl)
  | halt h =>
    subst hDepth
    rw [run_eq, h]
    rfl
  | inside h inner ih =>
    subst hDepth
    rw [run_eq, h]
    refine (ih rfl).trans ?_
    simp [under]

theorem run_root {r : Verdict F S V E} (h : m.Reads 1 f s r) : m.run f [] s = r := by
  rw [run_of_reads h rfl]
  cases r with
  | done v t => rfl
  | halted e frames t => simp [under]

variable {E' : Type*}

def mapMove (g : E → E') : Move F S V E → Move F S V E'
  | .pop v s => .pop v s
  | .next f s => .next f s
  | .push f child s => .push f child s
  | .halt e f s => .halt (g e) f s

def mapVerdict (g : E → E') : Verdict F S V E → Verdict F S V E'
  | .done v s => .done v s
  | .halted e frames s => .halted (g e) frames s

theorem run_mapMove (m : Machine F S V E) (m' : Machine F S V E') {g : E → E'}
    (hMove : ∀ depth f s, m'.move depth f s = mapMove g (m.move depth f s))
    (hGive : ∀ f v, m'.give f v = m.give f v) (f : F) (below : List F) (s : S) :
    m'.run f below s = mapVerdict g (m.run f below s) := by
  induction f, below, s using Machine.run.induct m with
  | case1 f below s f' s' h ih =>
    rw [run_eq, hMove, h, run_eq, h]
    exact ih
  | case2 f below s f' child s' h ih =>
    rw [run_eq, hMove, h, run_eq, h]
    exact ih
  | case3 f below s e f' s' h =>
    rw [run_eq, hMove, h, run_eq, h]
    rfl
  | case4 f s v s' h =>
    have h' : m.move (([] : List F).length + 1) f s = .pop v s' := h
    rw [run_eq, hMove, h', run_eq, h']
    rfl
  | case5 f s v s' parent below h ih =>
    rw [run_eq, hMove, h, run_eq, h]
    simp only [mapMove, resume, hGive]
    exact ih

end Machine

end Walk
