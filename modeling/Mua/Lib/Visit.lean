import Mathlib.Data.List.Nodup
import Mua.Lib.Rebuild

/-! # The places a walk comes to

The loop of a walk with a log of the places it takes children from. The log changes
nothing of the walk, and over a tree with no more containers inside one another than
the stack has room for, it names every place of the tree once.
-/

namespace Walk

/-- Where a node stands: the index of a child at each level, from the root. -/
abbrev Place := List Nat

section Tree

variable {X Y : Type*} {kids : X → List X}

variable (kids) in
def nodeAt : X → Place → Option X
  | x, [] => some x
  | x, i :: p => ((kids x)[i]?).bind fun c => nodeAt c p

variable (kids) in
/-- Every place of the tree is in the log, once, and nothing else is. -/
def EachOnce (x : X) (log : List Place) : Prop :=
  log.Nodup ∧ ∀ p, p ∈ log ↔ (nodeAt kids x p).isSome = true

variable (kids) in
/-- The same for the trees of a list, of which the first is child `i`. -/
def EachOnceFrom (i : Nat) (xs : List X) (log : List Place) : Prop :=
  log.Nodup ∧ ∀ p, p ∈ log ↔
    ∃ j q x, p = (i + j) :: q ∧ xs[j]? = some x ∧ (nodeAt kids x q).isSome = true

theorem eachOnceFrom_nil (i : Nat) : EachOnceFrom kids i [] [] := by
  refine ⟨.nil, fun p => ⟨nofun, ?_⟩⟩
  rintro ⟨j, q, x, -, hGet, -⟩
  cases hGet

theorem eachOnceFrom_cons {i : Nat} {x : X} {xs : List X} {log log' : List Place}
    (h : EachOnce kids x log) (h' : EachOnceFrom kids (i + 1) xs log') :
    EachOnceFrom kids i (x :: xs) (log.map (i :: ·) ++ log') := by
  constructor
  · refine List.nodup_append.mpr ⟨h.1.map List.cons_injective, h'.1, ?_⟩
    rintro p hp q hq rfl
    obtain ⟨p, -, rfl⟩ := List.mem_map.mp hp
    obtain ⟨j, q, y, hEq, -⟩ := (h'.2 _).mp hq
    have := (List.cons.inj hEq).1
    omega
  · intro p
    rw [List.mem_append, List.mem_map, h'.2]
    constructor
    · rintro (⟨q, hq, rfl⟩ | ⟨j, q, y, rfl, hGet, hAt⟩)
      · exact ⟨0, q, x, rfl, rfl, (h.2 q).mp hq⟩
      · refine ⟨j + 1, q, y, ?_, hGet, hAt⟩
        rw [Nat.add_assoc, Nat.add_comm 1 j]
    · rintro ⟨j, q, y, rfl, hGet, hAt⟩
      cases j with
      | zero =>
        cases hGet
        exact .inl ⟨q, (h.2 q).mpr hAt, rfl⟩
      | succ j =>
        refine .inr ⟨j, q, y, ?_, hGet, hAt⟩
        rw [Nat.add_assoc, Nat.add_comm 1 j]

theorem eachOnce_node {x : X} {log : List Place} (h : EachOnceFrom kids 0 (kids x) log) :
    EachOnce kids x ([] :: log) := by
  constructor
  · refine List.nodup_cons.mpr ⟨fun hMem => ?_, h.1⟩
    obtain ⟨j, q, y, hEq, -⟩ := (h.2 []).mp hMem
    cases hEq
  · intro p
    rw [List.mem_cons, h.2]
    cases p with
    | nil => exact ⟨fun _ => rfl, fun _ => .inl rfl⟩
    | cons i p =>
      constructor
      · rintro (hEq | ⟨j, q, y, hEq, hGet, hAt⟩)
        · cases hEq
        · cases hEq
          rw [nodeAt, Nat.zero_add, hGet]
          exact hAt
      · intro hAt
        rw [nodeAt] at hAt
        cases hGet : (kids x)[i]? with
        | none =>
          rw [hGet] at hAt
          cases hAt
        | some y =>
          rw [hGet] at hAt
          exact .inr ⟨i, p, y, by rw [Nat.zero_add], hGet, hAt⟩

theorem eachOnce_leaf {x : X} (h : kids x = []) : EachOnce kids x [[]] := by
  apply eachOnce_node
  rw [h]
  exact eachOnceFrom_nil 0

theorem nodeAt_map {kids' : Y → List Y} {f : X → Y} (h : ∀ x, kids' (f x) = (kids x).map f)
    (x : X) (p : Place) : nodeAt kids' (f x) p = (nodeAt kids x p).map f := by
  induction p generalizing x with
  | nil => rfl
  | cons i p ih =>
    rw [nodeAt, nodeAt, h, List.getElem?_map]
    cases (kids x)[i]? with
    | none => rfl
    | some c => exact ih c

theorem EachOnce.map {kids' : Y → List Y} {f : X → Y} (h : ∀ x, kids' (f x) = (kids x).map f)
    {x : X} {log : List Place} (hOnce : EachOnce kids x log) : EachOnce kids' (f x) log := by
  refine ⟨hOnce.1, fun p => ?_⟩
  rw [hOnce.2, nodeAt_map h, Option.isSome_map]

end Tree

/-- A frame with the place of its container and the number of children taken off it. -/
structure Located (F : Type*) where
  frame : F
  place : Place
  index : Nat

def Located.child {F : Type*} (f : Located F) : Place := f.place ++ [f.index]

def Located.past {F : Type*} (f : Located F) (frame : F) : Located F :=
  ⟨frame, f.place, f.index + 1⟩

namespace Machine

variable {F S V E : Type*} (m : Machine F S V E)

def visit (depth : Nat) (f : Located F) (s : S × List Place) :
    Move (Located F) (S × List Place) V E :=
  match m.move depth f.frame s.1 with
  | .pop v t => .pop v (t, s.2)
  | .next frame t => .next (f.past frame) (t, s.2 ++ [f.child])
  | .push frame child t => .push (f.past frame) ⟨child, f.child, 0⟩ (t, s.2 ++ [f.child])
  | .halt e frame t => .halt e { f with frame := frame } (t, s.2)

variable {m} {depth : Nat} {f g : Located F} {s t : S × List Place}

theorem visit_pop {v : V} (h : m.visit depth f s = .pop v t) :
    m.move depth f.frame s.1 = .pop v t.1 := by
  unfold visit at h
  split at h <;> cases h
  assumption

theorem visit_next (h : m.visit depth f s = .next g t) :
    m.move depth f.frame s.1 = .next g.frame t.1 := by
  unfold visit at h
  split at h <;> cases h
  assumption

theorem visit_push {child : Located F} (h : m.visit depth f s = .push g child t) :
    m.move depth f.frame s.1 = .push g.frame child.frame t.1 := by
  unfold visit at h
  split at h <;> cases h
  assumption

theorem visit_halt {e : E} (h : m.visit depth f s = .halt e g t) :
    m.move depth f.frame s.1 = .halt e g.frame t.1 := by
  unfold visit at h
  split at h <;> cases h
  assumption

variable (m)

def giveAt (f : Located F) (v : V) : Located F := { f with frame := m.give f.frame v }

theorem visit_bound {cost : List F → S → Nat} (h : Bound m.move m.give cost) :
    Bound m.visit m.giveAt fun frames s => cost (frames.map Located.frame) s.1 where
  pop_lt f parent below s v t hMove :=
    h.pop_lt f.frame parent.frame (below.map Located.frame) s.1 v t.1
      (by rw [List.length_map]; exact visit_pop hMove)
  next_lt f below s g t hMove :=
    h.next_lt f.frame (below.map Located.frame) s.1 g.frame t.1
      (by rw [List.length_map]; exact visit_next hMove)
  push_lt f below s g child t hMove :=
    h.push_lt f.frame (below.map Located.frame) s.1 g.frame child.frame t.1
      (by rw [List.length_map]; exact visit_push hMove)

def visiting : Machine (Located F) (S × List Place) V E where
  move := m.visit
  give := m.giveAt
  bounded := m.bounded.elim fun _ h => ⟨_, m.visit_bound h⟩

def unlogged : Verdict (Located F) (S × List Place) V E → Verdict F S V E
  | .done v s => .done v s.1
  | .halted e frames s => .halted e (frames.map Located.frame) s.1

/-- The log changes nothing. -/
theorem run_visiting (f : Located F) (below : List (Located F)) (s : S × List Place) :
    unlogged (m.visiting.run f below s) = m.run f.frame (below.map Located.frame) s.1 := by
  induction f, below, s using Machine.run.induct m.visiting with
  | case1 f below s g t hMove ih =>
    have hPlain : m.move ((below.map Located.frame).length + 1) f.frame s.1 = .next g.frame t.1 := by
      rw [List.length_map]
      exact visit_next hMove
    rw [run_eq, hMove, run_eq, hPlain]
    exact ih
  | case2 f below s g child t hMove ih =>
    have hPlain : m.move ((below.map Located.frame).length + 1) f.frame s.1 =
        .push g.frame child.frame t.1 := by
      rw [List.length_map]
      exact visit_push hMove
    rw [run_eq, hMove, run_eq, hPlain]
    exact ih
  | case3 f below s e g t hMove =>
    have hPlain : m.move ((below.map Located.frame).length + 1) f.frame s.1 = .halt e g.frame t.1 := by
      rw [List.length_map]
      exact visit_halt hMove
    rw [run_eq, hMove, run_eq, hPlain]
    rfl
  | case4 f s v t hMove =>
    have hPlain : m.move 1 f.frame s.1 = .pop v t.1 := visit_pop hMove
    rw [run_eq, hMove, run_eq, List.map_nil, List.length_nil, hPlain]
    rfl
  | case5 f s v t parent below hMove ih =>
    have hPlain : m.move (((parent :: below).map Located.frame).length + 1) f.frame s.1 =
        .pop v t.1 := by
      rw [List.length_map]
      exact visit_pop hMove
    rw [run_eq, hMove, run_eq, hPlain]
    exact ih

variable {X : Type*} (kids : X → List X) (left : F → List X)

/-- What a move takes off a frame is the first of the trees left in it. -/
structure Traverses : Prop where
  pop : ∀ {depth f s v t}, m.move depth f s = .pop v t → left f = []
  next : ∀ {depth f s g t}, m.move depth f s = .next g t →
    ∃ x, left f = x :: left g ∧ kids x = []
  push : ∀ {depth f s g child t}, m.move depth f s = .push g child t →
    ∃ x rest, left f = x :: rest ∧ left child = kids x ∧ ∀ v, left (m.give g v) = rest

/-- Containers nest as deep as `nesting` says, and with `cap` frames at most, a move that
halts does so for a reason in `P`. -/
structure Halts (nesting : X → Nat) (cap : Nat) (P : E → Prop) : Prop where
  kid : ∀ x, ∀ c ∈ kids x, nesting c < nesting x
  push : ∀ {depth f s g child t x rest}, m.move depth f s = .push g child t →
    left f = x :: rest → 0 < nesting x
  halt : ∀ {depth f s e g t}, m.move depth f s = .halt e g t →
    (∀ x ∈ left f, depth + nesting x ≤ cap) → P e

def OnlyFor (P : E → Prop) : Verdict F S V E → Prop
  | .done _ _ => True
  | .halted e _ _ => P e

variable {m kids left} {P : E → Prop} {nesting : X → Nat} {cap : Nat}

/-- The walk of a frame ends when the walks of the containers in it do. -/
theorem Halts.ends_of_inner (hWalk : m.Traverses kids left) (h : m.Halts kids left nesting cap P)
    {depth room : Nat} (hRoom : depth + room = cap)
    (hInner : ∀ child t x, left child = kids x → 0 < nesting x → nesting x ≤ room →
      ∃ r, m.Reads (depth + 1) child t r ∧ OnlyFor P r)
    (xs : List X) {f : F} (s : S) (hLeft : left f = xs) (hNesting : ∀ x ∈ xs, nesting x ≤ room) :
    ∃ r, m.Reads depth f s r ∧ OnlyFor P r := by
  induction xs generalizing f s with
  | nil =>
    cases hMove : m.move depth f s with
    | pop v t => exact ⟨_, .pop hMove, trivial⟩
    | next g t =>
      obtain ⟨x, hTake, -⟩ := hWalk.next hMove
      cases hLeft.symm.trans hTake
    | push g child t =>
      obtain ⟨x, rest, hTake, -⟩ := hWalk.push hMove
      cases hLeft.symm.trans hTake
    | halt e g t =>
      refine ⟨_, .halt hMove, h.halt hMove ?_⟩
      rw [hLeft]
      exact nofun
  | cons x rest ih =>
    obtain ⟨hHead, hRest⟩ := List.forall_mem_cons.mp hNesting
    cases hMove : m.move depth f s with
    | pop v t => exact ⟨_, .pop hMove, trivial⟩
    | next g t =>
      obtain ⟨y, hTake, -⟩ := hWalk.next hMove
      cases hLeft.symm.trans hTake
      obtain ⟨r, hReads, hOnly⟩ := ih t rfl hRest
      exact ⟨r, .next hMove hReads, hOnly⟩
    | push g child t =>
      obtain ⟨y, more, hTake, hChild, hGive⟩ := hWalk.push hMove
      cases hLeft.symm.trans hTake
      obtain ⟨r, hReads, hOnly⟩ := hInner child t x hChild (h.push hMove hTake) hHead
      cases r with
      | halted e frames t' => exact ⟨_, .inside hMove hReads, hOnly⟩
      | done v t' =>
        obtain ⟨r, hRestReads, hOnly⟩ := ih t' (hGive v) hRest
        exact ⟨r, .push hMove hReads hRestReads, hOnly⟩
    | halt e g t =>
      refine ⟨_, .halt hMove, h.halt hMove fun y hy => ?_⟩
      have := hNesting y (hLeft ▸ hy)
      omega

theorem Halts.ends (hWalk : m.Traverses kids left) (h : m.Halts kids left nesting cap P)
    (room : Nat) {depth : Nat} (hRoom : depth + room = cap) {f : F} (s : S)
    (hNesting : ∀ x ∈ left f, nesting x ≤ room) : ∃ r, m.Reads depth f s r ∧ OnlyFor P r := by
  induction room generalizing depth f s with
  | zero =>
    refine h.ends_of_inner hWalk hRoom (fun child t x _ hPos hLe => ?_) _ s rfl hNesting
    omega
  | succ room ih =>
    refine h.ends_of_inner hWalk hRoom (fun child t x hChild hPos hLe => ?_) _ s rfl hNesting
    refine ih (by omega) t fun c hc => ?_
    have := h.kid x c (hChild ▸ hc)
    omega

/-- A walk that is done has logged the places of the trees left in its frame. -/
theorem Traverses.logs (hWalk : m.Traverses kids left) {depth : Nat} {f : F} {s t : S} {v : V}
    (h : m.Reads depth f s (.done v t)) (i : Nat) :
    ∃ log, EachOnceFrom kids i (left f) log ∧ ∀ place before,
      m.visiting.Reads depth ⟨f, place, i⟩ (s, before)
        (.done v (t, before ++ log.map (place ++ ·))) := by
  generalize hVerdict : Verdict.done v t = r at h
  induction h generalizing i v t with
  | @pop depth f s u t' hMove =>
    cases hVerdict
    refine ⟨[], ?_, fun place before => ?_⟩
    · rw [hWalk.pop hMove]
      exact eachOnceFrom_nil i
    · rw [List.map_nil, List.append_nil]
      apply Reads.pop
      change m.visit depth ⟨f, place, i⟩ (s, before) = _
      rw [visit, hMove]
  | @next depth f s g t' r hMove rest ih =>
    obtain ⟨x, hTake, hLeaf⟩ := hWalk.next hMove
    obtain ⟨log, hLog, hReads⟩ := ih (i + 1) hVerdict
    refine ⟨_, hTake ▸ eachOnceFrom_cons (eachOnce_leaf hLeaf) hLog, fun place before => ?_⟩
    have hMoved : m.visiting.move depth ⟨f, place, i⟩ (s, before) =
        .next ⟨g, place, i + 1⟩ (t', before ++ [place ++ [i]]) := by
      change m.visit depth ⟨f, place, i⟩ (s, before) = _
      rw [visit, hMove]
      rfl
    apply Reads.next hMoved
    have := hReads place (before ++ [place ++ [i]])
    simpa using this
  | @push depth f s g child t' u t'' r hMove inner rest ihInner ihRest =>
    obtain ⟨x, more, hTake, hChild, hGive⟩ := hWalk.push hMove
    obtain ⟨log, hLog, hReads⟩ := ihInner 0 rfl
    obtain ⟨log', hLog', hReads'⟩ := ihRest (i + 1) hVerdict
    rw [hChild] at hLog
    rw [hGive] at hLog'
    refine ⟨_, hTake ▸ eachOnceFrom_cons (eachOnce_node hLog) hLog', fun place before => ?_⟩
    have hMoved : m.visiting.move depth ⟨f, place, i⟩ (s, before) =
        .push ⟨g, place, i + 1⟩ ⟨child, place ++ [i], 0⟩ (t', before ++ [place ++ [i]]) := by
      change m.visit depth ⟨f, place, i⟩ (s, before) = _
      rw [visit, hMove]
      rfl
    apply Reads.push hMoved (hReads (place ++ [i]) _)
    have := hReads' place
      (before ++ [place ++ [i]] ++ log.map ((place ++ [i]) ++ ·))
    change m.visiting.Reads depth ⟨m.give g u, place, i + 1⟩ _ _
    simpa [Function.comp_def] using this
  | halt hMove => cases hVerdict
  | inside hMove inner ih => cases hVerdict

theorem Halts.visits (hWalk : m.Traverses kids left) (h : m.Halts kids left nesting cap P) {x : X}
    {f : F} (hLeft : left f = kids x) (hPos : 0 < nesting x) (hCap : nesting x ≤ cap) (s : S) :
    match m.visiting.run ⟨f, [], 0⟩ [] (s, [[]]) with
    | .done _ t => EachOnce kids x t.2
    | .halted e _ _ => P e := by
  obtain ⟨room, rfl⟩ : ∃ room, cap = 1 + room := ⟨cap - 1, by omega⟩
  obtain ⟨r, hReads, hOnly⟩ := h.ends hWalk room rfl s (f := f) fun c hc => by
    have := h.kid x c (hLeft ▸ hc)
    omega
  have hRun := Machine.run_root hReads
  have hErase := m.run_visiting ⟨f, [], 0⟩ [] (s, [[]])
  rw [List.map_nil, hRun] at hErase
  cases r with
  | done v t =>
    obtain ⟨log, hLog, hVisits⟩ := hWalk.logs hReads 0
    rw [Machine.run_root (hVisits [] [[]])]
    rw [hLeft] at hLog
    simpa using eachOnce_node hLog
  | halted e frames t =>
    cases hVisit : m.visiting.run ⟨f, [], 0⟩ [] (s, [[]]) with
    | done v t =>
      rw [hVisit] at hErase
      cases hErase
    | halted e' frames' t' =>
      rw [hVisit] at hErase
      cases hErase
      exact hOnly

end Machine

end Walk

namespace Rebuild.Source

open Walk

variable {A B K T S E : Type*} (src : Source A B K T S E)

/-- The children of a node; a leaf has none. -/
def kids (a : A) : List A := if src.isNode a then (src.children a).map (·.2) else []

/-- `run` with the places it comes to, the root first. -/
def visit (a : A) (s : S) : Except E (B × List Place) :=
  if src.isNode a then
    match src.enter a s with
    | .error e => .error e
    | .ok (tag, s') =>
      match src.machine.visiting.run ⟨⟨tag, [], src.children a⟩, [], 0⟩ [] (s', [[]]) with
      | .done b t => .ok (b, t.2)
      | .halted e _ _ => .error e
  else
    match src.leaf a s with
    | .error e => .error e
    | .ok (b, _) => .ok (b, [[]])

def outcome : Result B S E → Except E B
  | .error (e, _, _) => .error e
  | .ok (b, _) => .ok b

theorem visit_run (a : A) (s : S) :
    (src.visit a s).map (·.1) = outcome (src.run a s) := by
  unfold visit run
  cases src.isNode a with
  | false =>
    simp only [Bool.false_eq_true, if_false]
    cases src.leaf a s <;> rfl
  | true =>
    simp only [if_true]
    cases hEnter : src.enter a s with
    | error e => rfl
    | ok result =>
      obtain ⟨tag, s'⟩ := result
      have hErase := src.machine.run_visiting ⟨⟨tag, [], src.children a⟩, [], 0⟩ [] (s', [[]])
      dsimp only at hErase ⊢
      rw [List.map_nil] at hErase
      rw [← hErase]
      cases src.machine.visiting.run ⟨⟨tag, [], src.children a⟩, [], 0⟩ [] (s', [[]]) <;> rfl

variable {src}

theorem kids_leaf {a : A} (h : src.isNode a = false) : src.kids a = [] := by
  rw [kids, h, if_neg Bool.false_ne_true]

theorem kids_node {a : A} (h : src.isNode a = true) : src.kids a = (src.children a).map (·.2) := by
  rw [kids, h, if_pos rfl]

section Moves

variable {depth : Nat} {f g child : Frame A B K T} {s t : S} {k : K} {a : A} {rest : List (K × A)}

theorem next_leaf (hRest : f.rest = (k, a) :: rest) (h : src.move depth f s = .next g t) :
    src.isNode a = false := by
  apply Bool.eq_false_iff.mpr
  intro hNode
  rw [move, hRest] at h
  simp only [hNode, if_true] at h
  repeat' split at h
  all_goals cases h

theorem push_node (hRest : f.rest = (k, a) :: rest) (h : src.move depth f s = .push g child t) :
    src.isNode a = true := by
  rw [move, hRest] at h
  dsimp only at h
  split at h
  · assumption
  · split at h <;> cases h

end Moves

def nodesLeft (f : Frame A B K T) : List A := f.rest.map (·.2)

theorem traverses : src.machine.Traverses src.kids nodesLeft where
  pop {depth f s v t} hMove := by
    have hMove : src.move depth f s = .pop v t := hMove
    rw [nodesLeft, move_pop hMove, List.map_nil]
  next {depth f s g t} hMove := by
    have hMove : src.move depth f s = .next g t := hMove
    obtain ⟨⟨k, a⟩, rest, b, hRest, rfl⟩ := move_next hMove
    refine ⟨a, ?_, ?_⟩
    · rw [nodesLeft, nodesLeft, give_rest hRest, hRest, List.map_cons]
    · exact kids_leaf (next_leaf hRest hMove)
  push {depth f s g child t} hMove := by
    have hMove : src.move depth f s = .push g child t := hMove
    obtain ⟨⟨k, a⟩, rest, hRest, hDepth, rfl, hChild⟩ := move_push hMove
    refine ⟨a, rest.map (·.2), ?_, ?_, fun v => ?_⟩
    · rw [nodesLeft, hRest, List.map_cons]
    · rw [nodesLeft, hChild, kids_node (push_node hRest hMove)]
    · change nodesLeft (g.give v) = _
      rw [nodesLeft, give_rest hRest]

/-- What only maps halts nowhere. -/
theorem Maps.halts {g : A → B} {nesting : A → Nat} (h : src.Maps g nesting) :
    src.machine.Halts src.kids nodesLeft nesting src.cap fun _ => False where
  kid a c hc := by
    cases hNode : src.isNode a with
    | false =>
      rw [kids_leaf hNode] at hc
      cases hc
    | true =>
      rw [kids_node hNode] at hc
      obtain ⟨child, hChild, rfl⟩ := List.mem_map.mp hc
      exact (h.child a hNode).2 child hChild
  push {depth f s g child t x rest} hMove hLeft := by
    have hMove : src.move depth f s = .push g child t := hMove
    obtain ⟨⟨k, a⟩, rest, hRest, -⟩ := move_push hMove
    rw [nodesLeft, hRest, List.map_cons] at hLeft
    cases hLeft
    exact (h.child a (push_node hRest hMove)).1
  halt {depth f s e g t} hMove hRoom := by
    have hMove : src.move depth f s = .halt e g t := hMove
    unfold move at hMove
    split at hMove
    · cases hMove
    · rename_i k a rest hRest
      cases hNode : src.isNode a with
      | false =>
        simp only [hNode, Bool.false_eq_true, if_false, h.leaf a s hNode] at hMove
        cases hMove
      | true =>
        obtain ⟨tag, hEnter, -⟩ := h.node a s hNode
        have hPos := (h.child a hNode).1
        have hFits := hRoom a (by rw [nodesLeft, hRest]; exact List.mem_cons_self)
        simp only [hNode, if_true, hEnter, if_neg (show ¬src.cap ≤ depth by omega)] at hMove
        cases hMove

theorem Maps.visits {g : A → B} {nesting : A → Nat} (h : src.Maps g nesting) (hCap : 0 < src.cap)
    (a : A) (hNesting : nesting a ≤ src.cap) (s : S) :
    ∃ log, src.visit a s = .ok (g a, log) ∧ EachOnce src.kids a log := by
  have hRun := src.visit_run a s
  rw [run_of_maps hCap h a hNesting s, outcome] at hRun
  cases hNode : src.isNode a with
  | false =>
    refine ⟨[[]], ?_, eachOnce_leaf (kids_leaf hNode)⟩
    rw [visit, hNode, if_neg Bool.false_ne_true, h.leaf a s hNode]
  | true =>
    obtain ⟨tag, hEnter, -⟩ := h.node a s hNode
    have hVisits := h.halts.visits traverses (x := a) (f := ⟨tag, [], src.children a⟩)
      (kids_node hNode).symm (h.child a hNode).1 hNesting s
    rw [visit, hNode, if_pos rfl, hEnter] at hRun ⊢
    dsimp only at hRun ⊢
    generalize src.machine.visiting.run ⟨⟨tag, [], src.children a⟩, [], 0⟩ [] (s, [[]]) = r
      at hVisits hRun ⊢
    cases r with
    | halted e frames t => cases hVisits
    | done b t =>
      obtain ⟨rfl⟩ := Except.ok.inj hRun
      exact ⟨t.2, rfl, hVisits⟩

end Rebuild.Source
