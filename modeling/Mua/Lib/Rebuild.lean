import Mathlib.Algebra.Order.Ring.Nat
import Mua.Lib.Walk

/-! # Rebuilding a tree on a stack of frames

A tree of one type is rebuilt as one of another, children in order, with a cap on
how deep containers nest. `rebuild` is the recursion, on the room left under the
cap; `Source.run` is the loop over frames, and `run_eq_rebuild` says that they
agree, down to the half-built tree that a halt leaves.
-/

namespace Rebuild

open Walk

variable {A B K T S E : Type*}

/-- How nodes are read and built. Children carry a label `K`; `S` is threaded through; a
slot that is not filled yet holds the `stub`. -/
structure Source (A B K T S E : Type*) where
  isNode : A → Bool
  leaf : A → S → Except E (B × S)
  enter : A → S → Except E (T × S)
  children : A → List (K × A)
  build : T → List (K × B) → B
  stub : B
  cap : Nat
  tooDeep : E

/-- A container being filled. While a child container is open it is the head of `rest`. -/
structure Frame (A B K T : Type*) where
  tag : T
  done : List (K × B)
  rest : List (K × A)

def Frame.give (f : Frame A B K T) (b : B) : Frame A B K T :=
  match f.rest with
  | [] => f
  | (k, _) :: rest => { f with done := f.done ++ [(k, b)], rest := rest }

namespace Source

variable (src : Source A B K T S E)

def move (depth : Nat) (f : Frame A B K T) (s : S) : Move (Frame A B K T) S B E :=
  match f.rest with
  | [] => .pop (src.build f.tag f.done) s
  | (_, a) :: _ =>
    if src.isNode a then
      if src.cap ≤ depth then .halt src.tooDeep f s
      else
        match src.enter a s with
        | .ok (tag, s') => .push f ⟨tag, [], src.children a⟩ s'
        | .error e => .halt e f s
    else
      match src.leaf a s with
      | .ok (b, s') => .next (f.give b) s'
      | .error e => .halt e f s

/-- The turns a node can take with `room` containers allowed inside one another. -/
def size : Nat → A → Nat
  | 0, _ => 1
  | room + 1, a => 2 + ((src.children a).map fun c => size room c.2).sum

theorem size_pos (room : Nat) (a : A) : 0 < src.size room a := by
  cases room with
  | zero => exact Nat.one_pos
  | succ room =>
    rw [size]
    omega

def pending (depth : Nat) (rest : List (K × A)) : Nat :=
  1 + (rest.map fun c => src.size (src.cap - depth) c.2).sum

/-- The frames below the top one have a child open, which no longer counts. -/
def waiting : List (Frame A B K T) → Nat
  | [] => 0
  | f :: below => src.pending (below.length + 1) f.rest.tail + waiting below

def cost : List (Frame A B K T) → Nat
  | [] => 0
  | f :: below => src.pending (below.length + 1) f.rest + src.waiting below

variable {src}

theorem move_pop {depth : Nat} {f : Frame A B K T} {s s' : S} {b : B}
    (h : src.move depth f s = .pop b s') : f.rest = [] := by
  unfold move at h
  split at h
  · assumption
  · repeat' split at h
    all_goals cases h

theorem move_next {depth : Nat} {f f' : Frame A B K T} {s s' : S}
    (h : src.move depth f s = .next f' s') : ∃ c rest b, f.rest = c :: rest ∧ f' = f.give b := by
  unfold move at h
  split at h
  · cases h
  · rename_i hRest
    repeat' split at h
    all_goals cases h
    exact ⟨_, _, _, hRest, rfl⟩

theorem move_push {depth : Nat} {f f' child : Frame A B K T} {s s' : S}
    (h : src.move depth f s = .push f' child s') :
    ∃ c rest, f.rest = c :: rest ∧ depth < src.cap ∧ f' = f ∧ child.rest = src.children c.2 := by
  unfold move at h
  split at h
  · cases h
  · rename_i hRest
    repeat' split at h
    all_goals cases h
    exact ⟨_, _, hRest, by omega, rfl, rfl⟩

theorem give_rest {f : Frame A B K T} {c : K × A} {rest : List (K × A)} (h : f.rest = c :: rest)
    (b : B) : (f.give b).rest = rest := by
  rw [Frame.give, h]

theorem pending_cons (depth : Nat) (c : K × A) (rest : List (K × A)) :
    src.pending depth (c :: rest) = src.size (src.cap - depth) c.2 + src.pending depth rest := by
  simp only [pending, List.map_cons, List.sum_cons]
  omega

/-- A loop over frames ends when it moves as the walk of a source does, whatever its state. -/
theorem bound_of_moves {S' E' : Type*}
    {move : Nat → Frame A B K T → S' → Move (Frame A B K T) S' B E'}
    (hNext : ∀ {depth f s f' s'}, move depth f s = .next f' s' →
      ∃ c rest b, f.rest = c :: rest ∧ f' = f.give b)
    (hPush : ∀ {depth f s f' child s'}, move depth f s = .push f' child s' →
      ∃ c rest, f.rest = c :: rest ∧ depth < src.cap ∧ f' = f ∧ child.rest = src.children c.2) :
    Bound move Frame.give fun frames _ => src.cost frames where
  pop_lt f parent below s b s' _ := by
    have hGive : (parent.give b).rest = parent.rest.tail := by
      unfold Frame.give
      split
      · rename_i hRest
        rw [hRest, List.tail_nil]
      · rename_i hRest
        rw [hRest, List.tail_cons]
    simp only [cost, waiting, hGive, List.length_cons]
    have : 0 < src.pending (below.length + 1 + 1) f.rest := by
      rw [pending]
      omega
    omega
  next_lt f below s f' s' h := by
    obtain ⟨c, rest, b, hRest, rfl⟩ := hNext h
    simp only [cost]
    rw [give_rest hRest, hRest, pending_cons]
    have := src.size_pos (src.cap - (below.length + 1)) c.2
    omega
  push_lt f below s f' child s' h := by
    obtain ⟨c, rest, hRest, hDepth, rfl, hChild⟩ := hPush h
    simp only [cost, waiting, List.length_cons]
    rw [hChild, hRest, List.tail_cons, pending_cons]
    have hRoom : src.cap - (below.length + 1) = (src.cap - (below.length + 1 + 1)) + 1 := by omega
    rw [hRoom, size, pending]
    omega

theorem move_bound : Bound src.move Frame.give fun frames _ => src.cost frames :=
  bound_of_moves move_next move_push

variable (src)

def machine : Machine (Frame A B K T) S B E where
  move := src.move
  give := Frame.give
  bounded := ⟨_, move_bound⟩

/-- The container of a frame with `hole` in the open slot. -/
def plug (f : Frame A B K T) (hole : B) : B :=
  match f.rest with
  | [] => src.build f.tag f.done
  | (k, _) :: rest =>
    src.build f.tag (f.done ++ (k, hole) :: rest.map fun c => (c.1, src.stub))

def plugs (frames : List (Frame A B K T)) : B :=
  frames.foldl (fun hole f => src.plug f hole) src.stub

/-- The tree rebuilt, or the error with the tree as far as it was built. -/
abbrev Result (B S E : Type*) := Except (E × B × S) (B × S)

def run (a : A) (s : S) : Result B S E :=
  if src.isNode a then
    match src.enter a s with
    | .error e => .error (e, src.stub, s)
    | .ok (tag, s') =>
      match src.machine.run ⟨tag, [], src.children a⟩ [] s' with
      | .done b s => .ok (b, s)
      | .halted e frames s => .error (e, src.plugs frames, s)
  else
    match src.leaf a s with
    | .error e => .error (e, src.stub, s)
    | .ok result => .ok result

def rebuildAll (child : A → S → Result B S E) :
    List (K × A) → S → Result (List (K × B)) S E
  | [], s => .ok ([], s)
  | (k, a) :: rest, s =>
    match child a s with
    | .error (e, b, s') => .error (e, (k, b) :: rest.map fun c => (c.1, src.stub), s')
    | .ok (b, s') =>
      match rebuildAll child rest s' with
      | .error (e, bs, t) => .error (e, (k, b) :: bs, t)
      | .ok (bs, t) => .ok ((k, b) :: bs, t)

def close (tag : T) : Result (List (K × B)) S E → Result B S E
  | .error (e, bs, s) => .error (e, src.build tag bs, s)
  | .ok (bs, s) => .ok (src.build tag bs, s)

def rebuild : Nat → A → S → Result B S E
  | room, a, s =>
    if src.isNode a then
      match room with
      | 0 => .error (src.tooDeep, src.stub, s)
      | room + 1 =>
        match src.enter a s with
        | .error e => .error (e, src.stub, s)
        | .ok (tag, s') => src.close tag (src.rebuildAll (rebuild room) (src.children a) s')
    else
      match src.leaf a s with
      | .error e => .error (e, src.stub, s)
      | .ok result => .ok result

/-- A frame's walk ends as its children do, with the tree of a halt plugged together. -/
def Agrees (depth : Nat) (f : Frame A B K T) (s : S) : Result (List (K × B)) S E → Prop
  | .ok (bs, t) => src.machine.Reads depth f s (.done (src.build f.tag (f.done ++ bs)) t)
  | .error (e, bs, t) => ∃ frames, src.machine.Reads depth f s (.halted e frames t) ∧
    src.plugs frames = src.build f.tag (f.done ++ bs)

variable {src} {depth : Nat} {f : Frame A B K T} {s : S} {k : K} {a : A} {rest : List (K × A)}

theorem plugs_append (frames : List (Frame A B K T)) (f : Frame A B K T) :
    src.plugs (frames ++ [f]) = src.plug f (src.plugs frames) := by
  rw [plugs, List.foldl_append]
  rfl

theorem plug_cons (hRest : f.rest = (k, a) :: rest) (hole : B) :
    src.plug f hole =
      src.build f.tag (f.done ++ (k, hole) :: rest.map fun c => (c.1, src.stub)) := by
  rw [plug, hRest]

variable (src) in
/-- The child at the head of a frame is built and given to it, or the walk halts in it. -/
def Takes (depth : Nat) (f : Frame A B K T) (s : S) : Result B S E → Prop
  | .ok (b, t) => ∀ v, src.machine.Reads depth (f.give b) t v → src.machine.Reads depth f s v
  | .error (e, b, t) => ∃ frames, src.machine.Reads depth f s (.halted e frames t) ∧
    src.plugs frames = src.plug f b

theorem rebuild_leaf {room : Nat} (hNode : src.isNode a = false) :
    src.rebuild room a s =
      match src.leaf a s with
      | .error e => .error (e, src.stub, s)
      | .ok result => .ok result := by
  cases room with
  | zero => rw [rebuild, hNode, if_neg Bool.false_ne_true]
  | succ room => rw [rebuild, hNode, if_neg Bool.false_ne_true]

theorem takes_leaf (hRest : f.rest = (k, a) :: rest) (hNode : src.isNode a = false) (room : Nat) :
    src.Takes depth f s (src.rebuild room a s) := by
  have hMove : src.move depth f s =
      match src.leaf a s with
      | .ok (b, s') => .next (f.give b) s'
      | .error e => .halt e f s := by
    rw [move, hRest]
    simp only [hNode, Bool.false_eq_true, if_false]
  rw [rebuild_leaf hNode]
  cases hLeaf : src.leaf a s with
  | error e =>
    rw [hLeaf] at hMove
    exact ⟨[f], .halt hMove, rfl⟩
  | ok result =>
    rw [hLeaf] at hMove
    exact fun v hReads => .next hMove hReads

theorem takes_deep (hRest : f.rest = (k, a) :: rest) (hNode : src.isNode a = true)
    (hDepth : src.cap ≤ depth) : src.Takes depth f s (src.rebuild 0 a s) := by
  have hMove : src.move depth f s = .halt src.tooDeep f s := by
    rw [move, hRest]
    simp only [hNode, if_true, if_pos hDepth]
  rw [rebuild, hNode, if_pos rfl]
  exact ⟨[f], .halt hMove, rfl⟩

theorem takes_node (hRest : f.rest = (k, a) :: rest) (hNode : src.isNode a = true)
    (hDepth : depth < src.cap) {room : Nat} (ih : ∀ (f : Frame A B K T) (s : S),
      src.Agrees (depth + 1) f s (src.rebuildAll (src.rebuild room) f.rest s)) :
    src.Takes depth f s (src.rebuild (room + 1) a s) := by
  have hMove : src.move depth f s =
      match src.enter a s with
      | .ok (tag, s') => .push f ⟨tag, [], src.children a⟩ s'
      | .error e => .halt e f s := by
    rw [move, hRest]
    simp only [hNode, if_true, if_neg (Nat.not_le_of_lt hDepth)]
  rw [rebuild, hNode, if_pos rfl]
  cases hEnter : src.enter a s with
  | error e =>
    rw [hEnter] at hMove
    exact ⟨[f], .halt hMove, rfl⟩
  | ok result =>
    obtain ⟨tag, s'⟩ := result
    rw [hEnter] at hMove
    have hChild := ih ⟨tag, [], src.children a⟩ s'
    dsimp only at hChild ⊢
    match hResult : src.rebuildAll (src.rebuild room) (src.children a) s' with
    | .ok (bs, t) =>
      rw [hResult] at hChild
      exact fun v hReads => .push hMove hChild hReads
    | .error (e, bs, t) =>
      rw [hResult] at hChild
      obtain ⟨frames, hReads, hPlugs⟩ := hChild
      refine ⟨frames ++ [f], .inside hMove hReads, ?_⟩
      rw [plugs_append, hPlugs]
      rfl

theorem give_cons (hRest : f.rest = (k, a) :: rest) (b : B) :
    f.give b = ⟨f.tag, f.done ++ [(k, b)], rest⟩ := by
  rw [Frame.give, hRest]

/-- When every child is taken as `child` builds it, so are all that are left. -/
theorem agrees_of_takes {child : A → S → Result B S E}
    (h : ∀ f s k a rest, f.rest = (k, a) :: rest → src.Takes depth f s (child a s))
    (f : Frame A B K T) (s : S) : src.Agrees depth f s (src.rebuildAll child f.rest s) := by
  generalize hRest : f.rest = rest
  induction rest generalizing f s with
  | nil =>
    apply Machine.Reads.pop
    change src.move depth f s = _
    rw [move, hRest, List.append_nil]
  | cons c rest ih =>
    obtain ⟨k, a⟩ := c
    have hTakes := h f s k a rest hRest
    rw [rebuildAll]
    match hChild : child a s with
    | .error (e, b, t) =>
      rw [hChild] at hTakes
      obtain ⟨frames, hReads, hPlugs⟩ := hTakes
      refine ⟨frames, hReads, ?_⟩
      rw [hPlugs, plug_cons hRest]
    | .ok (b, t) =>
      rw [hChild] at hTakes
      have hNext := ih (f.give b) t (by rw [give_cons hRest])
      have hTakes : ∀ v, src.machine.Reads depth (f.give b) t v →
        src.machine.Reads depth f s v := hTakes
      rw [give_cons hRest] at hNext hTakes
      dsimp only
      match hAll : src.rebuildAll child rest t with
      | .ok (bs, t') =>
        rw [hAll] at hNext
        have hReads := hTakes _ hNext
        rwa [List.append_assoc] at hReads
      | .error (e, bs, t') =>
        rw [hAll] at hNext
        obtain ⟨frames, hReads, hPlugs⟩ := hNext
        refine ⟨frames, hTakes _ hReads, ?_⟩
        rw [hPlugs, List.append_assoc]
        rfl

theorem agrees (room : Nat) (hRoom : depth + room = src.cap) (f : Frame A B K T) (s : S) :
    src.Agrees depth f s (src.rebuildAll (src.rebuild room) f.rest s) := by
  induction room generalizing depth f s with
  | zero =>
    refine agrees_of_takes (fun f s k a rest hRest => ?_) f s
    cases hNode : src.isNode a with
    | false => exact takes_leaf hRest hNode 0
    | true => exact takes_deep hRest hNode (by omega)
  | succ room ih =>
    refine agrees_of_takes (fun f s k a rest hRest => ?_) f s
    cases hNode : src.isNode a with
    | false => exact takes_leaf hRest hNode _
    | true => exact takes_node hRest hNode (by omega) fun f s => ih (by omega) f s

theorem run_eq_rebuild (hCap : 0 < src.cap) (a : A) (s : S) :
    src.run a s = src.rebuild src.cap a s := by
  obtain ⟨room, hRoom⟩ : ∃ room, src.cap = room + 1 := ⟨src.cap - 1, by omega⟩
  rw [run, hRoom, rebuild]
  cases hNode : src.isNode a with
  | false => rfl
  | true =>
    simp only [if_true]
    cases hEnter : src.enter a s with
    | error e => rfl
    | ok result =>
      obtain ⟨tag, s'⟩ := result
      have hAgrees : src.Agrees 1 ⟨tag, [], src.children a⟩ s'
          (src.rebuildAll (src.rebuild room) (src.children a) s') :=
        agrees room (by omega) ⟨tag, [], src.children a⟩ s'
      dsimp only at hAgrees ⊢
      match hResult : src.rebuildAll (src.rebuild room) (src.children a) s' with
      | .ok (bs, t) =>
        rw [hResult] at hAgrees
        rw [Machine.run_root hAgrees]
        rfl
      | .error (e, bs, t) =>
        rw [hResult] at hAgrees
        obtain ⟨frames, hReads, hPlugs⟩ := hAgrees
        rw [Machine.run_root hReads]
        dsimp only
        rw [hPlugs]
        rfl

/-- The result of a child in front of the results of those after it. -/
def before (k : K) (b : B) : Result (List (K × B)) S E → Result (List (K × B)) S E
  | .error (e, bs, s) => .error (e, (k, b) :: bs, s)
  | .ok (bs, s) => .ok ((k, b) :: bs, s)

variable (src) in
/-- What the recursion keeps of `P` for a node and of `Q` for a list of children. -/
structure Rule (P : Nat → A → S → Result B S E → Prop)
    (Q : Nat → List (K × A) → S → Result (List (K × B)) S E → Prop) : Prop where
  leaf : ∀ room a s b s', src.isNode a = false → src.leaf a s = .ok (b, s') →
    P room a s (.ok (b, s'))
  refused : ∀ room a s e, src.isNode a = false → src.leaf a s = .error e →
    P room a s (.error (e, src.stub, s))
  deep : ∀ a s, src.isNode a = true → P 0 a s (.error (src.tooDeep, src.stub, s))
  shut : ∀ room a s e, src.isNode a = true → src.enter a s = .error e →
    P (room + 1) a s (.error (e, src.stub, s))
  node : ∀ room a s tag s' r, src.isNode a = true → src.enter a s = .ok (tag, s') →
    Q room (src.children a) s' r → P (room + 1) a s (src.close tag r)
  nil : ∀ room s, Q room [] s (.ok ([], s))
  halt : ∀ room k a rest s e b s', P room a s (.error (e, b, s')) →
    Q room ((k, a) :: rest) s (.error (e, (k, b) :: rest.map fun c => (c.1, src.stub), s'))
  next : ∀ room k a rest s b s' r, P room a s (.ok (b, s')) → Q room rest s' r →
    Q room ((k, a) :: rest) s (before k b r)

variable {P : Nat → A → S → Result B S E → Prop}
  {Q : Nat → List (K × A) → S → Result (List (K × B)) S E → Prop}

theorem Rule.rebuildAll (h : src.Rule P Q) {room : Nat} {child : A → S → Result B S E}
    (hChild : ∀ a s, P room a s (child a s)) (cs : List (K × A)) (s : S) :
    Q room cs s (src.rebuildAll child cs s) := by
  induction cs generalizing s with
  | nil => exact h.nil room s
  | cons c rest ih =>
    obtain ⟨k, a⟩ := c
    have hHead := hChild a s
    rw [Source.rebuildAll]
    match hResult : child a s with
    | .error (e, b, s') =>
      rw [hResult] at hHead
      exact h.halt room k a rest s e b s' hHead
    | .ok (b, s') =>
      rw [hResult] at hHead
      have hNext := h.next room k a rest s b s' _ hHead (ih s')
      dsimp only
      generalize src.rebuildAll child rest s' = r at hNext ⊢
      cases r <;> exact hNext

theorem Rule.rebuild_leaf (h : src.Rule P Q) (room : Nat) (s : S)
    (hNode : src.isNode a = false) : P room a s (src.rebuild room a s) := by
  rw [Source.rebuild_leaf hNode]
  match hResult : src.leaf a s with
  | .error e => exact h.refused room a s e hNode hResult
  | .ok (b, s') => exact h.leaf room a s b s' hNode hResult

theorem Rule.rebuild (h : src.Rule P Q) (room : Nat) (a : A) (s : S) :
    P room a s (src.rebuild room a s) := by
  induction room generalizing a s with
  | zero =>
    cases hNode : src.isNode a with
    | false => exact h.rebuild_leaf 0 s hNode
    | true =>
      rw [Source.rebuild, hNode, if_pos rfl]
      exact h.deep a s hNode
  | succ room ih =>
    cases hNode : src.isNode a with
    | false => exact h.rebuild_leaf (room + 1) s hNode
    | true =>
      rw [Source.rebuild, hNode, if_pos rfl]
      match hResult : src.enter a s with
      | .error e => exact h.shut room a s e hNode hResult
      | .ok (tag, s') =>
        exact h.node room a s tag s' _ hNode hResult (h.rebuildAll ih (src.children a) s')

variable (src) in
/-- Nodes come out as `g` has them, and nothing is refused but what nests too deep. -/
structure Maps (g : A → B) (nesting : A → Nat) : Prop where
  leaf : ∀ a s, src.isNode a = false → src.leaf a s = .ok (g a, s)
  node : ∀ a s, src.isNode a = true → ∃ tag, src.enter a s = .ok (tag, s) ∧
    src.build tag ((src.children a).map fun c => (c.1, g c.2)) = g a
  child : ∀ a, src.isNode a = true → 0 < nesting a ∧
    ∀ c ∈ src.children a, nesting c.2 < nesting a

theorem rebuildAll_of_forall {child : A → S → Result B S E} {g : A → B} (cs : List (K × A))
    (h : ∀ c ∈ cs, child c.2 s = .ok (g c.2, s)) :
    src.rebuildAll child cs s = .ok (cs.map fun c => (c.1, g c.2), s) := by
  induction cs with
  | nil => rfl
  | cons c cs ih =>
    have hHead := h c List.mem_cons_self
    have hTail := ih fun c hc => h c (List.mem_cons_of_mem _ hc)
    rw [rebuildAll, hHead]
    dsimp only
    rw [hTail]
    rfl

theorem rebuild_of_maps {g : A → B} {nesting : A → Nat} (h : src.Maps g nesting) (room : Nat)
    (a : A) (hNesting : nesting a ≤ room) (s : S) : src.rebuild room a s = .ok (g a, s) := by
  induction room generalizing a with
  | zero =>
    cases hNode : src.isNode a with
    | false => rw [rebuild_leaf hNode, h.leaf a s hNode]
    | true =>
      have := (h.child a hNode).1
      omega
  | succ room ih =>
    cases hNode : src.isNode a with
    | false => rw [rebuild_leaf hNode, h.leaf a s hNode]
    | true =>
      obtain ⟨tag, hEnter, hBuild⟩ := h.node a s hNode
      have hChildren : src.rebuildAll (src.rebuild room) (src.children a) s =
          .ok ((src.children a).map fun c => (c.1, g c.2), s) := by
        refine rebuildAll_of_forall _ fun c hc => ih c.2 ?_
        have := (h.child a hNode).2 c hc
        omega
      rw [rebuild, hNode, if_pos rfl, hEnter]
      dsimp only
      rw [hChildren, close, hBuild]

theorem run_of_maps (hCap : 0 < src.cap) {g : A → B} {nesting : A → Nat}
    (h : src.Maps g nesting) (a : A) (hNesting : nesting a ≤ src.cap) (s : S) :
    src.run a s = .ok (g a, s) :=
  (run_eq_rebuild hCap a s).trans (rebuild_of_maps h src.cap a hNesting s)

end Source

end Rebuild
