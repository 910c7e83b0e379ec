import Mua.LuaObject

/-! # The walks on the Lua stack

`lua_pop_object` and `object_to_lua` with the height of the Lua stack. A call of the
Lua API changes the height as the manual says; `lua_checkstack` refuses past `limit`.
The tables of the open frames lie on the stack, and a walk that is given up leaves
them there.
-/

namespace Mua.Lua

open Rebuild Walk

variable (limit : Nat)

def luaCheckstack (height n : Nat) : Bool := decide (height + n ≤ limit)

def exhaustedReading : Error := ⟨.exception, ascii "lua stack exhausted reading a value"⟩

def exhaustedWriting : Error := ⟨.exception, ascii "lua stack exhausted writing a value"⟩

/-- One turn of the loop of `lua_pop_object`. -/
def popMove (castOutside : Double → Int64) (heap : Heap) (depth : Nat)
    (f : Frame Value Object Bytes TableKind) (height : Nat) :
    Move (Frame Value Object Bytes TableKind) Nat Object Error :=
  match f.rest with
  | [] =>
    -- the root's table is the argument, and stays
    .pop ((popSource castOutside heap).build f.tag f.done) (if 1 < depth then height - 1 else height)
  | (_, child) :: _ =>
    if ¬luaCheckstack limit height 4 then .halt exhaustedReading f height
    else
      let height := height + 1
      match child with
      | .table id =>
        if kMarshalDepthCap ≤ depth then .halt tableTooDeep f height
        else
          match classifyTable castOutside (heap id) with
          | .invalid => .halt badKeys f height
          | kind => .push f ⟨kind, [], tableChildren kind (heap id)⟩ height
      | child =>
        match scalarize child with
        | .ok obj => .next (f.give obj) (height - 1)
        | .error err => .halt err f (height - 1)

variable {limit} {castOutside : Double → Int64} {heap : Heap}

theorem popMove_next {depth height height' : Nat} {f f' : Frame Value Object Bytes TableKind}
    (h : popMove limit castOutside heap depth f height = .next f' height') :
    ∃ c rest b, f.rest = c :: rest ∧ f' = f.give b := by
  unfold popMove at h
  split at h
  · cases h
  · rename_i hRest
    repeat' split at h
    all_goals cases h
    exact ⟨_, _, _, hRest, rfl⟩

theorem popMove_push {depth height height' : Nat} {f f' child : Frame Value Object Bytes TableKind}
    (h : popMove limit castOutside heap depth f height = .push f' child height') :
    ∃ c rest, f.rest = c :: rest ∧ depth < (popSource castOutside heap).cap ∧ f' = f ∧
      child.rest = (popSource castOutside heap).children c.2 := by
  unfold popMove at h
  split at h
  · cases h
  · rename_i key value rest hRest
    split at h
    · cases h
    cases value with
    | table id =>
      dsimp only at h
      split at h
      · cases h
      · rename_i hDepth
        split at h
        · cases h
        · cases h
          exact ⟨_, _, hRest, Nat.lt_of_not_le hDepth, rfl, rfl⟩
    | _ =>
      dsimp only at h
      split at h <;> cases h

variable (limit castOutside heap)

def popWalk : Machine (Frame Value Object Bytes TableKind) Nat Object Error where
  move := popMove limit castOutside heap
  give := Frame.give
  bounded := ⟨_, Source.bound_of_moves popMove_next popMove_push⟩

/-- The value is at the top, at `height`; the height in the end, and what was made of it. -/
def luaPopOnStack (value : Value) (height : Nat) : Except Error Object × Nat :=
  if ¬luaCheckstack limit height 4 then (.error exhaustedReading, height)
  else
    match value with
    | .table id =>
      match classifyTable castOutside (heap id) with
      | .invalid => (.error badKeys, height)
      | kind =>
        match (popWalk limit castOutside heap).run ⟨kind, [], tableChildren kind (heap id)⟩ []
            height with
        | .done obj height => (.ok obj, height)
        | .halted err _ height => (.error err, height)
    | value => (scalarize value, height)

/-- One turn of the loop of `object_to_lua`. -/
def pushMove (depth : Nat) (f : Frame Object Built Value Unit) (height : Nat) :
    Move (Frame Object Built Value Unit) Nat Built Error :=
  match f.rest with
  | [] => .pop (pushSource.build f.tag f.done) (if 1 < depth then height - 1 else height)
  | (_, child) :: _ =>
    if ¬luaCheckstack limit height 6 then .halt exhaustedWriting f height
    else if child.isContainer then
      if kMarshalDepthCap ≤ depth then .halt objectTooDeep f height
      else .push f ⟨(), [], pushSource.children child⟩ (height + 1)
    else .next (f.give (pushScalar child)) height

variable {limit castOutside heap}

theorem pushMove_next {depth height height' : Nat} {f f' : Frame Object Built Value Unit}
    (h : pushMove limit depth f height = .next f' height') :
    ∃ c rest b, f.rest = c :: rest ∧ f' = f.give b := by
  unfold pushMove at h
  split at h
  · cases h
  · rename_i hRest
    repeat' split at h
    all_goals cases h
    exact ⟨_, _, _, hRest, rfl⟩

theorem pushMove_push {depth height height' : Nat} {f f' child : Frame Object Built Value Unit}
    (h : pushMove limit depth f height = .push f' child height') :
    ∃ c rest, f.rest = c :: rest ∧ depth < pushSource.cap ∧ f' = f ∧
      child.rest = pushSource.children c.2 := by
  unfold pushMove at h
  split at h
  · cases h
  · rename_i hRest
    repeat' split at h
    all_goals cases h
    exact ⟨_, _, hRest, Nat.lt_of_not_le ‹_›, rfl, rfl⟩

variable (limit)

def pushWalk : Machine (Frame Object Built Value Unit) Nat Built Error where
  move := pushMove limit
  give := Frame.give
  bounded := ⟨_, Source.bound_of_moves pushMove_next pushMove_push⟩

/-- The value pushed, when there is room for it, and the height in the end. -/
def objectToLuaOnStack (obj : Object) (height : Nat) : Except Error Built × Nat :=
  if ¬luaCheckstack limit height 4 then (.error exhaustedWriting, height)
  else if ¬obj.isContainer then (.ok (pushScalar obj), height + 1)
  else
    match (pushWalk limit).run ⟨(), [], pushSource.children obj⟩ [] (height + 1) with
    | .done value height => (.ok value, height)
    | .halted err _ height => (.error err, height)

/-- A value that `lua_pop_object` takes, with `cap` containers inside one another at most and
`room` of their tables on the stack. -/
def Takes (heap : Heap) : Nat → Nat → Value → Prop
  | cap + 1, room, .table id =>
    ((∃ n, (heap id).IsSequence n) ∨ (heap id).IsRecord) ∧
      ((heap id).entries = [] ∨ 0 < room) ∧ ∀ e ∈ (heap id).entries, Takes heap cap (room - 1) e.2
  | 0, _, .table _ => False
  | _, _, .other _ _ => False
  | _, _, _ => True

def FirstRefused (heap : Heap) (cap room : Nat) (cs : List (Bytes × Value)) (value : Value) : Prop :=
  ∃ before key after, cs = before ++ (key, value) :: after ∧
    (∀ c ∈ before, Takes heap cap room c.2) ∧ ¬Takes heap cap room value

section Refusal

variable (castOutside : Double → Int64) (heap : Heap)

/-- The tables left by the first child refused, of those not reached for lack of room none. -/
def refusalAll (child : Value → Option Nat) (room : Nat) : List (Bytes × Value) → Option Nat
  | [] => none
  | (_, value) :: rest =>
    if room = 0 then some 0 else (child value).or (refusalAll child room rest)

/-- The tables that a child leaves on the stack when it is refused: its own, and those of the
containers open in it. -/
def refusal : Nat → Nat → Value → Option Nat
  | 0, _, .table _ => some 1
  | cap + 1, room, .table id =>
    match classifyTable castOutside (heap id) with
    | .invalid => some 1
    | kind =>
      (refusalAll (refusal cap (room - 1)) room (tableChildren kind (heap id))).map (· + 1)
  | _, _, .other _ _ => some 0
  | _, _, _ => none

variable {castOutside heap}

theorem refusalAll_none_iff {child : Value → Option Nat} {room : Nat} {cs : List (Bytes × Value)} :
    refusalAll child room cs = none ↔ (cs = [] ∨ 0 < room) ∧ ∀ c ∈ cs, child c.2 = none := by
  induction cs with
  | nil => simp [refusalAll]
  | cons c rest ih =>
    obtain ⟨key, value⟩ := c
    rw [refusalAll]
    split
    · rename_i hRoom
      simp [hRoom]
    · rename_i hRoom
      rw [Option.or_eq_none_iff, ih, List.forall_mem_cons]
      constructor
      · rintro ⟨hHead, -, hRest⟩
        exact ⟨.inr (Nat.pos_of_ne_zero hRoom), hHead, hRest⟩
      · rintro ⟨-, hHead, hRest⟩
        exact ⟨hHead, .inr (Nat.pos_of_ne_zero hRoom), hRest⟩

theorem tableChildren_eq_nil {kind : TableKind} (hValid : kind ≠ .invalid) {t : Table} :
    tableChildren kind t = [] ↔ t.entries = [] := by
  cases kind with
  | array => simp [tableChildren, List.map_eq_nil_iff]
  | dict => simp [tableChildren]
  | invalid => exact absurd rfl hValid

theorem refusal_table {cap room id : Nat} {kind : TableKind}
    (hKind : classifyTable castOutside (heap id) = kind) (hValid : kind ≠ .invalid) :
    refusal castOutside heap (cap + 1) room (.table id) =
      (refusalAll (refusal castOutside heap cap (room - 1)) room
        (tableChildren kind (heap id))).map (· + 1) := by
  rw [refusal, hKind]
  cases kind with
  | invalid => exact absurd rfl hValid
  | _ => rfl

theorem refusal_none_iff {cap room : Nat} {value : Value} :
    refusal castOutside heap cap room value = none ↔ Takes heap cap room value := by
  induction cap generalizing room value with
  | zero => cases value <;> simp [refusal, Takes]
  | succ cap ih =>
    cases value with
    | table id =>
      by_cases hValid : classifyTable castOutside (heap id) = .invalid
      · have hKeys := classify_invalid_iff.mp hValid
        rw [refusal, hValid, Takes]
        exact ⟨nofun, fun h => absurd h.1 hKeys⟩
      · have hKeys : (∃ n, (heap id).IsSequence n) ∨ (heap id).IsRecord := by
          by_contra hNeither
          exact hValid (classify_invalid_iff.mpr hNeither)
        rw [refusal_table rfl hValid, Option.map_eq_none_iff, refusalAll_none_iff, Takes,
          tableChildren_eq_nil hValid]
        have hChildren := (tableChildren_forall rfl hValid (Takes heap cap (room - 1))).1
        simp only [ih, hChildren, hKeys, true_and]
    | _ => simp [refusal, Takes]

theorem refusal_zero_iff {cap room : Nat} {value : Value} :
    refusal castOutside heap cap room value = some 0 ↔
      ¬Takes heap cap room value ∧ value.isTable = false := by
  cases value with
  | table id =>
    constructor
    · intro h
      cases cap with
      | zero => cases h
      | succ cap =>
        by_cases hValid : classifyTable castOutside (heap id) = .invalid
        · rw [refusal, hValid] at h
          cases h
        · rw [refusal_table rfl hValid] at h
          obtain ⟨k, -, hk⟩ := Option.map_eq_some_iff.mp h
          cases hk
    · rintro ⟨-, hTable⟩
      cases hTable
  | _ => cases cap <;> simp [refusal, Takes, Value.isTable]

theorem refusalAll_zero_iff {cap room : Nat} (hRoom : 0 < room) {cs : List (Bytes × Value)} :
    refusalAll (refusal castOutside heap cap (room - 1)) room cs = some 0 ↔
      ∃ value, FirstRefused heap cap (room - 1) cs value ∧ value.isTable = false := by
  induction cs with
  | nil =>
    refine ⟨nofun, ?_⟩
    rintro ⟨value, ⟨before, key, after, hEq, -⟩, -⟩
    cases before <;> cases hEq
  | cons c rest ih =>
    obtain ⟨key, head⟩ := c
    rw [refusalAll, if_neg (Nat.ne_of_gt hRoom)]
    cases hHead : refusal castOutside heap cap (room - 1) head with
    | none =>
      have hTakes := refusal_none_iff.mp hHead
      rw [Option.none_or, ih]
      constructor
      · rintro ⟨value, ⟨before, key', after, rfl, hBefore, hRefused⟩, hTable⟩
        refine ⟨value, ⟨(key, head) :: before, key', after, rfl, ?_, hRefused⟩, hTable⟩
        exact List.forall_mem_cons.mpr ⟨hTakes, hBefore⟩
      · rintro ⟨value, ⟨before, key', after, hEq, hBefore, hRefused⟩, hTable⟩
        cases before with
        | nil =>
          cases hEq
          exact absurd hTakes hRefused
        | cons c before =>
          cases hEq
          exact ⟨value, ⟨before, key', after, rfl, (List.forall_mem_cons.mp hBefore).2, hRefused⟩,
            hTable⟩
    | some k =>
      have hRefused : ¬Takes heap cap (room - 1) head := by
        intro hFits
        have hNone : refusal castOutside heap cap (room - 1) head = none :=
          refusal_none_iff.mpr hFits
        rw [hHead] at hNone
        cases hNone
      rw [Option.some_or]
      constructor
      · intro hZero
        rw [hZero] at hHead
        exact ⟨head, ⟨[], key, rest, rfl, nofun, hRefused⟩, (refusal_zero_iff.mp hHead).2⟩
      · rintro ⟨value, ⟨before, key', after, hEq, hBefore, -⟩, hTable⟩
        cases before with
        | nil =>
          cases hEq
          rw [← hHead]
          exact refusal_zero_iff.mpr ⟨hRefused, hTable⟩
        | cons c before =>
          cases hEq
          exact absurd (hBefore _ List.mem_cons_self) hRefused

end Refusal

section PopWalk

variable {limit : Nat} {castOutside : Double → Int64} {heap : Heap}

variable (limit castOutside heap) in
/-- The walk of a frame ends as the plain one does and gives its table back, or leaves the
tables of a refusal. -/
def PopEnds (depth : Nat) (f : Frame Value Object Bytes TableKind) (height : Nat) :
    Option Nat → Prop
  | none => ∃ obj, (popSource castOutside heap).machine.Reads depth f () (.done obj ()) ∧
    (popWalk limit castOutside heap).Reads depth f height
      (.done obj (if 1 < depth then height - 1 else height))
  | some k => ∃ err frames,
    (popWalk limit castOutside heap).Reads depth f height (.halted err frames (height + k))

/-- One child: it is given to the frame, or the walk is given up in it. -/
def PopTakes (limit : Nat) (castOutside : Double → Int64) (heap : Heap) (depth : Nat)
    (f : Frame Value Object Bytes TableKind) (height : Nat) : Option Nat → Prop
  | none => ∃ obj, ∀ k, PopEnds limit castOutside heap depth (f.give obj) height k →
    PopEnds limit castOutside heap depth f height k
  | some k => PopEnds limit castOutside heap depth f height (some k)

variable {depth height cap room : Nat} {f : Frame Value Object Bytes TableKind} {key : Bytes}
  {value : Value} {rest : List (Bytes × Value)}

theorem PopEnds.next {obj : Object}
    (hPlain : (popSource castOutside heap).move depth f () = .next (f.give obj) ())
    (hMove : popMove limit castOutside heap depth f height = .next (f.give obj) height) {k : Option Nat}
    (h : PopEnds limit castOutside heap depth (f.give obj) height k) :
    PopEnds limit castOutside heap depth f height k := by
  cases k with
  | none =>
    obtain ⟨result, hSource, hReads⟩ := h
    exact ⟨result, .next hPlain hSource, .next hMove hReads⟩
  | some k =>
    obtain ⟨err, frames, hReads⟩ := h
    exact ⟨err, frames, .next hMove hReads⟩

theorem popTakes_scalar (hRest : f.rest = (key, value) :: rest)
    (hRoom : luaCheckstack limit height 4 = true) (hTable : value.isTable = false) :
    PopTakes limit castOutside heap depth f height (refusal castOutside heap cap room value) := by
  have hMove : popMove limit castOutside heap depth f height =
      match scalarize value with
      | .ok obj => .next (f.give obj) height
      | .error err => .halt err f height := by
    rw [popMove, hRest]
    dsimp only
    rw [if_neg (not_not_intro hRoom)]
    cases value with
    | table id => cases hTable
    | _ => rfl
  have hPlain : (popSource castOutside heap).move depth f () =
      match scalarize value with
      | .ok obj => .next (f.give obj) ()
      | .error err => .halt err f () := by
    have hNode : ¬(popSource castOutside heap).isNode value = true := Bool.eq_false_iff.mp hTable
    have hLeaf : (popSource castOutside heap).leaf value () =
        (scalarize value).map fun obj => (obj, ()) := rfl
    rw [Source.move, hRest]
    dsimp only
    rw [if_neg hNode, hLeaf]
    cases scalarize value <;> rfl
  cases value with
  | table id => cases hTable
  | other type id =>
    have hRefused : refusal castOutside heap cap room (.other type id) = some 0 :=
      refusal_zero_iff.mpr ⟨by cases cap <;> exact fun h => h, rfl⟩
    rw [hRefused]
    exact ⟨_, _, .halt hMove⟩
  | _ =>
    rw [refusal_none_iff.mpr (by cases cap <;> trivial)]
    exact ⟨_, fun k h => h.next hPlain hMove⟩

theorem popSource_enter {id : Nat} (hValid : classifyTable castOutside (heap id) ≠ .invalid) :
    (popSource castOutside heap).enter (.table id) () =
      .ok (classifyTable castOutside (heap id), ()) := by
  change (match classifyTable castOutside (heap id) with
    | .invalid => Except.error badKeys
    | kind => .ok (kind, ())) = _
  cases hKind : classifyTable castOutside (heap id) with
  | invalid => exact absurd hKind hValid
  | _ => rfl

theorem popTakes_table {id : Nat} (hRest : f.rest = (key, .table id) :: rest)
    (hRoom : luaCheckstack limit height 4 = true) (hDepth : depth + cap = kMarshalDepthCap)
    (hPos : 0 < depth)
    (ih : ∀ c, cap = c + 1 → ∀ kind, PopEnds limit castOutside heap (depth + 1)
      ⟨kind, [], tableChildren kind (heap id)⟩ (height + 1)
      (refusalAll (refusal castOutside heap c (room - 1)) room (tableChildren kind (heap id)))) :
    PopTakes limit castOutside heap depth f height (refusal castOutside heap cap room (.table id)) := by
  have hMove : popMove limit castOutside heap depth f height =
      if kMarshalDepthCap ≤ depth then .halt tableTooDeep f (height + 1)
      else
        match classifyTable castOutside (heap id) with
        | .invalid => .halt badKeys f (height + 1)
        | kind => .push f ⟨kind, [], tableChildren kind (heap id)⟩ (height + 1) := by
    rw [popMove, hRest]
    dsimp only
    rw [if_neg (not_not_intro hRoom)]
  cases cap with
  | zero =>
    rw [if_pos (by omega)] at hMove
    exact ⟨_, _, .halt hMove⟩
  | succ cap =>
    rw [if_neg (by omega)] at hMove
    by_cases hValid : classifyTable castOutside (heap id) = .invalid
    · rw [refusal, hValid]
      rw [hValid] at hMove
      exact ⟨_, _, .halt hMove⟩
    · have hPush : popMove limit castOutside heap depth f height =
          .push f ⟨classifyTable castOutside (heap id), [],
            tableChildren (classifyTable castOutside (heap id)) (heap id)⟩ (height + 1) := by
        rw [hMove]
        cases hKind : classifyTable castOutside (heap id) with
        | invalid => exact absurd hKind hValid
        | _ => rfl
      have hPlain : (popSource castOutside heap).move depth f () =
          .push f ⟨classifyTable castOutside (heap id), [],
            tableChildren (classifyTable castOutside (heap id)) (heap id)⟩ () := by
        have hNode : (popSource castOutside heap).isNode (.table id) = true := rfl
        have hCap : ¬(popSource castOutside heap).cap ≤ depth := by
          change ¬kMarshalDepthCap ≤ depth
          omega
        rw [Source.move, hRest]
        dsimp only
        rw [if_pos hNode, if_neg hCap, popSource_enter hValid]
        rfl
      have hInner := ih cap rfl (classifyTable castOutside (heap id))
      rw [refusal_table rfl hValid]
      cases hLeft : refusalAll (refusal castOutside heap cap (room - 1)) room
          (tableChildren (classifyTable castOutside (heap id)) (heap id)) with
      | none =>
        rw [hLeft] at hInner
        obtain ⟨obj, hSource, hReads⟩ := hInner
        rw [if_pos (by omega), Nat.add_sub_cancel] at hReads
        refine ⟨obj, fun k h => ?_⟩
        cases k with
        | none =>
          obtain ⟨result, hSource', hReads'⟩ := h
          exact ⟨result, .push hPlain hSource hSource', .push hPush hReads hReads'⟩
        | some k =>
          obtain ⟨err, frames, hReads'⟩ := h
          exact ⟨err, frames, .push hPush hReads hReads'⟩
      | some k =>
        rw [hLeft] at hInner
        obtain ⟨err, frames, hReads⟩ := hInner
        refine ⟨err, frames ++ [f], ?_⟩
        have hInside := Machine.Reads.inside hPush hReads
        rwa [Nat.add_assoc, Nat.add_comm 1 k] at hInside

/-- A frame over children that are each taken, or refused, as `child` says. -/
theorem popEnds_of_takes {child : Value → Option Nat}
    (hRoom : luaCheckstack limit height 4 = decide (0 < room))
    (h : luaCheckstack limit height 4 = true → ∀ f key value rest, f.rest = (key, value) :: rest →
      PopTakes limit castOutside heap depth f height (child value))
    (f : Frame Value Object Bytes TableKind) :
    PopEnds limit castOutside heap depth f height (refusalAll child room f.rest) := by
  generalize hRest : f.rest = cs
  induction cs generalizing f with
  | nil =>
    refine ⟨(popSource castOutside heap).build f.tag f.done, .pop ?_, .pop ?_⟩
    · change (popSource castOutside heap).move depth f () = _
      rw [Source.move, hRest]
    · change popMove limit castOutside heap depth f height = _
      rw [popMove, hRest]
  | cons c rest ih =>
    obtain ⟨key, value⟩ := c
    rw [refusalAll]
    split
    · rename_i hNone
      refine ⟨exhaustedReading, [f], .halt ?_⟩
      change popMove limit castOutside heap depth f height = _
      rw [popMove, hRest]
      dsimp only
      rw [if_pos (by rw [hRoom, hNone]; decide)]
      rfl
    · rename_i hSome
      have hCheck : luaCheckstack limit height 4 = true := by
        rw [hRoom]
        exact decide_eq_true (Nat.pos_of_ne_zero hSome)
      have hTakes := h hCheck f key value rest hRest
      cases hChild : child value with
      | none =>
        rw [hChild] at hTakes
        obtain ⟨obj, hTakes⟩ := hTakes
        rw [Option.none_or]
        exact hTakes _ (ih (f.give obj) (Source.give_rest hRest obj))
      | some k =>
        rw [hChild] at hTakes
        exact hTakes

theorem popEnds (cap : Nat) (hDepth : depth + cap = kMarshalDepthCap) (hPos : 0 < depth)
    (hRoom : room = limit - (height + 3)) (f : Frame Value Object Bytes TableKind) :
    PopEnds limit castOutside heap depth f height
      (refusalAll (refusal castOutside heap cap (room - 1)) room f.rest) := by
  induction cap using Nat.strong_induction_on generalizing depth height room f with
  | _ cap ih =>
    have hCheck : luaCheckstack limit height 4 = decide (0 < room) := by
      rw [luaCheckstack, decide_eq_decide]
      omega
    refine popEnds_of_takes hCheck (fun hRoom' f key value rest hRest => ?_) f
    cases hTable : value.isTable with
    | false => exact popTakes_scalar hRest hRoom' hTable
    | true =>
      cases value with
      | table id =>
        apply popTakes_table hRest hRoom' hDepth hPos
        intro c hc kind
        exact ih c (by omega) (by omega) (Nat.succ_pos _) (by omega) _
      | _ => cases hTable

variable (castOutside heap) in
/-- A value on which `lua_pop_object` leaves nothing behind: it is no table, or it is taken, or
its own keys are bad, or the first of its entries that is refused is no table. -/
def Unwinds (room : Nat) : Value → Prop
  | .table id =>
    Takes heap kMarshalDepthCap room (.table id) ∨
      ¬((∃ n, (heap id).IsSequence n) ∨ (heap id).IsRecord) ∨
      ∃ entry, FirstRefused heap (kMarshalDepthCap - 1) (room - 1)
        (tableChildren (classifyTable castOutside (heap id)) (heap id)) entry ∧
        entry.isTable = false
  | _ => True

/-- The walk from the root, by what its children leave. -/
theorem luaPopOnStack_table {id : Nat} (hCheck : luaCheckstack limit height 4 = true)
    (hValid : classifyTable castOutside (heap id) ≠ .invalid) :
    match refusalAll (refusal castOutside heap 31 (limit - (height + 3) - 1)) (limit - (height + 3))
      (tableChildren (classifyTable castOutside (heap id)) (heap id)) with
    | none => ∃ obj, luaPopObject castOutside heap (.table id) = .ok obj ∧
      luaPopOnStack limit castOutside heap (.table id) height = (.ok obj, height)
    | some k => ∃ err,
      luaPopOnStack limit castOutside heap (.table id) height = (.error err, height + k) := by
  have hEnds : PopEnds limit castOutside heap 1 ⟨classifyTable castOutside (heap id), [],
      tableChildren (classifyTable castOutside (heap id)) (heap id)⟩ height _ :=
    popEnds 31 rfl Nat.one_pos rfl _
  have hStack : luaPopOnStack limit castOutside heap (.table id) height =
      match (popWalk limit castOutside heap).run ⟨classifyTable castOutside (heap id), [],
        tableChildren (classifyTable castOutside (heap id)) (heap id)⟩ [] height with
      | .done obj height => (.ok obj, height)
      | .halted err _ height => (.error err, height) := by
    rw [luaPopOnStack, if_neg (not_not_intro hCheck)]
    cases hKind : classifyTable castOutside (heap id) with
    | invalid => exact absurd hKind hValid
    | _ => rfl
  cases hLeft : refusalAll (refusal castOutside heap 31 (limit - (height + 3) - 1))
      (limit - (height + 3)) (tableChildren (classifyTable castOutside (heap id)) (heap id)) with
  | none =>
    rw [hLeft] at hEnds
    obtain ⟨obj, hSource, hReads⟩ := hEnds
    refine ⟨obj, ?_, ?_⟩
    · have hNode : (popSource castOutside heap).isNode (.table id) = true := rfl
      have hRun : (popSource castOutside heap).machine.run ⟨classifyTable castOutside (heap id), [],
          (popSource castOutside heap).children (.table id)⟩ [] () = .done obj () :=
        Machine.run_root hSource
      rw [luaPopObject, Source.run, if_pos hNode, popSource_enter hValid]
      dsimp only
      rw [hRun]
    · rw [hStack, Machine.run_root hReads, if_neg (by omega)]
  | some k =>
    rw [hLeft] at hEnds
    obtain ⟨err, frames, hReads⟩ := hEnds
    refine ⟨err, ?_⟩
    rw [hStack, Machine.run_root hReads]

theorem luaPopOnStack_exhausted (h : ¬luaCheckstack limit height 4 = true) (value : Value) :
    luaPopOnStack limit castOutside heap value height = (.error exhaustedReading, height) := by
  unfold luaPopOnStack
  rw [if_pos h]

theorem luaPopOnStack_invalid {id : Nat} (hCheck : luaCheckstack limit height 4 = true)
    (hInvalid : classifyTable castOutside (heap id) = .invalid) :
    luaPopOnStack limit castOutside heap (.table id) height = (.error badKeys, height) := by
  rw [luaPopOnStack, if_neg (not_not_intro hCheck), hInvalid]

theorem luaPopOnStack_scalar (hCheck : luaCheckstack limit height 4 = true)
    (hTable : value.isTable = false) :
    luaPopOnStack limit castOutside heap value height = (scalarize value, height) := by
  unfold luaPopOnStack
  rw [if_neg (not_not_intro hCheck)]
  cases value with
  | table id => cases hTable
  | _ => rfl

theorem luaPopOnStack_height_le : height ≤ (luaPopOnStack limit castOutside heap value height).2 := by
  by_cases hCheck : luaCheckstack limit height 4 = true
  · cases hTable : value.isTable with
    | false => rw [luaPopOnStack_scalar hCheck hTable]
    | true =>
      cases value with
      | table id =>
        by_cases hValid : classifyTable castOutside (heap id) = .invalid
        · rw [luaPopOnStack_invalid hCheck hValid]
        · have hLeaves := luaPopOnStack_table hCheck hValid
          split at hLeaves
          · obtain ⟨obj, -, hStack⟩ := hLeaves
            rw [hStack]
          · obtain ⟨err, hStack⟩ := hLeaves
            rw [hStack]
            exact Nat.le_add_right _ _
      | _ => cases hTable
  · rw [luaPopOnStack_exhausted hCheck]

/-- The height afterwards is the height before, unless a table was given up inside another. -/
theorem luaPopOnStack_height_iff :
    (luaPopOnStack limit castOutside heap value height).2 = height ↔
      limit < height + 4 ∨ Unwinds castOutside heap (limit - (height + 3)) value := by
  by_cases hCheck : luaCheckstack limit height 4 = true
  · have hRoom : height + 4 ≤ limit := of_decide_eq_true hCheck
    rw [or_iff_right (Nat.not_lt_of_le hRoom)]
    cases value with
    | table id =>
      by_cases hValid : classifyTable castOutside (heap id) = .invalid
      · rw [luaPopOnStack_invalid hCheck hValid]
        exact ⟨fun _ => .inr (.inl (classify_invalid_iff.mp hValid)), fun _ => rfl⟩
      · have hKeys : ¬¬((∃ n, (heap id).IsSequence n) ∨ (heap id).IsRecord) :=
          fun h => hValid (classify_invalid_iff.mpr h)
        have hLeaves := luaPopOnStack_table hCheck hValid
        have hTakes : refusal castOutside heap (31 + 1) (limit - (height + 3)) (.table id) = none ↔ _ :=
          refusal_none_iff
        rw [refusal_table rfl hValid] at hTakes
        have hPos : 0 < limit - (height + 3) := by omega
        have hZero : refusalAll (refusal castOutside heap (kMarshalDepthCap - 1)
              (limit - (height + 3) - 1)) (limit - (height + 3))
            (tableChildren (classifyTable castOutside (heap id)) (heap id)) = some 0 ↔ _ :=
          refusalAll_zero_iff hPos
        rw [Unwinds, or_iff_right hKeys, ← hZero]
        change _ ↔ Takes heap (31 + 1) (limit - (height + 3)) (.table id) ∨
          refusalAll (refusal castOutside heap 31 (limit - (height + 3) - 1)) _ _ = some 0
        rw [← hTakes]
        split at hLeaves
        · rename_i hNone
          obtain ⟨obj, -, hStack⟩ := hLeaves
          rw [hStack, hNone]
          exact ⟨fun _ => .inl rfl, fun _ => rfl⟩
        · rename_i k hSome
          obtain ⟨err, hStack⟩ := hLeaves
          rw [hStack, hSome]
          simp
    | _ =>
      rw [luaPopOnStack_scalar hCheck rfl]
      exact ⟨fun _ => trivial, fun _ => rfl⟩
  · have hRoom : limit < height + 4 := by
      have := of_decide_eq_false (Bool.eq_false_iff.mpr hCheck)
      omega
    rw [luaPopOnStack_exhausted hCheck]
    exact ⟨fun _ => .inl hRoom, fun _ => rfl⟩

end PopWalk

/-- An object that `object_to_lua` pushes, with `cap` containers inside one another at most and
`room` of their tables on the stack. -/
def Pushes : Nat → Nat → Object → Prop
  | 0, _, obj => obj.isContainer = false
  | cap + 1, room, obj => obj.isContainer = true →
    (pushSource.children obj = [] ∨ 0 < room) ∧
      ∀ c ∈ pushSource.children obj, Pushes cap (room - 1) c.2

def PushesAll (cap room : Nat) (cs : List (Value × Object)) : Prop :=
  (cs = [] ∨ 0 < room) ∧ ∀ c ∈ cs, Pushes cap (room - 1) c.2

theorem pushes_leaf {cap room : Nat} {obj : Object} (h : obj.isContainer = false) :
    Pushes cap room obj := by
  cases cap with
  | zero => exact h
  | succ cap =>
    intro hContainer
    rw [h] at hContainer
    cases hContainer

theorem pushes_container {cap room : Nat} {obj : Object} (h : obj.isContainer = true) :
    Pushes (cap + 1) room obj ↔ PushesAll cap room (pushSource.children obj) :=
  ⟨fun hPushes => hPushes h, fun hAll _ => hAll⟩

section PushWalk

variable {limit depth height cap room : Nat} {f : Frame Object Built Value Unit}
  {key : Value} {obj : Object} {rest : List (Value × Object)}

variable (limit) in
/-- The walk of a frame ends as the plain one does and gives its table back, or it is given up
and gives nothing back. -/
def PushEnds (depth : Nat) (f : Frame Object Built Value Unit) (height : Nat) (all : Prop) : Prop :=
  (all ∧ ∃ value, pushSource.machine.Reads depth f () (.done value ()) ∧
    (pushWalk limit).Reads depth f height (.done value (if 1 < depth then height - 1 else height))) ∨
  (¬all ∧ ∃ err frames k, (pushWalk limit).Reads depth f height (.halted err frames (height + k)))

theorem pushMove_room (hRest : f.rest = (key, obj) :: rest)
    (hRoom : luaCheckstack limit height 6 = true) :
    pushMove limit depth f height =
      if obj.isContainer then
        if kMarshalDepthCap ≤ depth then .halt objectTooDeep f height
        else .push f ⟨(), [], pushSource.children obj⟩ (height + 1)
      else .next (f.give (pushScalar obj)) height := by
  rw [pushMove, hRest]
  dsimp only
  rw [if_neg (not_not_intro hRoom)]

/-- The children of a container whose first is `obj`. -/
theorem pushEnds_cons (hRest : f.rest = (key, obj) :: rest)
    (hRoom : luaCheckstack limit height 6 = true) (hPos : 0 < depth)
    (hDepth : depth + cap = kMarshalDepthCap)
    (hInner : ∀ c, cap = c + 1 → PushEnds limit (depth + 1) ⟨(), [], pushSource.children obj⟩
      (height + 1) (PushesAll c (room - 1) (pushSource.children obj)))
    (hNext : ∀ b, PushEnds limit depth (f.give b) height (∀ c ∈ rest, Pushes cap (room - 1) c.2)) :
    PushEnds limit depth f height (∀ c ∈ (key, obj) :: rest, Pushes cap (room - 1) c.2) := by
  have hMove : pushMove limit depth f height = _ := pushMove_room hRest hRoom
  rw [List.forall_mem_cons]
  cases hContainer : obj.isContainer with
  | false =>
    rw [hContainer, if_neg Bool.false_ne_true] at hMove
    have hPlain : pushSource.move depth f () = .next (f.give (pushScalar obj)) () := by
      have hNode : ¬pushSource.isNode obj = true := Bool.eq_false_iff.mp hContainer
      rw [Source.move, hRest]
      dsimp only
      rw [if_neg hNode]
      rfl
    rcases hNext (pushScalar obj) with ⟨hAll, value, hSource, hReads⟩ |
      ⟨hSome, err, frames, k, hReads⟩
    · exact .inl ⟨⟨pushes_leaf hContainer, hAll⟩, value, .next hPlain hSource, .next hMove hReads⟩
    · exact .inr ⟨fun h => hSome h.2, err, frames, k, .next hMove hReads⟩
  | true =>
    rw [hContainer, if_pos rfl] at hMove
    cases cap with
    | zero =>
      rw [if_pos (by omega)] at hMove
      refine .inr ⟨fun h => ?_, _, _, 0, .halt hMove⟩
      have hLeaf : obj.isContainer = false := h.1
      rw [hContainer] at hLeaf
      cases hLeaf
    | succ cap =>
      rw [if_neg (by omega)] at hMove
      have hPlain : pushSource.move depth f () = .push f ⟨(), [], pushSource.children obj⟩ () := by
        have hNode : pushSource.isNode obj = true := hContainer
        have hCap : ¬pushSource.cap ≤ depth := by
          change ¬kMarshalDepthCap ≤ depth
          omega
        rw [Source.move, hRest]
        dsimp only
        rw [if_pos hNode, if_neg hCap]
        rfl
      rw [pushes_container hContainer]
      rcases hInner cap rfl with ⟨hAll, value, hSource, hReads⟩ | ⟨hSome, err, frames, k, hReads⟩
      · rw [if_pos (by omega), Nat.add_sub_cancel] at hReads
        rcases hNext value with ⟨hRestAll, result, hSource', hReads'⟩ |
          ⟨hRestSome, err, frames, k, hReads'⟩
        · exact .inl ⟨⟨hAll, hRestAll⟩, result, .push hPlain hSource hSource',
            .push hMove hReads hReads'⟩
        · exact .inr ⟨fun h => hRestSome h.2, err, frames, k, .push hMove hReads hReads'⟩
      · refine .inr ⟨fun h => hSome h.1, err, frames ++ [f], k + 1, ?_⟩
        have hInside := Machine.Reads.inside hMove hReads
        rwa [Nat.add_assoc, Nat.add_comm 1 k] at hInside

theorem pushEnds (cap : Nat) (hDepth : depth + cap = kMarshalDepthCap) (hPos : 0 < depth)
    (hRoom : room = limit - (height + 5)) (f : Frame Object Built Value Unit) :
    PushEnds limit depth f height (PushesAll cap room f.rest) := by
  induction cap using Nat.strong_induction_on generalizing depth height room f with
  | _ cap ih =>
    by_cases hPossible : f.rest = [] ∨ 0 < room
    · rw [PushesAll, and_iff_right hPossible]
      generalize hRest : f.rest = cs at hPossible
      induction cs generalizing f with
      | nil =>
        refine .inl ⟨nofun, pushSource.build f.tag f.done, .pop ?_, .pop ?_⟩
        · change pushSource.move depth f () = _
          rw [Source.move, hRest]
        · change pushMove limit depth f height = _
          rw [pushMove, hRest]
      | cons c rest ihRest =>
        obtain ⟨key, obj⟩ := c
        have hSome : 0 < room := hPossible.resolve_left (List.cons_ne_nil _ _)
        apply pushEnds_cons hRest (decide_eq_true (by omega)) hPos hDepth
        · intro c hc
          exact ih c (by omega) (by omega) (Nat.succ_pos _) (by omega) _
        · intro b
          exact ihRest (f.give b) (Source.give_rest hRest b) (.inr hSome)
    · rw [not_or] at hPossible
      obtain ⟨c, rest, hRest⟩ := List.exists_cons_of_ne_nil hPossible.1
      refine .inr ⟨fun h => h.1.elim hPossible.1 hPossible.2, exhaustedWriting, [f], 0, .halt ?_⟩
      change pushMove limit depth f height = _
      rw [pushMove, hRest]
      dsimp only
      rw [if_pos]
      · rfl
      · rw [luaCheckstack, decide_eq_true_eq]
        omega

/-- What `object_to_lua` does to the stack: nothing, one value pushed, or the tables of a walk
that was given up left there. -/
theorem objectToLuaOnStack_cases (limit : Nat) (obj : Object) (height : Nat) :
    (limit < height + 4 ∧ objectToLuaOnStack limit obj height = (.error exhaustedWriting, height)) ∨
    (height + 4 ≤ limit ∧ Pushes kMarshalDepthCap (limit - (height + 6)) obj ∧
      ∃ value, objectToLua obj = .ok value ∧
        objectToLuaOnStack limit obj height = (.ok value, height + 1)) ∨
    (height + 4 ≤ limit ∧ ¬Pushes kMarshalDepthCap (limit - (height + 6)) obj ∧
      ∃ err k, objectToLuaOnStack limit obj height = (.error err, height + 1 + k)) := by
  unfold objectToLuaOnStack
  by_cases hCheck : luaCheckstack limit height 4 = true
  · have hRoom : height + 4 ≤ limit := of_decide_eq_true hCheck
    rw [if_neg (not_not_intro hCheck)]
    right
    cases hContainer : obj.isContainer with
    | false =>
      have hNode : ¬pushSource.isNode obj = true := Bool.eq_false_iff.mp hContainer
      refine .inl ⟨hRoom, pushes_leaf hContainer, pushScalar obj, ?_, rfl⟩
      rw [objectToLua, Source.run, if_neg hNode]
      rfl
    | true =>
      have hNode : pushSource.isNode obj = true := hContainer
      have hEnds : PushEnds limit 1 ⟨(), [], pushSource.children obj⟩ (height + 1)
          (PushesAll 31 (limit - (height + 6)) (pushSource.children obj)) :=
        pushEnds 31 rfl Nat.one_pos (by omega) _
      rw [if_neg (by simp)]
      rcases hEnds with ⟨hAll, value, hSource, hReads⟩ | ⟨hSome, err, frames, k, hReads⟩
      · refine .inl ⟨hRoom, (pushes_container hContainer).mpr hAll, value, ?_, ?_⟩
        · have hRun : pushSource.machine.run ⟨(), [], pushSource.children obj⟩ [] () =
              .done value () := Machine.run_root hSource
          have hEnter : pushSource.enter obj () = .ok ((), ()) := rfl
          rw [objectToLua, Source.run, if_pos hNode, hEnter]
          dsimp only
          rw [hRun]
        · rw [Machine.run_root hReads, if_neg (by omega)]
      · refine .inr ⟨hRoom, fun h => hSome ((pushes_container hContainer).mp h), err, k, ?_⟩
        rw [Machine.run_root hReads]
  · have hRoom : limit < height + 4 := by
      have := of_decide_eq_false (Bool.eq_false_iff.mpr hCheck)
      omega
    rw [if_pos hCheck]
    exact .inl ⟨hRoom, rfl⟩

end PushWalk

end Mua.Lua
