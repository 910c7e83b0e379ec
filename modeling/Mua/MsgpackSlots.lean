import Mua.MsgpackMemory

/-! # The tree of the decoder in memory

The frames of the stack lead from the root to the slot that is read next, and what
they have filled is what the frames of the codec hold. What is stored at that slot
moves no other block.
-/

namespace Mua.Msgpack

open Walk (Place nodeAt)

theorem Slot.itemsObject_eq (items : List Slot) :
    Slot.itemsObject items = items.map Slot.object := by
  induction items with
  | nil => rfl
  | cons item rest ih => rw [Slot.itemsObject, ih, List.map_cons]

theorem Slot.membersObject_eq (items : List (Text × Slot)) :
    Slot.membersObject items = items.map fun m => (m.1.bytes, m.2.object) := by
  induction items with
  | nil => rfl
  | cons member rest ih =>
    obtain ⟨key, value⟩ := member
    rw [Slot.membersObject, ih, List.map_cons]

theorem Slot.itemsBlocks_eq (items : List Slot) :
    Slot.itemsBlocks items = items.flatMap Slot.blocks := by
  induction items with
  | nil => rfl
  | cons item rest ih => rw [Slot.itemsBlocks, ih, List.flatMap_cons]

theorem Slot.membersBlocks_eq (items : List (Text × Slot)) :
    Slot.membersBlocks items = items.flatMap fun m => m.1.block.toList ++ m.2.blocks := by
  induction items with
  | nil => rfl
  | cons member rest ih =>
    obtain ⟨key, value⟩ := member
    rw [Slot.membersBlocks, ih, List.flatMap_cons]

def Slot.block : Slot → Option Nat
  | .array block _ | .dict block _ => block
  | _ => none

def memberBlocks (m : Text × Slot) : List Nat := m.1.block.toList ++ m.2.blocks

theorem Slot.blocks_eq {s : Slot} (h : s.isMap.isSome = true) :
    s.blocks = s.members.flatMap memberBlocks ++ s.block.toList := by
  cases s with
  | array block items =>
    rw [Slot.blocks, Slot.itemsBlocks_eq, Slot.members, Slot.block, List.flatMap_map]
    rfl
  | dict block items =>
    rw [Slot.blocks, Slot.membersBlocks_eq, Slot.members, Slot.block]
    rfl
  | _ => cases h

theorem Slot.object_eq {s : Slot} {isMap : Bool} (h : s.isMap = some isMap) :
    s.object = if isMap then .dict (s.members.map fun m => (m.1.bytes, m.2.object))
      else .array (s.members.map fun m => m.2.object) := by
  cases s with
  | array block items =>
    cases h
    simp [Slot.object, Slot.itemsObject_eq, Slot.members, Function.comp_def]
  | dict block items =>
    cases h
    simp [Slot.object, Slot.membersObject_eq, Slot.members]
  | _ => cases h

def Slot.nesting (s : Slot) : Nat := s.object.nesting

theorem Slot.nesting_kid {s kid : Slot} (h : kid ∈ s.kids) : kid.nesting < s.nesting := by
  cases s with
  | array block items =>
    simp only [Slot.kids, Slot.members, List.map_map, Function.comp_def, List.map_id'] at h
    rw [nesting, nesting, object, itemsObject_eq]
    exact Object.nesting_item (List.mem_map_of_mem h)
  | dict block items =>
    obtain ⟨member, hMember, rfl⟩ := List.mem_map.mp h
    rw [nesting, nesting, object, membersObject_eq]
    exact Object.nesting_member (List.mem_map_of_mem (f := fun m : Text × Slot =>
      (m.1.bytes, m.2.object)) hMember)
  | _ => cases h

theorem Slot.nesting_le_succ {s : Slot} {room : Nat} (h : ∀ kid ∈ s.kids, kid.nesting ≤ room) :
    s.nesting ≤ room + 1 := by
  cases s with
  | array block items =>
    rw [nesting, object, itemsObject_eq]
    refine Object.itemsNesting_le ?_
    intro item hItem
    obtain ⟨kid, hKid, rfl⟩ := List.mem_map.mp hItem
    exact h kid (by simpa [Slot.kids, Slot.members, Function.comp_def] using hKid)
  | dict block items =>
    rw [nesting, object, membersObject_eq]
    refine Object.membersNesting_le ?_
    intro member hMember
    obtain ⟨m, hm, rfl⟩ := List.mem_map.mp hMember
    exact h m.2 (List.mem_map_of_mem hm)
  | _ => exact Nat.zero_le _

theorem Slot.members_setKid (s : Slot) (i : Nat) (x : Slot) :
    (s.setKid i x).members = s.members.modify i fun m => (m.1, x) := by
  cases s with
  | array block items =>
    refine List.ext_getElem? fun j => ?_
    simp only [Slot.setKid, Slot.members, List.getElem?_map, List.getElem?_set, List.getElem?_modify]
    split
    · rename_i hEq
      subst hEq
      rcases Nat.lt_or_ge i items.length with hLt | hGe
      · simp [hLt]
      · simp [hGe]
    · cases items[j]? <;> simp
  | dict block items => rfl
  | _ => simp [Slot.setKid, Slot.members]

theorem Slot.isMap_setKid (s : Slot) (i : Nat) (x : Slot) : (s.setKid i x).isMap = s.isMap := by
  cases s <;> rfl

theorem Slot.members_setKey {s : Slot} (h : s.isMap = some true) (i : Nat) (key : Text) :
    (s.setKey i key).members = s.members.modify i fun m => (key, m.2) := by
  cases s with
  | dict block items => rfl
  | _ => cases h

theorem Slot.isMap_setKey (s : Slot) (i : Nat) (key : Text) : (s.setKey i key).isMap = s.isMap := by
  cases s <;> rfl

theorem Slot.members_opened (isMap : Bool) (block : Option Nat) (count : Nat) :
    (Slot.opened isMap block count).members = List.replicate count (Text.unset, .nil) := by
  cases isMap <;> simp [Slot.opened, Slot.members]

theorem Slot.isMap_opened (isMap : Bool) (block : Option Nat) (count : Nat) :
    (Slot.opened isMap block count).isMap = some isMap := by
  cases isMap <;> rfl

/-- The frame stands for the container: behind its index nothing is written yet. -/
structure Holds (f : MpFrame) (s : Slot) : Prop where
  kind : s.isMap = some f.isMap
  array : f.isMap = false → f.awaitingValue = false
  count : s.members.length = f.remaining
  idx : f.idx ≤ f.remaining
  values : ∀ j m, f.idx ≤ j → s.members[j]? = some m → m.2 = .nil
  keys : ∀ j m, f.idx ≤ j → (j = f.idx → f.awaitingValue = false) → s.members[j]? = some m →
    m.1 = Text.unset

/-- The first `k` children are those of the codec's frame; a map holds the key of the next. -/
def Mirrors (frame : MpDecFrame) (s : Slot) (k : Nat) (held : Bool) : Prop :=
  match frame with
  | .array remaining items => s.isMap = some false ∧ remaining = s.members.length ∧
    items = (s.members.take k).map fun m => m.2.object
  | .map remaining items key => s.isMap = some true ∧ remaining = s.members.length ∧
    items = ((s.members.take k).map fun m => (m.1.bytes, m.2.object)) ∧
    key = if held then (s.members[k]?).map fun m => m.1.bytes else none

/-- From a slot at place `p`, frame after frame leads to the slot `x` that is read. -/
inductive Spine : Slot → Place → List MpFrame → List MpDecFrame → Place → Slot → Prop
  | here (s : Slot) (p : Place) : Spine s p [] [] [] s
  | under {s c x : Slot} {p r : Place} {f : MpFrame} {fs : List MpFrame} {frame : MpDecFrame}
    {frames : List MpDecFrame} {i : Nat} (hHolds : Holds f s) (hPlace : f.container = p)
    (hIdx : f.idx = i + 1) (hFree : f.awaitingValue = false) (hMirrors : Mirrors frame s i true)
    (hKid : s.kids[i]? = some c) (hRest : Spine c (p ++ [i]) fs frames r x) :
    Spine s p (f :: fs) (frame :: frames) (i :: r) x

section Spine

variable {s c x y : Slot} {p r w : Place} {f : MpFrame} {fs : List MpFrame} {frame : MpDecFrame}
  {frames : List MpDecFrame} {i : Nat}

theorem getElem?_setKid (s : Slot) (i : Nat) (x : Slot) (j : Nat) :
    (s.setKid i x).members[j]? = (s.members[j]?).map fun m => if i = j then (m.1, x) else m := by
  rw [Slot.members_setKid, List.getElem?_modify]
  rfl

theorem Holds.setKid (h : Holds f s) (hIdx : i < f.idx) (y : Slot) : Holds f (s.setKid i y) := by
  have hOther : ∀ j m, f.idx ≤ j → (s.setKid i y).members[j]? = some m → s.members[j]? = some m := by
    intro j m hj hGet
    rw [getElem?_setKid] at hGet
    obtain ⟨m', hOld, rfl⟩ := Option.map_eq_some_iff.mp hGet
    rw [if_neg (by omega)]
    exact hOld
  constructor
  case kind => rw [Slot.isMap_setKid, h.kind]
  case array => exact h.array
  case count => rw [Slot.members_setKid, List.length_modify, h.count]
  case idx => exact h.idx
  case values => exact fun j m hj hGet => h.values j m hj (hOther j m hj hGet)
  case keys => exact fun j m hj hFree hGet => h.keys j m hj hFree (hOther j m hj hGet)

theorem take_setKid (s : Slot) (i : Nat) (x : Slot) :
    (s.setKid i x).members.take i = s.members.take i := by
  refine List.ext_getElem? fun j => ?_
  rw [List.getElem?_take, List.getElem?_take, getElem?_setKid]
  split
  · rename_i hj
    cases s.members[j]? with
    | none => rfl
    | some m => simp [show i ≠ j by omega]
  · rfl

theorem Mirrors.setKid (h : Mirrors frame s i true) (y : Slot) :
    Mirrors frame (s.setKid i y) i true := by
  have hLength : (s.setKid i y).members.length = s.members.length := by
    rw [Slot.members_setKid, List.length_modify]
  have hKey : ((s.setKid i y).members[i]?).map (fun m => m.1.bytes) =
      (s.members[i]?).map fun m => m.1.bytes := by
    rw [getElem?_setKid, Option.map_map]
    congr 1
    funext m
    simp
  cases frame with
  | array remaining items =>
    obtain ⟨hKind, hCount, hItems⟩ := h
    refine ⟨?_, ?_, ?_⟩
    · rw [Slot.isMap_setKid, hKind]
    · rw [hLength, hCount]
    · rw [take_setKid, hItems]
  | map remaining items key =>
    obtain ⟨hKind, hCount, hItems, hAwaits⟩ := h
    refine ⟨?_, ?_, ?_, ?_⟩
    · rw [Slot.isMap_setKid, hKind]
    · rw [hLength, hCount]
    · rw [take_setKid, hItems]
    · rw [if_pos rfl, hKey]
      exact hAwaits

theorem kids_getElem? (s : Slot) (i : Nat) : s.kids[i]? = (s.members[i]?).map fun m => m.2 := by
  rw [Slot.kids, List.getElem?_map]

theorem kids_setKid (hKid : s.kids[i]? = some c) (y : Slot) : (s.setKid i y).kids[i]? = some y := by
  rw [kids_getElem?] at hKid ⊢
  obtain ⟨m, hGet, -⟩ := Option.map_eq_some_iff.mp hKid
  rw [getElem?_setKid, hGet]
  simp

theorem members_split {m : Text × Slot} (hGet : s.members[i]? = some m) :
    s.members = s.members.take i ++ m :: s.members.drop (i + 1) := by
  obtain ⟨hLt, hAt⟩ := List.getElem?_eq_some_iff.mp hGet
  rw [← hAt, List.getElem_cons_drop, List.take_append_drop]

theorem members_setKid_split {m : Text × Slot} (hGet : s.members[i]? = some m) (y : Slot) :
    (s.setKid i y).members = s.members.take i ++ (m.1, y) :: s.members.drop (i + 1) := by
  obtain ⟨hLt, hAt⟩ := List.getElem?_eq_some_iff.mp hGet
  rw [Slot.members_setKid, List.modify_eq_take_cons_drop hLt, hAt]

theorem blocks_setKid (hMap : s.isMap.isSome = true) (hKid : s.kids[i]? = some c) :
    ∃ others, s.blocks.Perm (c.blocks ++ others) ∧
      ∀ y, (s.setKid i y).blocks.Perm (y.blocks ++ others) := by
  rw [kids_getElem?] at hKid
  obtain ⟨m, hGet, rfl⟩ := Option.map_eq_some_iff.mp hKid
  have hPerm : ∀ kid : Slot,
      ((s.members.take i ++ (m.1, kid) :: s.members.drop (i + 1)).flatMap memberBlocks ++
        s.block.toList).Perm (kid.blocks ++ ((s.members.take i).flatMap memberBlocks ++
          (m.1.block.toList ++ ((s.members.drop (i + 1)).flatMap memberBlocks ++
            s.block.toList)))) := by
    intro kid
    refine List.perm_iff_count.mpr fun a => ?_
    simp only [List.flatMap_append, List.flatMap_cons, memberBlocks, List.count_append]
    omega
  refine ⟨(s.members.take i).flatMap memberBlocks ++ (m.1.block.toList ++
    ((s.members.drop (i + 1)).flatMap memberBlocks ++ s.block.toList)), ?_, fun y => ?_⟩
  · rw [Slot.blocks_eq hMap]
    conv_lhs => rw [members_split hGet]
    exact hPerm m.2
  · have hBlock : (s.setKid i y).block = s.block := by cases s <;> rfl
    have hSome : (s.setKid i y).isMap.isSome = true := by rw [Slot.isMap_setKid, hMap]
    rw [Slot.blocks_eq hSome, members_setKid_split hGet, hBlock]
    exact hPerm y

theorem nesting_setKid {cap : Nat} (hOld : s.nesting ≤ cap + 1) (hNew : y.nesting ≤ cap) :
    (s.setKid i y).nesting ≤ cap + 1 := by
  refine Slot.nesting_le_succ fun kid hMem => ?_
  obtain ⟨j, hGet⟩ := List.mem_iff_getElem?.mp hMem
  rw [kids_getElem?, getElem?_setKid, Option.map_map] at hGet
  obtain ⟨m, hMember, rfl⟩ := Option.map_eq_some_iff.mp hGet
  dsimp only [Function.comp]
  split
  · exact hNew
  · have hKid : m.2 ∈ s.kids := List.mem_map_of_mem (List.mem_of_getElem? hMember)
    have := Slot.nesting_kid hKid
    omega

theorem getElem?_setKey (h : s.isMap = some true) (i : Nat) (key : Text) (j : Nat) :
    (s.setKey i key).members[j]? =
      (s.members[j]?).map fun m => if i = j then (key, m.2) else m := by
  rw [Slot.members_setKey h, List.getElem?_modify]
  rfl

theorem kids_setKey (h : s.isMap = some true) (i : Nat) (key : Text) :
    (s.setKey i key).kids = s.kids := by
  refine List.ext_getElem? fun j => ?_
  rw [kids_getElem?, kids_getElem?, getElem?_setKey h, Option.map_map]
  cases s.members[j]? with
  | none => rfl
  | some m =>
    simp only [Option.map_some, Function.comp]
    split <;> rfl

theorem nesting_setKey (h : s.isMap = some true) (i : Nat) (key : Text) :
    (s.setKey i key).nesting ≤ s.nesting := by
  have hPos : 0 < s.nesting := by
    cases s with
    | dict block items =>
      rw [Slot.nesting, Slot.object, Object.nesting]
      omega
    | _ => cases h
  obtain ⟨room, hRoom⟩ := Nat.exists_eq_succ_of_ne_zero (Nat.ne_of_gt hPos)
  rw [hRoom]
  refine Slot.nesting_le_succ fun kid hKid => ?_
  rw [kids_setKey h] at hKid
  have := Slot.nesting_kid hKid
  omega

theorem Spine.length (h : Spine s p fs frames r x) : r.length = fs.length := by
  induction h with
  | here => rfl
  | under _ _ _ _ _ _ _ ih => rw [List.length_cons, List.length_cons, ih]

theorem Spine.frames_length (h : Spine s p fs frames r x) : frames.length = fs.length := by
  induction h with
  | here => rfl
  | under _ _ _ _ _ _ _ ih => rw [List.length_cons, List.length_cons, ih]

theorem Spine.node (h : Spine s p fs frames r x) : nodeAt Slot.kids s r = some x := by
  induction h with
  | here => rfl
  | under _ _ _ _ _ hKid _ ih =>
    rw [nodeAt, hKid]
    exact ih

theorem Spine.nesting (h : Spine s p fs frames r x) : r.length + x.nesting ≤ s.nesting := by
  induction h with
  | here s p => exact Nat.le_of_eq (Nat.zero_add _)
  | under _ _ _ _ _ hKid _ ih =>
    have := Slot.nesting_kid (List.mem_of_getElem? hKid)
    rw [List.length_cons]
    omega

structure Stored (s s' : Slot) (r : Place) (x y : Slot) : Prop where
  store : s.store r y = some s'
  blocks : ∃ others, s.blocks.Perm (x.blocks ++ others) ∧ s'.blocks.Perm (y.blocks ++ others)
  nesting : ∀ cap, s.nesting ≤ cap → r.length + y.nesting ≤ cap → s'.nesting ≤ cap

theorem Spine.store (h : Spine s p fs frames r x) (y : Slot) :
    ∃ s', Stored s s' r x y ∧ Spine s' p fs frames r y := by
  induction h with
  | here s p =>
    refine ⟨y, ⟨?_, ⟨[], ?_, ?_⟩, ?_⟩, .here y p⟩
    · rw [Slot.store]
    · rw [List.append_nil]
    · rw [List.append_nil]
    · intro cap _ hNew
      rwa [List.length_nil, Nat.zero_add] at hNew
  | @under s c x p r f fs frame frames i hHolds hPlace hIdx hFree hMirrors hKid hRest ih =>
    obtain ⟨c', ⟨hStore, ⟨inner, hInner, hInner'⟩, hNesting⟩, hSpine⟩ := ih
    have hMap : s.isMap.isSome = true := by rw [hHolds.kind]; rfl
    obtain ⟨outer, hOuter, hOuter'⟩ := blocks_setKid hMap hKid
    refine ⟨s.setKid i c', ⟨?_, ⟨inner ++ outer, ?_, ?_⟩, ?_⟩, ?_⟩
    · rw [Slot.store, hKid]
      change (c.store r y).map _ = _
      rw [hStore]
      rfl
    · rw [← List.append_assoc]
      exact hOuter.trans (hInner.append_right outer)
    · rw [← List.append_assoc]
      exact (hOuter' c').trans (hInner'.append_right outer)
    · intro cap hOld hNew
      rw [List.length_cons] at hNew
      obtain ⟨room, rfl⟩ : ∃ room, cap = room + 1 := ⟨cap - 1, by omega⟩
      have hKidNesting := Slot.nesting_kid (List.mem_of_getElem? hKid)
      exact nesting_setKid hOld (hNesting room (by omega) (by omega))
    · have hLt : i < f.idx := by omega
      exact .under (hHolds.setKid hLt c') hPlace hIdx hFree (hMirrors.setKid c')
        (kids_setKid hKid c') hSpine

theorem Spine.snoc (h : Spine s p fs frames r c) (hHolds : Holds f c) (hPlace : f.container = p ++ r)
    (hIdx : f.idx = i + 1) (hFree : f.awaitingValue = false) (hMirrors : Mirrors frame c i true)
    (hKid : c.kids[i]? = some x) :
    Spine s p (fs ++ [f]) (frames ++ [frame]) (r ++ [i]) x := by
  induction h with
  | here s p =>
    rw [List.append_nil] at hPlace
    exact .under hHolds hPlace hIdx hFree hMirrors hKid (.here x (p ++ [i]))
  | @under s _ _ p _ _ _ _ _ j hHolds' hPlace' hIdx' hFree' hMirrors' hKid' _ ih =>
    have hInner := ih hHolds (by rw [hPlace, List.append_assoc]; rfl) hMirrors hKid
    exact .under hHolds' hPlace' hIdx' hFree' hMirrors' hKid' hInner

theorem Spine.unsnoc (h : Spine s p (fs ++ [f]) frames w x) :
    ∃ frames' frame r c i, frames = frames' ++ [frame] ∧ w = r ++ [i] ∧ Spine s p fs frames' r c ∧
      Holds f c ∧ f.container = p ++ r ∧ f.idx = i + 1 ∧ f.awaitingValue = false ∧
      Mirrors frame c i true ∧ c.kids[i]? = some x := by
  induction fs generalizing s p frames w with
  | nil =>
    cases h with
    | @under _ c _ _ _ _ _ frame _ i hHolds hPlace hIdx hFree hMirrors hKid hRest =>
      cases hRest
      refine ⟨[], frame, [], s, i, rfl, rfl, .here s p, hHolds, ?_, hIdx, hFree, hMirrors, hKid⟩
      rw [List.append_nil, hPlace]
  | cons g fs ih =>
    cases h with
    | @under _ c' _ _ _ _ _ frame _ i hHolds hPlace hIdx hFree hMirrors hKid hRest =>
      obtain ⟨frames', frame', r, c, j, rfl, rfl, hSpine, hHolds', hPlace', hRest'⟩ := ih hRest
      refine ⟨frame :: frames', frame', i :: r, c, j, rfl, rfl,
        .under hHolds hPlace hIdx hFree hMirrors hKid hSpine, hHolds', ?_, hRest'⟩
      rw [hPlace', List.append_assoc]
      rfl

theorem Mirrors.give (h : Mirrors frame c i true) (hKid : c.kids[i]? = some x) :
    Mirrors (frame.give x.object) c (i + 1) false := by
  rw [kids_getElem?] at hKid
  obtain ⟨m, hGet, rfl⟩ := Option.map_eq_some_iff.mp hKid
  obtain ⟨hLt, hAt⟩ := List.getElem?_eq_some_iff.mp hGet
  have hTake : c.members.take (i + 1) = c.members.take i ++ [m] := by
    rw [← hAt, List.take_append_getElem hLt]
  cases frame with
  | array remaining items =>
    obtain ⟨hKind, hCount, rfl⟩ := h
    refine ⟨hKind, hCount, ?_⟩
    rw [hTake, List.map_append]
    rfl
  | map remaining items key =>
    obtain ⟨hKind, hCount, rfl, hAwaits⟩ := h
    rw [if_pos rfl, hGet] at hAwaits
    subst hAwaits
    refine ⟨hKind, hCount, ?_, rfl⟩
    rw [hTake, List.map_append]
    rfl

theorem Holds.next (h : Holds f c) (hMore : f.idx < f.remaining) :
    ∃ m, c.members[f.idx]? = some m ∧ m.2 = .nil := by
  have hLt : f.idx < c.members.length := h.count.symm ▸ hMore
  have hGet := List.getElem?_eq_getElem hLt
  exact ⟨_, hGet, h.values _ _ (Nat.le_refl _) hGet⟩

theorem Mirrors.full (h : Mirrors frame c f.idx f.awaitingValue) (hHolds : Holds f c) :
    frame.full = decide (f.remaining ≤ f.idx) := by
  have hLength : (c.members.take f.idx).length = f.idx :=
    List.length_take_of_le (hHolds.count.symm ▸ hHolds.idx)
  cases frame with
  | array remaining items =>
    obtain ⟨-, rfl, rfl⟩ := h
    rw [MpDecFrame.full, List.length_map, hLength, hHolds.count]
  | map remaining items key =>
    obtain ⟨-, rfl, rfl, -⟩ := h
    rw [MpDecFrame.full, List.length_map, hLength, hHolds.count]

theorem Mirrors.object (h : Mirrors frame c f.idx f.awaitingValue) (hHolds : Holds f c)
    (hFull : f.remaining ≤ f.idx) : frame.object = c.object := by
  have hTake : c.members.take f.idx = c.members :=
    List.take_of_length_le (hHolds.count.symm ▸ hFull)
  cases frame with
  | array remaining items =>
    obtain ⟨hKind, -, rfl⟩ := h
    rw [Slot.object_eq hKind, hTake]
    rfl
  | map remaining items key =>
    obtain ⟨hKind, -, rfl, -⟩ := h
    rw [Slot.object_eq hKind, hTake]
    rfl

theorem Mirrors.atKey (h : Mirrors frame c f.idx f.awaitingValue) (hHolds : Holds f c)
    (hMore : f.idx < f.remaining) : frame.atKey = (f.isMap && !f.awaitingValue) := by
  have hKind := hHolds.kind
  cases frame with
  | array remaining items =>
    obtain ⟨hArray, -, -⟩ := h
    rw [hArray] at hKind
    rw [← Option.some.inj hKind]
    rfl
  | map remaining items key =>
    obtain ⟨hMap, -, -, hAwaits⟩ := h
    rw [hMap] at hKind
    rw [← Option.some.inj hKind]
    obtain ⟨m, hGet, -⟩ := hHolds.next hMore
    rw [hGet] at hAwaits
    subst hAwaits
    cases f.awaitingValue <;> rfl

theorem Holds.setKey (h : Holds f c) (hMap : f.isMap = true) (key : Text) :
    Holds { f with awaitingValue := true } (c.setKey f.idx key) := by
  have hKind : c.isMap = some true := by rw [h.kind, hMap]
  constructor
  case kind => rw [Slot.isMap_setKey, h.kind]
  case array => exact fun hArray => absurd (hMap.symm.trans hArray) (by decide)
  case count => rw [Slot.members_setKey hKind, List.length_modify, h.count]
  case idx => exact h.idx
  case values =>
    intro j m hj hGet
    rw [getElem?_setKey hKind] at hGet
    obtain ⟨m', hOld, rfl⟩ := Option.map_eq_some_iff.mp hGet
    have hNil := h.values j m' hj hOld
    split
    · exact hNil
    · exact hNil
  case keys =>
    intro j m hj hFree hGet
    have hOther : f.idx ≠ j := fun hEq => Bool.noConfusion (hFree hEq.symm)
    rw [getElem?_setKey hKind] at hGet
    obtain ⟨m', hOld, rfl⟩ := Option.map_eq_some_iff.mp hGet
    rw [if_neg hOther]
    exact h.keys j m' hj (fun hEq => absurd hEq.symm hOther) hOld

theorem Mirrors.setKey (h : Mirrors frame c f.idx false) (hHolds : Holds f c)
    (hMap : f.isMap = true) (hMore : f.idx < f.remaining) (key : Text) :
    Mirrors (frame.setKey key.bytes) (c.setKey f.idx key) f.idx true := by
  have hKind : c.isMap = some true := by rw [hHolds.kind, hMap]
  obtain ⟨m, hGet, -⟩ := hHolds.next hMore
  have hTake : (c.setKey f.idx key).members.take f.idx = c.members.take f.idx := by
    refine List.ext_getElem? fun j => ?_
    rw [List.getElem?_take, List.getElem?_take, getElem?_setKey hKind]
    split
    · rename_i hj
      cases c.members[j]? with
      | none => rfl
      | some m => simp [show f.idx ≠ j by omega]
    · rfl
  cases frame with
  | array remaining items =>
    obtain ⟨hArray, -, -⟩ := h
    rw [hArray] at hKind
    cases hKind
  | map remaining items awaits =>
    obtain ⟨-, hCount, hItems, -⟩ := h
    refine ⟨?_, ?_, ?_, ?_⟩
    · rw [Slot.isMap_setKey, hKind]
    · rw [Slot.members_setKey hKind, List.length_modify, hCount]
    · rw [hTake, hItems]
    · rw [getElem?_setKey hKind, hGet]
      simp

theorem blocks_setKey (hKind : s.isMap = some true) {m : Text × Slot}
    (hGet : s.members[i]? = some m) (hFree : m.1 = Text.unset) (key : Text) :
    (s.setKey i key).blocks.Perm (key.block.toList ++ s.blocks) := by
  obtain ⟨hLt, hAt⟩ := List.getElem?_eq_some_iff.mp hGet
  have hBlock : (s.setKey i key).block = s.block := by cases s <;> rfl
  have hMembers : (s.setKey i key).members =
      s.members.take i ++ (key, m.2) :: s.members.drop (i + 1) := by
    rw [Slot.members_setKey hKind, List.modify_eq_take_cons_drop hLt, hAt]
  rw [Slot.blocks_eq (by rw [Slot.isMap_setKey, hKind]; rfl), Slot.blocks_eq (by rw [hKind]; rfl),
    hBlock, hMembers]
  conv_rhs => rw [members_split hGet]
  refine List.perm_iff_count.mpr fun a => ?_
  simp only [List.flatMap_append, List.flatMap_cons, memberBlocks, List.count_append, hFree,
    Text.unset, Option.toList_none, List.count_nil]
  omega

theorem Holds.taken (h : Holds f c) (hMore : f.idx < f.remaining) :
    Holds { f with idx := f.idx + 1, awaitingValue := false } c := by
  constructor
  case kind => exact h.kind
  case array => exact fun _ => rfl
  case count => exact h.count
  case idx => exact hMore
  case values => exact fun j m hj hGet => h.values j m (Nat.le_of_succ_le hj) hGet
  case keys =>
    intro j m hj _ hGet
    have hj : f.idx + 1 ≤ j := hj
    exact h.keys j m (by omega) (fun hEq => absurd hEq (by omega)) hGet

theorem Mirrors.taken (h : Mirrors frame c f.idx f.awaitingValue) (hHolds : Holds f c)
    (hAwaits : f.isMap = true → f.awaitingValue = true) : Mirrors frame c f.idx true := by
  cases frame with
  | array remaining items => exact h
  | map remaining items key =>
    have hKind := hHolds.kind
    rw [h.1] at hKind
    rw [hAwaits (Option.some.inj hKind).symm] at h
    exact h

theorem holds_opened (slot : Place) (isMap : Bool) (block : Option Nat) (count : Nat) :
    Holds ⟨slot, count, 0, isMap, false⟩ (Slot.opened isMap block count) := by
  have hMember : ∀ (j : Nat) (m : Text × Slot), (Slot.opened isMap block count).members[j]? = some m →
      m = (Text.unset, Slot.nil) := by
    intro j m hGet
    rw [Slot.members_opened] at hGet
    exact List.eq_of_mem_replicate (List.mem_of_getElem? hGet)
  constructor
  case kind => exact Slot.isMap_opened isMap block count
  case array => exact fun _ => rfl
  case count => rw [Slot.members_opened, List.length_replicate]
  case idx => exact Nat.zero_le count
  case values => exact fun j m _ hGet => by rw [hMember j m hGet]
  case keys => exact fun j m _ _ hGet => by rw [hMember j m hGet]

theorem mirrors_opened (isMap : Bool) (block : Option Nat) (count : Nat) :
    Mirrors (if isMap then .map count [] none else .array count [])
      (Slot.opened isMap block count) 0 false := by
  cases isMap with
  | false => exact ⟨rfl, by rw [Slot.members_opened, List.length_replicate], rfl⟩
  | true => exact ⟨rfl, by rw [Slot.members_opened, List.length_replicate], rfl, rfl⟩

theorem blocks_opened (isMap : Bool) (block : Option Nat) (count : Nat) :
    (Slot.opened isMap block count).blocks = block.toList := by
  have hMap : (Slot.opened isMap block count).isMap.isSome = true := by
    rw [Slot.isMap_opened]
    rfl
  have hNone : (Slot.opened isMap block count).members.flatMap memberBlocks = [] := by
    rw [Slot.members_opened]
    refine List.flatMap_eq_nil_iff.mpr fun m hMem => ?_
    rw [List.eq_of_mem_replicate hMem]
    rfl
  rw [Slot.blocks_eq hMap, hNone]
  cases isMap <;> rfl

theorem nesting_opened (isMap : Bool) (block : Option Nat) (count : Nat) :
    (Slot.opened isMap block count).nesting ≤ 1 := by
  refine Slot.nesting_le_succ fun kid hKid => ?_
  rw [Slot.kids, Slot.members_opened] at hKid
  obtain ⟨m, hMem, rfl⟩ := List.mem_map.mp hKid
  rw [List.eq_of_mem_replicate hMem]
  exact Nat.le_refl _

end Spine

end Mua.Msgpack
