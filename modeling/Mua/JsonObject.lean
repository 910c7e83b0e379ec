import Mua.Helpers

/-! # The converters of json.c

Their loops, with the blocks they allocate. A heap is the number of the next
block. Whatever `cjson_to_object` allocated for a tree it then rejects, it frees
once; what it accepts, `object_to_cjson` gives back.
-/

namespace Mua

open Rebuild

def CJson.isContainer : CJson → Bool
  | .array _ | .object _ => true
  | _ => false

/-- What `cjson_node_init` allocates for a container: its backing array, and the keys. -/
inductive Backing
  | array (block : Option Nat)
  | dict (block : Option Nat) (keys : List Nat)

/-- A scalar by value, a string copied into a block of its own. -/
def cjsonLeaf : CJson → Nat → Owned × Nat
  | .bool b, heap => (.boolean b, heap)
  | .number d, heap =>
    (if d.exactInt then .integer (Int64.ofInt d.trunc) else .float d, heap)
  | .string s, heap => (.string heap (cstr s), heap + 1)
  | _, heap => (.nil, heap)

def cjsonEnter : CJson → Nat → Backing × Nat
  | .array (_ :: _), heap => (.array (some heap), heap + 1)
  | .object (member :: rest), heap =>
    (.dict (some heap) (List.range' (heap + 1) (rest.length + 1)),
      heap + 1 + (member :: rest).length)
  | .object [], heap => (.dict none [], heap)
  | _, heap => (.array none, heap)

def Backing.build : Backing → List (Bytes × Owned) → Owned
  | .array block, items => .array block (items.map (·.2))
  | .dict block keys, items => .dict block (keys.zipWith (fun k m => ((k, m.1), m.2)) items)

def cjsonSource : Source CJson Owned Bytes Backing Nat Error where
  isNode := CJson.isContainer
  leaf node heap := .ok (cjsonLeaf node heap)
  enter node heap := .ok (cjsonEnter node heap)
  children
    | .array items => items.map fun item => ([], item)
    | .object members => members.map fun member => (cstr member.1, member.2)
    | _ => []
  build := Backing.build
  stub := .nil
  cap := kMarshalDepthCap
  tooDeep := nestingExceeded

/-- What a call of `cjson_to_object` leaves behind. -/
structure Conversion where
  ok : Bool
  out : Owned
  err : Option Error
  heap : Nat
  freed : List Nat

/-- None where the assertion of `api_free_object` fails. -/
def cjsonToObjectHeap (node : CJson) (out : Owned) (heap : Nat) : Option Conversion :=
  match cjsonSource.run node heap with
  | .ok (root, heap) => some ⟨true, root, none, heap, []⟩
  | .error (err, root, heap) =>
    (apiFreeObject root).map fun frees => ⟨false, out, some err, heap, frees⟩

def Fresh (heap heap' : Nat) (blocks : List Nat) : Prop :=
  heap ≤ heap' ∧ blocks.Perm (List.range' heap (heap' - heap))

namespace Fresh

variable {a b c : Nat} {xs ys : List Nat}

theorem nil (a : Nat) : Fresh a a [] := by
  refine ⟨Nat.le_refl a, ?_⟩
  rw [Nat.sub_self]
  exact .nil

theorem one (a : Nat) : Fresh a (a + 1) [a] := by
  refine ⟨Nat.le_succ a, ?_⟩
  rw [Nat.add_sub_cancel_left]
  exact .refl _

theorem range (a n : Nat) : Fresh a (a + n) (List.range' a n) := by
  refine ⟨Nat.le_add_right a n, ?_⟩
  rw [Nat.add_sub_cancel_left]

theorem append (h : Fresh a b xs) (h' : Fresh b c ys) : Fresh a c (xs ++ ys) := by
  refine ⟨Nat.le_trans h.1 h'.1, ?_⟩
  have hSplit : List.range' a (c - a) =
      List.range' a (b - a) ++ List.range' b (c - b) := by
    have hb : b = a + 1 * (b - a) := by
      have := h.1
      omega
    have hc : c - a = (b - a) + (c - b) := by
      have := h.1
      have := h'.1
      omega
    rw [hc, ← List.range'_append, ← hb]
  rw [hSplit]
  exact h.2.append h'.2

theorem perm (h : Fresh a b xs) (hPerm : ys.Perm xs) : Fresh a b ys := ⟨h.1, hPerm.trans h.2⟩

end Fresh

theorem Owned.itemsNesting_le {block : Option Nat} {items : List Owned} {room : Nat}
    (h : ∀ item ∈ items, item.nesting ≤ room) : (Owned.array block items).nesting ≤ room + 1 := by
  rw [nesting, object, itemsObject_eq]
  apply Object.itemsNesting_le
  intro item hItem
  obtain ⟨owned, hOwned, rfl⟩ := List.mem_map.mp hItem
  exact h owned hOwned

theorem Owned.membersNesting_le {block : Option Nat} {items : List ((Nat × Bytes) × Owned)}
    {room : Nat} (h : ∀ member ∈ items, member.2.nesting ≤ room) :
    (Owned.dict block items).nesting ≤ room + 1 := by
  rw [nesting, object, membersObject_eq]
  apply Object.membersNesting_le
  intro member hMember
  obtain ⟨owned, hOwned, rfl⟩ := List.mem_map.mp hMember
  exact h owned hOwned

def Accounts (room heap heap' : Nat) (tree : Owned) : Prop :=
  Fresh heap heap' tree.blocks ∧ tree.nesting ≤ room

/-- The children that are there, with a slot for each that is not. -/
def AccountsAll (room heap heap' : Nat) (slots : Nat) (trees : List (Bytes × Owned)) : Prop :=
  Fresh heap heap' (trees.flatMap fun tree => tree.2.blocks) ∧ trees.length = slots ∧
    ∀ tree ∈ trees, tree.2.nesting ≤ room

theorem keyed_perm {block : Option Nat} {keys : List Nat} {trees : List (Bytes × Owned)}
    (h : keys.length = trees.length) :
    ((Backing.dict block keys).build trees).blocks.Perm
      (block.toList ++ keys ++ trees.flatMap fun tree => tree.2.blocks) := by
  rw [Backing.build, Owned.blocks, Owned.membersBlocks_eq]
  refine List.perm_append_comm.trans ?_
  rw [List.append_assoc]
  refine List.Perm.append_left _ ?_
  induction keys generalizing trees with
  | nil =>
    cases trees with
    | nil => exact .nil
    | cons tree rest => cases h
  | cons key keys ih =>
    cases trees with
    | nil => cases h
    | cons tree rest =>
      simp only [List.zipWith_cons_cons, List.flatMap_cons, List.cons_append]
      refine .cons key ?_
      have hRest := ih (Nat.succ.inj h)
      refine (hRest.append_left tree.2.blocks).trans ?_
      rw [← List.append_assoc, ← List.append_assoc]
      exact List.perm_append_comm.append_right _

theorem Accounts.array {room heap heap' : Nat} {slots : Nat} {trees : List (Bytes × Owned)}
    {block : Option Nat} {start : Nat} (hBlock : Fresh start heap block.toList)
    (h : AccountsAll room heap heap' slots trees) :
    Accounts (room + 1) start heap' ((Backing.array block).build trees) := by
  obtain ⟨hFresh, -, hNesting⟩ := h
  constructor
  · rw [Backing.build, Owned.blocks, Owned.itemsBlocks_eq, List.flatMap_map]
    exact (hBlock.append hFresh).perm List.perm_append_comm
  · apply Owned.itemsNesting_le
    intro item hItem
    obtain ⟨tree, hTree, rfl⟩ := List.mem_map.mp hItem
    exact hNesting tree hTree

theorem Accounts.dict {room heap heap' : Nat} {trees : List (Bytes × Owned)}
    {block : Option Nat} {keys : List Nat} {start : Nat}
    (hKeys : Fresh start heap (block.toList ++ keys))
    (h : AccountsAll room heap heap' keys.length trees) :
    Accounts (room + 1) start heap' ((Backing.dict block keys).build trees) := by
  obtain ⟨hFresh, hLength, hNesting⟩ := h
  constructor
  · exact (hKeys.append hFresh).perm (keyed_perm hLength.symm)
  · apply Owned.membersNesting_le
    intro member hMember
    obtain ⟨i, hi, hGet⟩ := List.mem_iff_getElem.mp hMember
    rw [List.getElem_zipWith] at hGet
    subst hGet
    exact hNesting _ (List.getElem_mem _)

def Accounted (room : Nat) (heap : Nat) : Source.Result Owned Nat Error → Prop
  | .ok (tree, heap') | .error (_, tree, heap') => Accounts room heap heap' tree

def AccountedAll (room : Nat) (heap : Nat) (slots : Nat) :
    Source.Result (List (Bytes × Owned)) Nat Error → Prop
  | .ok (trees, heap') | .error (_, trees, heap') => AccountsAll room heap heap' slots trees

theorem AccountsAll.stubs {room heap heap' : Nat} {key : Bytes} {tree : Owned}
    (h : Accounts room heap heap' tree) (rest : List (Bytes × CJson)) :
    AccountsAll room heap heap' (rest.length + 1)
      ((key, tree) :: rest.map fun c => (c.1, Owned.nil)) := by
  obtain ⟨hFresh, hNesting⟩ := h
  have hStubs : (rest.map fun c => (c.1, Owned.nil)).flatMap (fun tree => tree.2.blocks) = [] := by
    rw [List.flatMap_map]
    exact List.flatMap_eq_nil_iff.mpr fun c hc => rfl
  refine ⟨?_, by simp, ?_⟩
  · rw [List.flatMap_cons, hStubs, List.append_nil]
    exact hFresh
  · rintro slot hSlot
    rcases List.mem_cons.mp hSlot with rfl | hSlot
    · exact hNesting
    · obtain ⟨c, -, rfl⟩ := List.mem_map.mp hSlot
      exact Nat.zero_le room

theorem AccountsAll.cons {room a b c : Nat} {slots : Nat} {key : Bytes} {tree : Owned}
    {trees : List (Bytes × Owned)} (h : Accounts room a b tree)
    (hRest : AccountsAll room b c slots trees) :
    AccountsAll room a c (slots + 1) ((key, tree) :: trees) := by
  obtain ⟨hFresh, hLength, hNesting⟩ := hRest
  refine ⟨h.1.append hFresh, by rw [List.length_cons, hLength], ?_⟩
  rintro slot hSlot
  rcases List.mem_cons.mp hSlot with rfl | hSlot
  · exact h.2
  · exact hNesting slot hSlot

theorem cjsonSource_accounted : cjsonSource.Rule
    (fun room _ heap result => Accounted room heap result)
    (fun room cs heap result => AccountedAll room heap cs.length result) where
  leaf room node heap tree heap' hNode hLeaf := by
    cases node with
    | array items => cases hNode
    | object members => cases hNode
    | null => cases hLeaf; exact ⟨.nil heap, Nat.zero_le room⟩
    | bool b => cases hLeaf; exact ⟨.nil heap, Nat.zero_le room⟩
    | number d =>
      cases hLeaf
      split
      · exact ⟨.nil heap, Nat.zero_le room⟩
      · exact ⟨.nil heap, Nat.zero_le room⟩
    | string s => cases hLeaf; exact ⟨.one heap, Nat.zero_le room⟩
  refused room node heap err hNode hLeaf := by cases hLeaf
  deep node heap hNode := ⟨.nil heap, Nat.le_refl 0⟩
  shut room node heap err hNode hEnter := by cases hEnter
  node room node heap tag heap' result hNode hEnter h := by
    have hClose : ∀ trees heap'', AccountsAll room heap' heap''
        (cjsonSource.children node).length trees →
        Accounts (room + 1) heap heap'' (tag.build trees) := by
      intro trees heap'' hAll
      cases node with
      | array items =>
        cases items with
        | nil => cases hEnter; exact .array (.nil heap) hAll
        | cons item rest => cases hEnter; exact .array (.one heap) hAll
      | object members =>
        cases members with
        | nil => cases hEnter; exact .dict (.nil heap) hAll
        | cons member rest =>
          cases hEnter
          refine .dict ((Fresh.one heap).append (.range (heap + 1) (rest.length + 1))) ?_
          rw [List.length_range']
          simpa [cjsonSource] using hAll
      | _ => cases hNode
    cases result with
    | ok result => exact hClose _ _ h
    | error result => exact hClose _ _ h
  nil room heap := ⟨.nil heap, rfl, fun tree h => by cases h⟩
  halt room key node rest heap err tree heap' h := AccountsAll.stubs h rest
  next room key node rest heap tree heap' result h hRest := by
    cases result with
    | ok result => exact AccountsAll.cons h hRest
    | error result => exact AccountsAll.cons h hRest

/-- With the blocks forgotten, a node comes out as `cjsonToObjectAt` has it. -/
def Erased (room : Nat) (node : CJson) : Source.Result Owned Nat Error → Prop
  | .ok (tree, _) => ∀ depth, depth + room = kMarshalDepthCap →
    cjsonToObjectAt depth node = .ok tree.object
  | .error (err, _, _) => err = nestingExceeded ∧ ∀ depth, depth + room = kMarshalDepthCap →
    cjsonToObjectAt depth node = .error err

def ErasedAll (room : Nat) (cs : List (Bytes × CJson)) :
    Source.Result (List (Bytes × Owned)) Nat Error → Prop
  | .ok (trees, _) => trees.map (·.1) = cs.map (·.1) ∧
    ∀ depth, depth + room = kMarshalDepthCap →
      cjsonToItems depth (cs.map (·.2)) = .ok (trees.map (·.2.object))
  | .error (err, _, _) => err = nestingExceeded ∧ ∀ depth, depth + room = kMarshalDepthCap →
    cjsonToItems depth (cs.map (·.2)) = .error err

theorem cjsonToMembers_eq (depth : Nat) (members : List (Bytes × CJson)) :
    cjsonToMembers depth members =
      (cjsonToItems depth (members.map (·.2))).map ((members.map fun m => cstr m.1).zip ·) := by
  induction members with
  | nil => rfl
  | cons member rest ih =>
    obtain ⟨key, node⟩ := member
    simp only [cjsonToMembers, List.map_cons, cjsonToItems, ih]
    cases cjsonToObjectAt depth node with
    | error err => rfl
    | ok value => cases cjsonToItems depth (rest.map (·.2)) <;> rfl

theorem keyed_object {block : Option Nat} {keys : List Nat} {trees : List (Bytes × Owned)}
    (h : keys.length = trees.length) :
    ((Backing.dict block keys).build trees).object =
      .dict ((trees.map (·.1)).zip (trees.map (·.2.object))) := by
  rw [Backing.build, Owned.object, Owned.membersObject_eq]
  congr 1
  induction keys generalizing trees with
  | nil =>
    cases trees with
    | nil => rfl
    | cons tree rest => cases h
  | cons key keys ih =>
    cases trees with
    | nil => cases h
    | cons tree rest =>
      simp only [List.zipWith_cons_cons, List.map_cons, List.zip_cons_cons]
      rw [ih (Nat.succ.inj h)]

theorem cjsonLeaf_erased {node : CJson} (hNode : node.isContainer = false) (depth heap : Nat) :
    cjsonToObjectAt depth node = .ok (cjsonLeaf node heap).1.object := by
  cases node with
  | array items => cases hNode
  | object members => cases hNode
  | number d =>
    rw [cjsonToObjectAt, cjsonLeaf]
    split <;> rfl
  | null => rfl
  | bool b => rfl
  | string s => rfl

theorem cjsonToObjectAt_deep {node : CJson} (hNode : node.isContainer = true) :
    cjsonToObjectAt kMarshalDepthCap node = .error nestingExceeded := by
  cases node with
  | array items => rfl
  | object members => rfl
  | _ => cases hNode

/-- A container converts as its children do. -/
theorem erased_close {room : Nat} {node : CJson} {heap heap' : Nat} {tag : Backing}
    {result : Source.Result (List (Bytes × Owned)) Nat Error} (hNode : node.isContainer = true)
    (hEnter : cjsonEnter node heap = (tag, heap'))
    (h : ErasedAll room (cjsonSource.children node) result) :
    Erased (room + 1) node (cjsonSource.close tag result) := by
  have hRoom : ∀ depth, depth + (room + 1) = kMarshalDepthCap → ¬ kMarshalDepthCap ≤ depth := by
    intro depth hDepth
    omega
  cases node with
  | array items =>
    have hTag : ∃ block, tag = .array block := by
      cases items <;> cases hEnter <;> exact ⟨_, rfl⟩
    obtain ⟨block, rfl⟩ := hTag
    have hItems : (cjsonSource.children (.array items)).map (·.2) = items := by
      simp [cjsonSource, Function.comp_def]
    cases result with
    | ok result =>
      intro depth hDepth
      obtain ⟨-, hChildren⟩ := h
      have := hChildren (depth + 1) (by omega)
      rw [hItems] at this
      rw [cjsonToObjectAt, if_neg (hRoom depth hDepth), this]
      simp only [cjsonSource, Backing.build, Owned.object, Owned.itemsObject_eq, List.map_map]
      rfl
    | error result =>
      refine ⟨h.1, fun depth hDepth => ?_⟩
      have := h.2 (depth + 1) (by omega)
      rw [hItems] at this
      rw [cjsonToObjectAt, if_neg (hRoom depth hDepth), this]
      rfl
  | object members =>
    have hTag : ∃ block keys, tag = .dict block keys ∧ keys.length = members.length := by
      cases members <;> cases hEnter
      · exact ⟨_, _, rfl, rfl⟩
      · exact ⟨_, _, rfl, List.length_range'⟩
    obtain ⟨block, keys, rfl, hKeys⟩ := hTag
    have hItems : (cjsonSource.children (.object members)).map (·.2) = members.map (·.2) := by
      simp [cjsonSource, Function.comp_def]
    have hNames : (cjsonSource.children (.object members)).map (·.1) =
        members.map fun m => cstr m.1 := by
      simp [cjsonSource, Function.comp_def]
    cases result with
    | ok result =>
      intro depth hDepth
      obtain ⟨hLabels, hChildren⟩ := h
      have := hChildren (depth + 1) (by omega)
      rw [hItems] at this
      rw [hNames] at hLabels
      have hLength : keys.length = result.1.length := by
        have hLengths := congrArg List.length hLabels
        rw [List.length_map, List.length_map] at hLengths
        rw [hKeys, hLengths]
      rw [cjsonToObjectAt, if_neg (hRoom depth hDepth), cjsonToMembers_eq, this, ← hLabels]
      exact congrArg Except.ok (keyed_object hLength).symm
    | error result =>
      refine ⟨h.1, fun depth hDepth => ?_⟩
      have := h.2 (depth + 1) (by omega)
      rw [hItems] at this
      rw [cjsonToObjectAt, if_neg (hRoom depth hDepth), cjsonToMembers_eq, this]
      rfl
  | _ => cases hNode

theorem cjsonSource_erased : cjsonSource.Rule
    (fun room node _ result => Erased room node result)
    (fun room cs _ result => ErasedAll room cs result) where
  leaf room node heap tree heap' hNode hLeaf := by
    have hNodeInit : cjsonLeaf node heap = (tree, heap') := Except.ok.inj hLeaf
    intro depth hDepth
    have hErased := cjsonLeaf_erased hNode depth heap
    rwa [hNodeInit] at hErased
  refused room node heap err hNode hLeaf := by cases hLeaf
  deep node heap hNode := by
    refine ⟨rfl, fun depth hDepth => ?_⟩
    obtain rfl : depth = kMarshalDepthCap := hDepth
    exact cjsonToObjectAt_deep hNode
  shut room node heap err hNode hEnter := by cases hEnter
  node room node heap tag heap' result hNode hEnter h :=
    erased_close hNode (Except.ok.inj hEnter) h
  nil room heap := ⟨rfl, fun depth _ => rfl⟩
  halt room key node rest heap err tree heap' h := by
    refine ⟨h.1, fun depth hDepth => ?_⟩
    rw [List.map_cons, cjsonToItems, h.2 depth hDepth]
    rfl
  next room key node rest heap tree heap' result h hRest := by
    cases result with
    | ok result =>
      refine ⟨congrArg (key :: ·) hRest.1, fun depth hDepth => ?_⟩
      rw [List.map_cons, cjsonToItems, h depth hDepth, hRest.2 depth hDepth]
      rfl
    | error result =>
      refine ⟨hRest.1, fun depth hDepth => ?_⟩
      rw [List.map_cons, cjsonToItems, h depth hDepth, hRest.2 depth hDepth]
      rfl

theorem cjsonToObjectHeap_eq (node : CJson) (out : Owned) (heap : Nat) :
    (∃ root heap', cjsonToObjectHeap node out heap = some ⟨true, root, none, heap', []⟩ ∧
      cjsonToObject node = .ok root.object ∧ root.object.nesting ≤ kMarshalDepthCap ∧
      Fresh heap heap' root.blocks) ∨
    (∃ heap' freed, cjsonToObjectHeap node out heap =
        some ⟨false, out, some nestingExceeded, heap', freed⟩ ∧
      cjsonToObject node = .error nestingExceeded ∧ Fresh heap heap' freed) := by
  have hRun : cjsonSource.run node heap = cjsonSource.rebuild cjsonSource.cap node heap :=
    Source.run_eq_rebuild (by decide) node heap
  have hErased := cjsonSource_erased.rebuild cjsonSource.cap node heap
  have hAccounted := cjsonSource_accounted.rebuild cjsonSource.cap node heap
  rw [← hRun] at hErased hAccounted
  rw [cjsonToObjectHeap]
  match hResult : cjsonSource.run node heap with
  | .ok (root, heap') =>
    rw [hResult] at hErased hAccounted
    obtain ⟨hFresh, hNesting⟩ := hAccounted
    exact .inl ⟨root, heap', rfl, hErased 0 rfl, hNesting, hFresh⟩
  | .error (err, root, heap') =>
    rw [hResult] at hErased hAccounted
    obtain ⟨hFresh, hNesting⟩ := hAccounted
    obtain ⟨rfl, hError⟩ := hErased
    refine .inr ⟨heap', root.blocks, ?_, hError 0 rfl, hFresh⟩
    dsimp only
    rw [apiFreeObject_eq hNesting]
    rfl

/-- The nodes of `object_to_cjson`: `object_make_node` for each, a key through a C string. -/
def objectSource : Source Object CJson Bytes Bool Unit Unit where
  isNode := Object.isContainer
  leaf obj s := .ok (objectToCJson obj, s)
  enter obj s := .ok (obj.type == .dict, s)
  children
    | .array items => items.map fun item => ([], item)
    | .dict items => items.map fun member => (cstr member.1, member.2)
    | _ => []
  build isDict items := if isDict then .object items else .array (items.map (·.2))
  stub := .null
  cap := kMarshalDepthCap
  tooDeep := ()

/-- None where the assertion on the depth fails. -/
def objectToCJsonFrames (obj : Object) : Option CJson :=
  match objectSource.run obj () with
  | .ok (node, ()) => some node
  | .error _ => none

theorem objectSource_maps : objectSource.Maps objectToCJson Object.nesting where
  leaf _ _ _ := rfl
  node obj s h := by
    cases obj with
    | array items =>
      refine ⟨false, rfl, ?_⟩
      simp [objectSource, objectToCJson, itemsToCJson_eq, Function.comp_def]
    | dict items =>
      refine ⟨true, rfl, ?_⟩
      simp [objectSource, objectToCJson, membersToCJson_eq, Function.comp_def]
    | _ => cases h
  child obj h := by
    cases obj with
    | array items =>
      refine ⟨by simp [Object.nesting], fun c hc => ?_⟩
      obtain ⟨item, hItem, rfl⟩ := List.mem_map.mp hc
      exact Object.nesting_item hItem
    | dict items =>
      refine ⟨by simp [Object.nesting], fun c hc => ?_⟩
      obtain ⟨member, hMember, rfl⟩ := List.mem_map.mp hc
      have hNesting := Object.nesting_member hMember
      exact hNesting
    | _ => cases h

theorem objectToCJsonFrames_eq {obj : Object} (h : obj.nesting ≤ kMarshalDepthCap) :
    objectToCJsonFrames obj = some (objectToCJson obj) := by
  rw [objectToCJsonFrames, Source.run_of_maps (by decide) objectSource_maps obj h]

mutual

/-- Equal trees: the same shape and order, the same C strings, the same numbers. -/
def CJson.Same : CJson → CJson → Prop
  | .null, .null => True
  | .bool a, .bool b => a = b
  | .number a, .number b => a.SameNumber b
  | .string s, .string t => cstr s = cstr t
  | .array xs, .array ys => ItemsSame xs ys
  | .object xs, .object ys => MembersSame xs ys
  | _, _ => False

def ItemsSame : List CJson → List CJson → Prop
  | [], [] => True
  | x :: xs, y :: ys => x.Same y ∧ ItemsSame xs ys
  | _, _ => False

def MembersSame : List (Bytes × CJson) → List (Bytes × CJson) → Prop
  | [], [] => True
  | (k, x) :: xs, (l, y) :: ys => cstr k = cstr l ∧ x.Same y ∧ MembersSame xs ys
  | _, _ => False

end

theorem numberSame (d : Double) :
    (objectToCJson (if d.exactInt then .integer (Int64.ofInt d.trunc) else .float d)).Same
      (.number d) := by
  split
  · rename_i hExact
    have hBound : d.trunc.natAbs ≤ 2 ^ 53 := by
      simp only [Double.exactInt, Bool.and_eq_true, decide_eq_true_eq] at hExact
      exact hExact.2
    rw [objectToCJson, CJson.Same, Int64.toInt_ofInt_of_le (by omega) (by omega)]
    rcases Double.ofInt_trunc hExact with hEq | ⟨hZero, hZero'⟩
    · exact .inl hEq.symm
    · exact .inr ⟨hZero', hZero⟩
  · exact .inl rfl

mutual

theorem sameAt {depth : Nat} {node : CJson} {obj : Object}
    (h : cjsonToObjectAt depth node = .ok obj) : (objectToCJson obj).Same node := by
  cases node with
  | null => cases h; trivial
  | bool b => cases h; rfl
  | number d => cases h; exact numberSame d
  | string s =>
    cases h
    rw [objectToCJson, CJson.Same, cstr_cstr, cstr_cstr]
  | array items =>
    rw [cjsonToObjectAt] at h
    split at h
    · cases h
    · match hItems : cjsonToItems (depth + 1) items with
      | .error err => rw [hItems] at h; cases h
      | .ok objs =>
        rw [hItems] at h
        cases h
        exact sameItemsAt hItems
  | object members =>
    rw [cjsonToObjectAt] at h
    split at h
    · cases h
    · match hMembers : cjsonToMembers (depth + 1) members with
      | .error err => rw [hMembers] at h; cases h
      | .ok objs =>
        rw [hMembers] at h
        cases h
        exact sameMembersAt hMembers

theorem sameItemsAt {depth : Nat} {items : List CJson} {objs : List Object}
    (h : cjsonToItems depth items = .ok objs) : ItemsSame (itemsToCJson objs) items := by
  cases items with
  | nil => cases h; trivial
  | cons node rest =>
    rw [cjsonToItems] at h
    match hNode : cjsonToObjectAt depth node, hRest : cjsonToItems depth rest with
    | .error err, _ => rw [hNode] at h; cases h
    | .ok obj, .error err => rw [hNode, hRest] at h; cases h
    | .ok obj, .ok objs =>
      rw [hNode, hRest] at h
      cases h
      exact ⟨sameAt hNode, sameItemsAt hRest⟩

theorem sameMembersAt {depth : Nat} {members : List (Bytes × CJson)}
    {objs : List (Bytes × Object)} (h : cjsonToMembers depth members = .ok objs) :
    MembersSame (membersToCJson objs) members := by
  cases members with
  | nil => cases h; trivial
  | cons member rest =>
    obtain ⟨key, node⟩ := member
    rw [cjsonToMembers] at h
    match hNode : cjsonToObjectAt depth node, hRest : cjsonToMembers depth rest with
    | .error err, _ => rw [hNode] at h; cases h
    | .ok obj, .error err => rw [hNode, hRest] at h; cases h
    | .ok obj, .ok objs =>
      rw [hNode, hRest] at h
      cases h
      exact ⟨by rw [cstr_cstr, cstr_cstr], sameAt hNode, sameMembersAt hRest⟩

end

/-- What nests at most 32 deep goes to the Object side and comes back as it was. What nests
deeper is refused: the caller's object stays, and every block taken for the part that was
built is freed once. -/
theorem cjson_object_roundtrip (node : CJson) (out : Owned) (heap : Nat) :
    (node.nesting ≤ kMarshalDepthCap → ∃ root heap' back,
      cjsonToObjectHeap node out heap = some ⟨true, root, none, heap', []⟩ ∧
      objectToCJsonFrames root.object = some back ∧ back.Same node) ∧
    (kMarshalDepthCap < node.nesting → ∃ err heap' freed,
      cjsonToObjectHeap node out heap = some ⟨false, out, some err, heap', freed⟩ ∧
      err.type = .validation ∧ Fresh heap heap' freed) := by
  have hIff := cjsonToObject_ok_iff node
  rcases cjsonToObjectHeap_eq node out heap with
    ⟨root, heap', hHeap, hObject, hNesting, -⟩ | ⟨heap', freed, hHeap, hError, hFresh⟩
  · rw [hObject] at hIff
    constructor
    · rintro -
      exact ⟨root, heap', _, hHeap, objectToCJsonFrames_eq hNesting, sameAt hObject⟩
    · intro hDeep
      have := hIff.mp rfl
      omega
  · rw [hError] at hIff
    constructor
    · intro hShallow
      cases hIff.mpr hShallow
    · rintro -
      exact ⟨nestingExceeded, heap', freed, hHeap, rfl, hFresh⟩

end Mua
