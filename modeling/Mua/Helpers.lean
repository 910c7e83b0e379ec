import Mua.Lib.Rebuild
import Mua.Marshal

/-! # Copying and freeing objects

The two walks of api/private/helpers.c. An `Owned` tree is an Object with the
heap blocks it owns; what `api_free_object` makes of it is the list of blocks
it hands to `xfree`, in order.
-/

namespace Mua

open Rebuild

/-- An Object with its heap blocks: one for a string, for a key, and for the items of a
container that has any. -/
inductive Owned
  | nil
  | boolean (b : Bool)
  | integer (n : Int64)
  | float (d : Double)
  | string (block : Nat) (s : Bytes)
  | array (block : Option Nat) (items : List Owned)
  | dict (block : Option Nat) (items : List ((Nat × Bytes) × Owned))
  | session

mutual

def Owned.object : Owned → Object
  | .nil => .nil
  | .boolean b => .boolean b
  | .integer n => .integer n
  | .float d => .float d
  | .string _ s => .string s
  | .array _ items => .array (Owned.itemsObject items)
  | .dict _ items => .dict (Owned.membersObject items)
  | .session => .session

def Owned.itemsObject : List Owned → List Object
  | [] => []
  | item :: rest => item.object :: Owned.itemsObject rest

def Owned.membersObject : List ((Nat × Bytes) × Owned) → List (Bytes × Object)
  | [] => []
  | ((_, key), value) :: rest => (key, value.object) :: Owned.membersObject rest

end

theorem Owned.itemsObject_eq (items : List Owned) :
    Owned.itemsObject items = items.map Owned.object := by
  induction items with
  | nil => rfl
  | cons item rest ih => rw [Owned.itemsObject, ih, List.map_cons]

theorem Owned.membersObject_eq (items : List ((Nat × Bytes) × Owned)) :
    Owned.membersObject items = items.map fun m => (m.1.2, m.2.object) := by
  induction items with
  | nil => rfl
  | cons member rest ih =>
    obtain ⟨⟨block, key⟩, value⟩ := member
    rw [Owned.membersObject, ih, List.map_cons]

def Owned.nesting (obj : Owned) : Nat := obj.object.nesting

theorem Owned.nesting_item {block : Option Nat} {items : List Owned} {item : Owned}
    (h : item ∈ items) : item.nesting < (Owned.array block items).nesting := by
  rw [nesting, nesting, object, itemsObject_eq]
  exact Object.nesting_item (List.mem_map_of_mem h)

theorem Owned.nesting_member {block : Option Nat} {items : List ((Nat × Bytes) × Owned)}
    {member : (Nat × Bytes) × Owned} (h : member ∈ items) :
    member.2.nesting < (Owned.dict block items).nesting := by
  rw [nesting, nesting, object, membersObject_eq]
  have hMember : (member.1.2, member.2.object) ∈ items.map fun m => (m.1.2, m.2.object) :=
    List.mem_map.mpr ⟨member, h, rfl⟩
  exact Object.nesting_member hMember

def Object.isContainer : Object → Bool
  | .array _ | .dict _ => true
  | _ => false

/-- The nodes of `api_copy_object`. A container too deep fails its assertion. -/
def copySource : Source Object Object Bytes Bool Unit Unit where
  isNode := Object.isContainer
  leaf obj s := .ok (obj, s)
  enter obj s := .ok (obj.type == .dict, s)
  children
    | .array items => items.map fun item => ([], item)
    | .dict items => items
    | _ => []
  build isDict items := if isDict then .dict items else .array (items.map (·.2))
  stub := .nil
  cap := kMarshalDepthCap
  tooDeep := ()

/-- None where the assertion on the depth fails. -/
def apiCopyObject (src : Object) : Option Object :=
  match copySource.run src () with
  | .ok (copy, ()) => some copy
  | .error _ => none

theorem copySource_maps : copySource.Maps id Object.nesting where
  leaf _ _ _ := rfl
  node obj s h := by
    cases obj with
    | array items =>
      refine ⟨false, rfl, ?_⟩
      simp [copySource, Function.comp_def]
    | dict items =>
      refine ⟨true, rfl, ?_⟩
      simp [copySource]
    | _ => cases h
  child obj h := by
    cases obj with
    | array items =>
      refine ⟨by simp [Object.nesting], fun c hc => ?_⟩
      obtain ⟨item, hItem, rfl⟩ := List.mem_map.mp hc
      exact Object.nesting_item hItem
    | dict items => exact ⟨by simp [Object.nesting], fun c hc => Object.nesting_member hc⟩
    | _ => cases h

theorem apiCopyObject_eq {obj : Object} (h : obj.nesting ≤ kMarshalDepthCap) :
    apiCopyObject obj = some obj := by
  rw [apiCopyObject, Source.run_of_maps (by decide) copySource_maps obj h]
  rfl

mutual

/-- The blocks of a tree, in the order `api_free_object` frees them. -/
def Owned.blocks : Owned → List Nat
  | .nil | .boolean _ | .integer _ | .float _ | .session => []
  | .string block _ => [block]
  | .array block items => Owned.itemsBlocks items ++ block.toList
  | .dict block items => Owned.membersBlocks items ++ block.toList

def Owned.itemsBlocks : List Owned → List Nat
  | [] => []
  | item :: rest => item.blocks ++ Owned.itemsBlocks rest

def Owned.membersBlocks : List ((Nat × Bytes) × Owned) → List Nat
  | [] => []
  | ((keyBlock, _), value) :: rest => keyBlock :: value.blocks ++ Owned.membersBlocks rest

end

theorem Owned.itemsBlocks_eq (items : List Owned) :
    Owned.itemsBlocks items = items.flatMap Owned.blocks := by
  induction items with
  | nil => rfl
  | cons item rest ih => rw [Owned.itemsBlocks, ih, List.flatMap_cons]

theorem Owned.membersBlocks_eq (items : List ((Nat × Bytes) × Owned)) :
    Owned.membersBlocks items = items.flatMap fun m => m.1.1 :: m.2.blocks := by
  induction items with
  | nil => rfl
  | cons member rest ih =>
    obtain ⟨⟨block, key⟩, value⟩ := member
    rw [Owned.membersBlocks, ih, List.flatMap_cons]

def Owned.isContainer : Owned → Bool
  | .array .. | .dict .. => true
  | _ => false

def Owned.block : Owned → Option Nat
  | .array block _ | .dict block _ => block
  | _ => none

/-- The nodes of `api_free_object`, each as the frees it makes: a key before its value, the
items of a container after all of them. -/
def freeSource : Source Owned (List Nat) (Option Nat) (Option Nat) Unit Unit where
  isNode := Owned.isContainer
  leaf
    | .string block _, s => .ok ([block], s)
    | _, s => .ok ([], s)
  enter obj s := .ok (obj.block, s)
  children
    | .array _ items => items.map fun item => (none, item)
    | .dict _ items => items.map fun member => (some member.1.1, member.2)
    | _ => []
  build block frees := (frees.flatMap fun (key, child) => key.toList ++ child) ++ block.toList
  stub := []
  cap := kMarshalDepthCap
  tooDeep := ()

/-- The blocks freed; none where the assertion on the depth fails. -/
def apiFreeObject (obj : Owned) : Option (List Nat) :=
  match freeSource.run obj () with
  | .ok (frees, ()) => some frees
  | .error _ => none

theorem freeSource_maps : freeSource.Maps Owned.blocks Owned.nesting where
  leaf obj s h := by
    cases obj with
    | array block items => cases h
    | dict block items => cases h
    | _ => rfl
  node obj s h := by
    cases obj with
    | array block items =>
      refine ⟨block, rfl, ?_⟩
      simp [freeSource, Owned.blocks, Owned.itemsBlocks_eq, List.flatMap_map]
    | dict block items =>
      refine ⟨block, rfl, ?_⟩
      simp [freeSource, Owned.blocks, Owned.membersBlocks_eq, List.flatMap_map]
    | _ => cases h
  child obj h := by
    cases obj with
    | array block items =>
      refine ⟨by simp [Owned.nesting, Owned.object, Object.nesting], fun c hc => ?_⟩
      obtain ⟨item, hItem, rfl⟩ := List.mem_map.mp hc
      exact Owned.nesting_item hItem
    | dict block items =>
      refine ⟨by simp [Owned.nesting, Owned.object, Object.nesting], fun c hc => ?_⟩
      obtain ⟨member, hMember, rfl⟩ := List.mem_map.mp hc
      exact Owned.nesting_member hMember
    | _ => cases h

theorem apiFreeObject_eq {obj : Owned} (h : obj.nesting ≤ kMarshalDepthCap) :
    apiFreeObject obj = some obj.blocks := by
  rw [apiFreeObject, Source.run_of_maps (by decide) freeSource_maps obj h]

end Mua
