import Mua.Api
import Mua.LuaObject

/-! # The API as Lua calls it

`l_api_dispatch` of bridge.c: the arguments go into objects, the result comes out
as a value, and an error of either kind is raised with its text.
-/

namespace Mua.Lua

open Api Rebuild

def kMaxApiArgs : Nat := 8

/-- What a call from Lua comes to: a raised text or a value. -/
abbrev Raised := Except Bytes Built

def popArgs (castOutside : Double → Int64) (heap : Heap) : List Value → Except Error (List Object)
  | [] => .ok []
  | arg :: rest => (luaPopObject castOutside heap arg).bind fun obj =>
    (popArgs castOutside heap rest).map (obj :: ·)

/-- None where an assertion fails. -/
def lApiDispatch (castOutside : Double → Int64) (heap : Heap) (st : Stores) (fn : ApiFn)
    (args : List Value) : Option (Raised × Stores) :=
  if kMaxApiArgs < args.length then some (.error (fn.name ++ ascii ": too many arguments"), st)
  else
    match popArgs castOutside heap args with
    | .error err => some (.error err.msg, st)
    | .ok objs =>
      (fn.call .lua st objs).map fun outcome =>
        match outcome with
        | .error err => (.error err.msg, st)
        | .ok (result, st') =>
          match objectToLua result with
          | .error err => (.error err.msg, st')
          | .ok value => (.ok value, st')

def muaSetVar (castOutside : Double → Int64) (heap : Heap) (st : Stores) (name : Bytes)
    (value : Value) : Option (Raised × Stores) :=
  lApiDispatch castOutside heap st .setVar [.string name, value]

def muaGetVar (castOutside : Double → Int64) (heap : Heap) (st : Stores) (name : Bytes) :
    Option (Raised × Stores) :=
  lApiDispatch castOutside heap st .getVar [.string name]

variable {castOutside : Double → Int64} {heap : Heap} {st : Stores} {name : Bytes}

theorem muaSetVar_eq (value : Value) :
    muaSetVar castOutside heap st name value =
      match luaPopObject castOutside heap value with
      | .error err => some (.error err.msg, st)
      | .ok obj =>
        (variablesSet st.vars (some name) obj).map fun outcome =>
          match outcome with
          | .error err => (.error err.msg, st)
          | .ok vars => (.ok .nil, { st with vars }) := by
  have hName : luaPopObject castOutside heap (.string name) = .ok (.string name) := rfl
  rw [muaSetVar, lApiDispatch, if_neg (by simp [kMaxApiArgs])]
  simp only [popArgs, hName]
  cases luaPopObject castOutside heap value with
  | error err => rfl
  | ok obj =>
    simp only [Except.bind, Except.map, ApiFn.call, dispatchSetVar, Caller.data, Option.map_map]
    congr 1
    funext outcome
    cases outcome with
    | error err => rfl
    | ok vars => rfl

theorem muaGetVar_eq {value : Object} (h : variablesGet st.vars (some name) = some value) :
    muaGetVar castOutside heap st name =
      match objectToLua value with
      | .error err => some (.error err.msg, st)
      | .ok back => some (.ok back, st) := by
  have hName : luaPopObject castOutside heap (.string name) = .ok (.string name) := rfl
  rw [muaGetVar, lApiDispatch, if_neg (by simp [kMaxApiArgs])]
  simp only [popArgs, hName, Except.bind, Except.map, ApiFn.call, dispatchGetVar, Caller.data, h,
    Option.map_some]
  cases objectToLua value <;> rfl

/-- Given room, a variable takes exactly the storable values, and reads back as a value deeply
equal to what was set; what it does not take raises an error and leaves the stores alone. -/
theorem muaSetVar_muaGetVar (castOutside : Double → Int64) (heap heap' : Heap) (st : Stores)
    (name : Bytes) (value : Value) (hNil : value ≠ .nil)
    (hRoom : st.vars.HasRoom name) :
    (Storable heap kMarshalDepthCap value ↔
      ∃ st', muaSetVar castOutside heap st name value = some (.ok .nil, st')) ∧
    (∀ st', muaSetVar castOutside heap st name value = some (.ok .nil, st') →
      ∃ back, muaGetVar castOutside heap' st' name = some (.ok back, st') ∧
        DeepEq heap value back) ∧
    (¬ Storable heap kMarshalDepthCap value →
      ∃ text, muaSetVar castOutside heap st name value = some (.error text, st)) := by
  have hSpec := luaPopObject_spec castOutside heap hNil
  rw [muaSetVar_eq]
  match hPop : luaPopObject castOutside heap value with
  | .error err =>
    rw [hPop] at hSpec
    refine ⟨⟨fun hStorable => absurd hStorable hSpec, ?_⟩, ?_, fun _ => ⟨err.msg, rfl⟩⟩
    · rintro ⟨st', ⟨⟩⟩
    · rintro st' ⟨⟩
  | .ok obj =>
    rw [hPop] at hSpec
    obtain ⟨hStorable, hNesting, hType, back, hBack, hEqual⟩ := hSpec
    obtain ⟨vars, hSet, hLookup⟩ := variablesSet_room hType hNesting hRoom
    dsimp only
    rw [hSet]
    refine ⟨⟨fun _ => ⟨_, rfl⟩, fun _ => hStorable⟩, ?_, fun hNot => absurd hStorable hNot⟩
    rintro st' ⟨⟩
    refine ⟨back, ?_, hEqual⟩
    have hGet : variablesGet vars (some name) = some obj := by
      rw [variablesGet_eq, hLookup name, if_pos rfl]
      exact apiCopyObject_eq hNesting
    rw [muaGetVar_eq hGet, hBack]

def sampleHeap : Heap
  | 0 => ⟨[(.number (.ofInt 1), .table 1)], by decide, by decide, by decide, by decide⟩
  | _ => ⟨[(.string (ascii "x"), .string (ascii "y"))], by decide, by decide, by decide, by decide⟩

theorem muaSetVar_muaGetVar_sample :
    ∃ st', muaSetVar (fun _ => 0) sampleHeap ⟨.empty, .empty, none⟩ (ascii "v") (.table 0) =
        some (.ok .nil, st') ∧
      ∃ back, muaGetVar (fun _ => 0) sampleHeap st' (ascii "v") = some (.ok back, st') ∧
        DeepEq sampleHeap (.table 0) back := by
  obtain ⟨hIff, hBack, -⟩ := muaSetVar_muaGetVar (fun _ => 0) sampleHeap sampleHeap
    ⟨.empty, .empty, none⟩ (ascii "v") (.table 0) (by decide) (.inr (by decide))
  have hInner : Storable sampleHeap 31 (.table 1) := by
    refine ⟨.inr fun key hKey => ?_, fun e he => ?_⟩
    · obtain ⟨e, he, hEqual⟩ := Table.rawget_ne_nil_iff.mp hKey
      obtain rfl := List.mem_singleton.mp he
      rw [rawEqual_string (rawEqual_symm hEqual)]
      rfl
    · obtain rfl := List.mem_singleton.mp he
      trivial
  have hStorable : Storable sampleHeap kMarshalDepthCap (.table 0) := by
    have hKind : classifyTable (fun _ => 0) (sampleHeap 0) = .array := by decide
    refine ⟨.inl ⟨1, classify_array hKind⟩, fun e he => ?_⟩
    obtain rfl := List.mem_singleton.mp he
    exact hInner
  obtain ⟨st', hSet⟩ := hIff.mp hStorable
  exact ⟨st', hSet, hBack st' hSet⟩

end Mua.Lua
