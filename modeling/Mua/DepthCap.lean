import Mua.ApiSound
import Mua.JsonObject
import Mua.Lib.Run
import Mua.LuaObject
import Mua.MsgpackVisit

/-! # The depth cap

`cjson_to_object`, `msgpack_to_object` and `lua_pop_object` each refuse what nests
more than 32 containers. Nothing deeper gets into the stores or out of the dispatch
table, and the five walks that only assert the cap come to every node once.
-/

namespace Mua

open Rebuild Walk Api

/-- The log of a walk over the object: every node of it, once. -/
abbrev Object.EachOnce (obj : Object) (log : List Place) : Prop := Walk.EachOnce Object.kids obj log

theorem copySource_kids : copySource.kids = Object.kids := by
  funext obj
  cases obj with
  | array items => simp [Source.kids, copySource, Object.isContainer, Object.kids, Function.comp_def]
  | dict items => rfl
  | _ => rfl

theorem objectSource_kids : objectSource.kids = Object.kids := by
  funext obj
  cases obj with
  | array items =>
    simp [Source.kids, objectSource, Object.isContainer, Object.kids, Function.comp_def]
  | dict items => simp [Source.kids, objectSource, Object.isContainer, Object.kids]
  | _ => rfl

theorem pushSource_kids : Lua.pushSource.kids = Object.kids := by
  funext obj
  cases obj with
  | array items =>
    apply List.ext_getElem?
    intro i
    change (((items.mapIdx fun i item => (Lua.intKey (i + 1), item)).map (·.2))[i]?) = items[i]?
    rw [List.getElem?_map, List.getElem?_mapIdx, Option.map_map]
    cases items[i]? <;> rfl
  | dict items =>
    simp [Source.kids, Lua.pushSource, Object.isContainer, Object.kids, Function.comp_def]
  | _ => rfl

theorem freeSource_kids (obj : Owned) : obj.object.kids = (freeSource.kids obj).map Owned.object := by
  cases obj with
  | array block items =>
    simp [Source.kids, freeSource, Owned.isContainer, Owned.object, Owned.itemsObject_eq,
      Object.kids, Function.comp_def]
  | dict block items =>
    simp [Source.kids, freeSource, Owned.isContainer, Owned.object, Owned.membersObject_eq,
      Object.kids, Function.comp_def]
  | _ => rfl

/-- What the five walks do with an object: none needs a frame too many, each comes to every
node once, and the copy is equal to the object. -/
structure Object.Walked (obj : Object) : Prop where
  copy : apiCopyObject obj = some obj ∧
    ∃ log, copySource.visit obj () = .ok (obj, log) ∧ obj.EachOnce log
  free : ∀ owned : Owned, owned.object = obj → apiFreeObject owned = some owned.blocks ∧
    ∃ log, freeSource.visit owned () = .ok (owned.blocks, log) ∧ obj.EachOnce log
  encode : ∀ asserts, match Msgpack.encodeVisit asserts obj with
    | .ok t => obj.EachOnce t.2
    | .error e => asserts = true ∧ e = .count
  toCJson : objectToCJsonFrames obj = some (objectToCJson obj) ∧
    ∃ log, objectSource.visit obj () = .ok (objectToCJson obj, log) ∧ obj.EachOnce log
  toLua : Lua.objectToLua obj = .ok (Lua.built obj) ∧
    ∃ log, Lua.pushSource.visit obj () = .ok (Lua.built obj, log) ∧ obj.EachOnce log

theorem Object.walked {obj : Object} (h : obj.nesting ≤ kMarshalDepthCap) : obj.Walked where
  copy := by
    obtain ⟨log, hVisit, hOnce⟩ := copySource_maps.visits (by decide) obj h ()
    rw [copySource_kids] at hOnce
    exact ⟨apiCopyObject_eq h, log, hVisit, hOnce⟩
  free owned hOwned := by
    subst hOwned
    obtain ⟨log, hVisit, hOnce⟩ := freeSource_maps.visits (by decide) owned h ()
    exact ⟨apiFreeObject_eq h, log, hVisit, hOnce.map freeSource_kids⟩
  encode asserts := Msgpack.encodeVisit_once asserts h
  toCJson := by
    obtain ⟨log, hVisit, hOnce⟩ := objectSource_maps.visits (by decide) obj h ()
    rw [objectSource_kids] at hOnce
    exact ⟨objectToCJsonFrames_eq h, log, hVisit, hOnce⟩
  toLua := by
    obtain ⟨log, hVisit, hOnce⟩ := Lua.pushSource_maps.visits (by decide) obj h ()
    rw [pushSource_kids] at hOnce
    exact ⟨Lua.objectToLua_eq h, log, hVisit, hOnce⟩

inductive Marshaled : Object → Prop
  | cjson {node : CJson} {out : Owned} {heap : Nat} {conversion : Conversion}
    (h : cjsonToObjectHeap node out heap = some conversion) (hOk : conversion.ok = true) :
    Marshaled conversion.out.object
  | msgpack {buf : Bytes} {obj : Object} {consumed : Nat}
    (h : Msgpack.msgpackToObject buf = .ok (obj, consumed)) : Marshaled obj
  | lua {castOutside : Double → Int64} {heap : Lua.Heap} {value : Lua.Value} {obj : Object}
    (h : Lua.luaPopObject castOutside heap value = .ok obj) : Marshaled obj
  | part {obj child : Object} (h : Marshaled obj) (hChild : child ∈ obj.kids) : Marshaled child

theorem cjsonToObject_nesting {node : CJson} {obj : Object} (h : cjsonToObject node = .ok obj) :
    obj.nesting ≤ kMarshalDepthCap := by
  rcases cjsonToObjectHeap_eq node .nil 0 with ⟨root, -, -, hObject, hNesting, -⟩ |
    ⟨-, -, -, hError, -⟩
  · cases hObject.symm.trans h
    exact hNesting
  · cases hError.symm.trans h

theorem luaPopObject_nesting {castOutside : Double → Int64} {heap : Lua.Heap} {value : Lua.Value}
    {obj : Object} (h : Lua.luaPopObject castOutside heap value = .ok obj) :
    obj.nesting ≤ kMarshalDepthCap := by
  by_cases hNil : value = .nil
  · subst hNil
    have hRun : Lua.luaPopObject castOutside heap .nil = .ok .nil := by
      have hCap : 0 < kMarshalDepthCap := by decide
      rw [Lua.luaPopObject, Source.run_eq_rebuild hCap]
      rfl
    cases hRun.symm.trans h
    exact Nat.zero_le _
  · have hSpec := Lua.luaPopObject_spec castOutside heap hNil
    rw [h] at hSpec
    exact hSpec.2.1

theorem Marshaled.nesting {obj : Object} (h : Marshaled obj) : obj.nesting ≤ kMarshalDepthCap := by
  induction h with
  | @cjson node out heap conversion h hOk =>
    rcases cjsonToObjectHeap_eq node out heap with ⟨root, heap', hRun, -, hNesting, -⟩ |
      ⟨heap', freed, hRun, -⟩
    · cases hRun.symm.trans h
      exact hNesting
    · cases hRun.symm.trans h
      cases hOk
  | msgpack h => exact (Msgpack.ok_iff.mp h).2.bounds.1
  | lua h => exact luaPopObject_nesting h
  | part _ hChild ih => exact Nat.le_trans (Nat.le_of_lt (Object.nesting_kid hChild)) ih

structure Api.Stores.Capped (st : Stores) : Prop where
  vars : ∀ entry ∈ st.vars.entries, entry.value.nesting ≤ kMarshalDepthCap
  options : ∀ key value, st.options.slots key = some value → value.nesting ≤ kMarshalDepthCap

/-- The call is answered, by a value within the cap or an error, and the stores stay so. -/
def Api.Outcome.Capped : Outcome → Prop
  | none => False
  | some (.error _) => True
  | some (.ok (value, st)) => value.nesting ≤ kMarshalDepthCap ∧ st.Capped

theorem start_capped (session : Option Session.SessionState) :
    Stores.Capped ⟨.empty, .empty, session⟩ where
  vars entry h := by cases h
  options key value h := by cases h

namespace Api

variable {st : Stores} {args : List Object}

theorem setOption_capped (h : st.Capped) (hArgs : ∀ arg ∈ args, arg.nesting ≤ kMarshalDepthCap) :
    (dispatchSetOption st args).Capped := by
  unfold dispatchSetOption
  split
  · rename_i name value
    cases hSet : optionsSet st.options name value with
    | error err => trivial
    | ok options =>
      obtain ⟨key, hSlots⟩ := optionsSet_ok hSet
      refine ⟨Nat.zero_le _, h.vars, fun k v hSlot => ?_⟩
      change options.slots k = some v at hSlot
      rw [hSlots] at hSlot
      by_cases hk : k = key
      · subst hk
        rw [Function.update_self] at hSlot
        exact Option.some.inj hSlot ▸ hArgs value (List.mem_cons_of_mem _ List.mem_cons_self)
      · rw [Function.update_of_ne hk] at hSlot
        exact h.options k v hSlot
  · trivial

theorem getOption_capped (h : st.Capped) : (dispatchGetOption st args).Capped := by
  unfold dispatchGetOption
  split
  · rename_i name
    rw [optionsGet]
    split
    · trivial
    · rename_i key hKey
      refine ⟨?_, h⟩
      cases hSlot : st.options.slots key with
      | none => exact (default_encodable key).1
      | some value => exact h.options key value hSlot
  · trivial

theorem setVar_capped (caller : Caller) (h : st.Capped)
    (hArgs : ∀ arg ∈ args, arg.nesting ≤ kMarshalDepthCap) :
    (dispatchSetVar caller st args).Capped := by
  unfold dispatchSetVar
  split
  · rename_i name value
    have hValue := hArgs value (List.mem_cons_of_mem _ List.mem_cons_self)
    obtain ⟨result, hSet, hResult⟩ := variablesSet_forall
      (P := fun obj => obj.nesting ≤ kMarshalDepthCap) (caller.data name) hValue hValue h.vars
    rw [hSet]
    cases result with
    | error err => trivial
    | ok vars => exact ⟨Nat.zero_le _, hResult, h.options⟩
  · trivial

theorem getVar_capped (caller : Caller) (h : st.Capped) :
    (dispatchGetVar caller st args).Capped := by
  unfold dispatchGetVar
  split
  · rename_i name
    obtain ⟨value, hGet, hValue⟩ := variablesGet_forall
      (P := fun obj => obj.nesting ≤ kMarshalDepthCap) (caller.data name) (Nat.zero_le _)
      h.vars h.vars
    rw [hGet]
    exact ⟨hValue, h⟩
  · trivial

theorem session_capped {answer : Session.SessionState → Except Error (Object × Stores)}
    (hAnswer : ∀ sess, Outcome.Capped (some (answer sess))) :
    Outcome.Capped (some ((sessHandle args).bind fun handle =>
      (sessionResolve st handle).bind answer)) := by
  cases sessHandle args with
  | error err => trivial
  | ok handle =>
    change Outcome.Capped (some ((sessionResolve st handle).bind answer))
    cases sessionResolve st handle with
    | error err => trivial
    | ok sess => exact hAnswer sess

theorem getMessages_capped (h : st.Capped) : (dispatchSessGetMessages st args).Capped := by
  rw [dispatchSessGetMessages]
  apply session_capped
  intro sess
  cases hMessages : cjsonToObject (.array sess.messages) with
  | error err => trivial
  | ok messages => exact ⟨cjsonToObject_nesting hMessages, h⟩

theorem call_capped (fn : ApiFn) (caller : Caller) (h : st.Capped)
    (hArgs : ∀ arg ∈ args, arg.nesting ≤ kMarshalDepthCap) : (fn.call caller st args).Capped := by
  cases fn with
  | setOption => exact setOption_capped h hArgs
  | getOption => exact getOption_capped h
  | setVar => exact setVar_capped caller h hArgs
  | getVar => exact getVar_capped caller h
  | sessGetMessages => exact getMessages_capped h
  | sessGetId =>
    rw [ApiFn.call, getId_eq]
    exact session_capped fun sess => ⟨Nat.zero_le _, h⟩

/-- A call through the dispatch table; or the session changes under the API, which only
reads it. -/
inductive Event
  | call (fn : ApiFn) (caller : Caller) (args : List Object)
  | session (session : Option Session.SessionState)

/-- None where an assertion fails in the call. -/
def step (st : Stores) : Event → Option Stores
  | .call fn caller args => (fn.call caller st args).map fun
    | .error _ => st
    | .ok (_, st') => st'
  | .session session => some { st with session }

def Event.Marshals : Event → Prop
  | .call _ _ args => ∀ arg ∈ args, Marshaled arg
  | .session _ => True

theorem step_capped {e : Event} (h : st.Capped) (hEvent : e.Marshals) :
    ∃ st', step st e = some st' ∧ st'.Capped := by
  cases e with
  | session session => exact ⟨_, rfl, h.vars, h.options⟩
  | call fn caller args =>
    have hCall := call_capped fn caller h fun arg hArg => (hEvent arg hArg).nesting
    rw [step]
    match hResult : fn.call caller st args with
    | none =>
      rw [hResult] at hCall
      cases hCall
    | some (.error err) => exact ⟨st, rfl, h⟩
    | some (.ok (value, st')) =>
      rw [hResult] at hCall
      exact ⟨st', rfl, hCall.2⟩

theorem run_capped {es : List Event} (h : st.Capped) (hEvents : ∀ e ∈ es, e.Marshals) :
    ∃ st', Run.run step st es = some st' ∧ st'.Capped := by
  induction es generalizing st with
  | nil => exact ⟨st, rfl, h⟩
  | cons e es ih =>
    obtain ⟨hHead, hRest⟩ := List.forall_mem_cons.mp hEvents
    obtain ⟨mid, hStep, hMid⟩ := step_capped h hHead
    obtain ⟨st', hRun, hCapped⟩ := ih hMid hRest
    exact ⟨st', Run.run_cons_eq_some.mpr ⟨mid, hStep, hRun⟩, hCapped⟩

/-- Stores after a sequence of calls from the start of the program. -/
def Reached (st : Stores) : Prop :=
  ∃ session events, (∀ e ∈ events, e.Marshals) ∧
    Run.run step ⟨.empty, .empty, session⟩ events = some st

theorem Reached.capped (h : Reached st) : st.Capped := by
  obtain ⟨session, events, hEvents, hRun⟩ := h
  obtain ⟨st', hRun', hCapped⟩ := run_capped (start_capped session) hEvents
  cases hRun.symm.trans hRun'
  exact hCapped

end Api

/-- The objects the program works on: what the converters return, what the stores hold after
any calls, what a call returns, and the parts of these. -/
inductive Held : Object → Prop
  | marshaled {obj : Object} (h : Marshaled obj) : Held obj
  | option {st : Stores} {key : OptionKey} {obj : Object} (h : Reached st)
    (hSlot : st.options.slots key = some obj) : Held obj
  | stored {st : Stores} {entry : VarEntry} (h : Reached st)
    (hEntry : entry ∈ st.vars.entries) : Held entry.value
  | returned {st st' : Stores} {fn : ApiFn} {caller : Caller} {args : List Object} {obj : Object}
    (h : Reached st) (hArgs : ∀ arg ∈ args, Marshaled arg)
    (hCall : fn.call caller st args = some (.ok (obj, st'))) : Held obj
  | part {obj child : Object} (h : Held obj) (hChild : child ∈ obj.kids) : Held child

theorem Held.nesting {obj : Object} (h : Held obj) : obj.nesting ≤ kMarshalDepthCap := by
  induction h with
  | marshaled h => exact h.nesting
  | option h hSlot => exact h.capped.options _ _ hSlot
  | stored h hEntry => exact h.capped.vars _ hEntry
  | @returned st st' fn caller args obj h hArgs hCall =>
    have hCapped := call_capped fn caller h.capped fun arg hArg => (hArgs arg hArg).nesting
    rw [hCall] at hCapped
    exact hCapped.1
  | part _ hChild ih => exact Nat.le_trans (Nat.le_of_lt (Object.nesting_kid hChild)) ih

/-- Every object the program works on keeps within the cap, and none of the walks over it
needs a frame too many or leaves a node out; no call of a sequence fails an assertion. -/
theorem held_walked :
    (∀ obj, Held obj → obj.nesting ≤ kMarshalDepthCap ∧ obj.Walked) ∧
      ∀ session events, (∀ e ∈ events, Event.Marshals e) →
        ∃ st, Run.run step ⟨.empty, .empty, session⟩ events = some st := by
  constructor
  · intro obj h
    exact ⟨h.nesting, Object.walked h.nesting⟩
  · intro session events hEvents
    obtain ⟨st, hRun, -⟩ := run_capped (start_capped session) hEvents
    exact ⟨st, hRun⟩

/-- A decoded array with an empty array in it. -/
theorem held_walked_sample :
    (Object.array [.array []]).nesting ≤ kMarshalDepthCap ∧ (Object.array [.array []]).Walked := by
  have hInner : Msgpack.arrayFamily.Head ([] : List Object).length [0x90] :=
    .fix (b := 0x90) (by decide) (by decide)
  have hOuter : Msgpack.arrayFamily.Head ([.array []] : List Object).length [0x91] :=
    .fix (b := 0x91) (by decide) (by decide)
  have hEmpty : Msgpack.Encodes 31 (.array []) ([0x90] ++ [].flatten) := .inr (.array hInner .nil)
  have hEnc : Msgpack.Encodes kMarshalDepthCap (.array [.array []]) [0x91, 0x90] :=
    .inr (.array hOuter (.cons hEmpty .nil))
  have hDecode := Msgpack.decoded_of_encodes hEnc []
  exact held_walked.1 _ (.marshaled (.msgpack hDecode))

end Mua
