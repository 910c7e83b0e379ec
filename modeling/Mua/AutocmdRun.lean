import Mathlib.Order.Lattice.Nat
import Mua.Autocmd

/-! # Hooks behind references

A store that holds the functions themselves, and its relation to the store of references: whatever
reference the registry hands out next, as long as it is not in use, every call is answered the
same and every dispatch calls the same functions. No reference is released twice, and in the end
none is left.
-/

namespace Mua.Autocmd

open Agent Tools References

structure Hook where
  id : Int
  event : AutocmdEvent
  callback : Lua.Value
  deriving DecidableEq

structure HookStore where
  hooks : List Hook := []
  nextId : Int := 1
  tools : ToolRegistry := {}

variable (lua : LuaLib) (alloc : RefAllocator)

namespace HookStore

def onEvent (s : HookStore) (event : AutocmdEvent) : List Hook :=
  s.hooks.filter fun hook => hook.event = event

def create (s : HookStore) (event callback : Lua.Value) : HookStore × Note :=
  match toLString lua event with
  | none => (s, .raised (.argument 1))
  | some name =>
    if isFunction callback then
      match autocmdEventFromName name with
      | none => (s, .raised (.api (unknownEvent name)))
      | some event =>
        if kMaxAutocmds ≤ s.hooks.length then (s, .raised (.api tooManyAutocmds))
        else
          ({ s with hooks := s.hooks ++ [⟨s.nextId, event, callback⟩], nextId := s.nextId + 1 },
            .created s.nextId)
    else (s, .raised (.argument 2))

def apply (s : HookStore) : ApiCall → HookStore × Note
  | .createAutocmd event callback => s.create lua event callback
  | .clearAutocmds => ({ s with hooks := [] }, .cleared)
  | .registerTool args =>
    ({ s with tools := registerTool lua s.tools args },
      (Tools.lMuaRegisterTool lua s.tools.registered s.tools.calls args).1.elim Note.registered
        Note.raised)

def applyAll (s : HookStore) : List ApiCall → HookStore × List Note
  | [] => (s, [])
  | c :: rest =>
    let first := s.apply lua c
    let others := applyAll first.1 rest
    (others.1, first.2 :: others.2)

def call (s : HookStore) (callback : Lua.Value) (body : Body) :
    HookStore × List Note × Option (HookReturn Unit) :=
  if isFunction callback then
    let called := s.applyAll lua body.calls
    (called.1, .invoked callback :: called.2, body.result)
  else (s, [.invoked callback], none)

/-- The function in the place `i` of an event, by now. -/
def callbackAt (s : HookStore) (event : AutocmdEvent) (i : Nat) : Lua.Value :=
  ((s.onEvent event)[i]?).elim .nil Hook.callback

def fireFrom (event : AutocmdEvent) : Nat → Nat → List Body → HookStore → HookStore × List Note
  | 0, _, _, s => (s, [])
  | left + 1, i, script, s =>
    let called := s.call lua (s.callbackAt event i) (script.headD {})
    if halts event called.2.2 then (called.1, called.2.1)
    else
      let others := fireFrom event left (i + 1) script.tail called.1
      (others.1, called.2.1 ++ others.2)

def fire (s : HookStore) (event : AutocmdEvent) (room : Bool) (script : List Body) :
    HookStore × List Note :=
  if room then fireFrom lua event (s.onEvent event).length 0 script s else (s, [])

def invokeTool (s : HookStore) (name : Bytes) (room : Bool) (body : Body) : HookStore × List Note :=
  match (toolsLookup s.tools.registered (some name)).bind ToolEntry.callback with
  | none => (s, [])
  | some callback =>
    if room then
      let called := s.call lua callback body
      (called.1, called.2.1)
    else (s, [])

def step (s : HookStore) : LuaEvent → HookStore × List Note
  | .calls cs => s.applyAll lua cs
  | .fire event room script => s.fire lua event room script
  | .invokeTool name room body => s.invokeTool lua name room body
  | .teardown => ({ s with hooks := [], tools := Tools.toolsTeardown s.tools }, [])

def run (s : HookStore) : List LuaEvent → HookStore × List Note
  | [] => (s, [])
  | e :: rest =>
    let first := s.step lua e
    let others := run first.1 rest
    (others.1, first.2 ++ others.2)

end HookStore

variable {host host' : LuaHost} {store : HookStore} {event : AutocmdEvent}

def LuaHost.owned (host : LuaHost) : List Int :=
  host.autocmds.map AutocmdEntry.callback ++ host.toolRefs

/-- An entry whose reference leads to the function of the hook. -/
structure Refers (refs : Table Int Lua.Value) (entry : AutocmdEntry) (hook : Hook) : Prop where
  id_eq : entry.id = hook.id
  event_eq : entry.event = hook.event
  callback : refs.lookup entry.callback = some hook.callback

/-- A tool whose reference leads to its function; a built-in tool has none. -/
structure RefersTool (refs : Table Int Lua.Value) (tool : RegisteredTool) (ref : Int) : Prop where
  callback_eq : tool.callback = refs.lookup ref
  some : tool.callback ≠ none

structure Holds (host : LuaHost) (store : HookStore) : Prop where
  nextId_eq : host.nextId = store.nextId
  tools_eq : host.tools = store.tools
  hooks : List.Forall₂ (Refers host.refs) host.autocmds store.hooks
  toolRefs : List.Forall₂ (RefersTool host.refs) host.tools.registered host.toolRefs
  owned : Table.Owned host.refs host.owned
  positive : ∀ r ∈ host.owned, 0 < r
  functions : ∀ r callback, host.refs.lookup r = Option.some callback → isFunction callback = true
  bounded : host.autocmds.length ≤ kMaxAutocmds

theorem holds_empty : Holds {} {} where
  nextId_eq := rfl
  tools_eq := rfl
  hooks := .nil
  toolRefs := .nil
  owned := Table.owned_empty
  positive := by simp [LuaHost.owned]
  functions := by
    intro r callback h
    rw [Finmap.lookup_empty] at h
    cases h
  bounded := Nat.zero_le _

theorem Holds.hook_mem (h : Holds host store) {entry : AutocmdEntry} (hEntry : entry ∈ host.autocmds) :
    entry.callback ∈ host.refs := by
  rw [h.owned.mem_iff, LuaHost.owned, List.mem_append]
  exact .inl (List.mem_map_of_mem hEntry)

theorem Holds.tool_mem (h : Holds host store) {ref : Int} (hRef : ref ∈ host.toolRefs) :
    ref ∈ host.refs := by
  rw [h.owned.mem_iff, LuaHost.owned, List.mem_append]
  exact .inr hRef

theorem refers_of_lookup {refs refs' : Table Int Lua.Value} {entries : List AutocmdEntry}
    {hooks : List Hook} (h : List.Forall₂ (Refers refs) entries hooks)
    (hLookup : ∀ entry ∈ entries, refs'.lookup entry.callback = refs.lookup entry.callback) :
    List.Forall₂ (Refers refs') entries hooks := by
  induction h with
  | nil => exact .nil
  | cons hEntry _ ih =>
    rw [List.forall_mem_cons] at hLookup
    exact .cons ⟨hEntry.id_eq, hEntry.event_eq, hLookup.1.trans hEntry.callback⟩ (ih hLookup.2)

theorem refersTool_of_lookup {refs refs' : Table Int Lua.Value} {tools : List RegisteredTool}
    {toolRefs : List Int} (h : List.Forall₂ (RefersTool refs) tools toolRefs)
    (hLookup : ∀ r ∈ toolRefs, refs'.lookup r = refs.lookup r) :
    List.Forall₂ (RefersTool refs') tools toolRefs := by
  induction h with
  | nil => exact .nil
  | cons hTool _ ih =>
    rw [List.forall_mem_cons] at hLookup
    exact .cons ⟨hTool.callback_eq.trans hLookup.1.symm, hTool.some⟩ (ih hLookup.2)

theorem Holds.make (h : Holds host store) (callback : Lua.Value) :
    List.Forall₂ (Refers (host.refs.make alloc.toAllocator callback)) host.autocmds store.hooks ∧
      List.Forall₂ (RefersTool (host.refs.make alloc.toAllocator callback)) host.tools.registered
        host.toolRefs :=
  ⟨refers_of_lookup h.hooks fun _ hEntry => Table.lookup_make (h.hook_mem hEntry),
    refersTool_of_lookup h.toolRefs fun _ hRef => Table.lookup_make (h.tool_mem hRef)⟩

theorem Holds.functions_make (h : Holds host store) {callback : Lua.Value}
    (hFunction : isFunction callback = true) (r : Int) (found : Lua.Value)
    (hFound : (host.refs.make alloc.toAllocator callback).lookup r = some found) :
    isFunction found = true := by
  by_cases hr : r = alloc.pick host.refs
  · subst hr
    rw [Table.lookup_make_self] at hFound
    cases hFound
    exact hFunction
  · rw [Table.make, Finmap.lookup_insert_of_ne _ hr] at hFound
    exact h.functions r found hFound

theorem create_holds (h : Holds host store) (event callback : Lua.Value) :
    ∃ host', lMuaCreateAutocmd lua alloc host event callback =
        some (host', (store.create lua event callback).2) ∧
      Holds host' (store.create lua event callback).1 := by
  rw [lMuaCreateAutocmd, HookStore.create]
  cases toLString lua event with
  | none => exact ⟨host, rfl, h⟩
  | some name =>
    dsimp only
    split
    · rename_i hFunction
      rw [muaCreateAutocmd]
      cases hEvent : autocmdEventFromName name with
      | none =>
        dsimp only
        rw [Table.release_make]
        exact ⟨_, rfl, h⟩
      | some resolved =>
        dsimp only
        rw [autocmdCreate]
        have hLength := h.hooks.length_eq
        by_cases hFull : kMaxAutocmds ≤ host.autocmds.length
        · rw [if_pos hFull, if_pos (hLength ▸ hFull)]
          dsimp only
          rw [Table.release_make]
          exact ⟨_, rfl, h⟩
        · have hRoom : host.autocmds.length + 1 ≤ kMaxAutocmds := Nat.lt_of_not_le hFull
          rw [if_neg hFull, if_neg (hLength ▸ hFull), h.nextId_eq]
          obtain ⟨hHooks, hTools⟩ := h.make alloc callback
          refine ⟨_, rfl, ?_⟩
          constructor
          · rfl
          · exact h.tools_eq
          · refine List.rel_append hHooks (.cons ⟨rfl, rfl, ?_⟩ .nil)
            exact Table.lookup_make_self
          · exact hTools
          · refine h.owned.make.perm ?_
            simp only [LuaHost.owned, List.map_append, List.append_assoc, List.map_cons, List.map_nil]
            exact List.Perm.append_left _ List.perm_append_comm
          · intro r hr
            simp only [LuaHost.owned, List.map_append, List.mem_append, List.map_cons, List.map_nil,
              List.mem_singleton] at hr
            have hOld := h.positive r
            rw [LuaHost.owned, List.mem_append] at hOld
            rcases hr with (hr | rfl) | hr
            · exact hOld (.inl hr)
            · exact alloc.positive _
            · exact hOld (.inr hr)
          · exact h.functions_make alloc hFunction
          · rw [List.length_append, List.length_singleton]
            exact hRoom
    · exact ⟨host, rfl, h⟩

theorem clear_holds (h : Holds host store) :
    ∃ host', autocmdClear host = some host' ∧ Holds host' { store with hooks := [] } := by
  obtain ⟨refs, hRelease, hOwned, hLookup⟩ := h.owned.releaseAll
  refine ⟨{ host with refs, autocmds := [] }, by rw [autocmdClear, hRelease]; rfl, ?_⟩
  constructor
  · exact h.nextId_eq
  · exact h.tools_eq
  · exact .nil
  · exact refersTool_of_lookup h.toolRefs hLookup
  · exact hOwned
  · intro r hr
    apply h.positive
    rw [LuaHost.owned, List.mem_append]
    exact .inr hr
  · intro r callback hFound
    have hMem : r ∈ refs := Finmap.mem_of_lookup_eq_some hFound
    rw [hLookup r ((hOwned.mem_iff r).mp hMem)] at hFound
    exact h.functions r callback hFound
  · exact Nat.zero_le _

/-- A registration leaves the table, or adds a tool with the function it was given. -/
theorem register_callback (registered : List RegisteredTool) (call : Nat) (args : RegisterArgs) :
    (Tools.lMuaRegisterTool lua registered call args).2.registered = registered ∨
      ∃ tool, (Tools.lMuaRegisterTool lua registered call args).2.registered =
          registered ++ [tool] ∧ tool.callback = some args.callback := by
  have hRegister : ∀ (reg : Registration) (name description : Bytes) (tree : CJson) (mutating : Bool),
      (toolsRegister reg call name description tree mutating args.callback).2.registered =
          reg.registered ∨
        ∃ tool, (toolsRegister reg call name description tree mutating args.callback).2.registered =
            reg.registered ++ [tool] ∧ tool.callback = some args.callback := by
    intro reg name description tree mutating
    rw [toolsRegister]
    split
    · exact .inl rfl
    dsimp only
    split
    · exact .inl rfl
    split
    · exact .inl rfl
    · exact .inr ⟨_, rfl, rfl⟩
  rw [Tools.lMuaRegisterTool]
  dsimp only
  cases toLString lua args.name with
  | none => exact .inl rfl
  | some name =>
  cases optString lua [] args.description with
  | none => exact .inl rfl
  | some description =>
  dsimp only
  split
  · cases schemaArg lua args.heap args.schema with
    | error err => exact .inl rfl
    | ok schema =>
    dsimp only
    rw [muaRegisterTool]
    cases schemaTree schema with
    | error err => exact .inl rfl
    | ok tree =>
    have hAnswer := hRegister
      (((Registration.make { registered } .arena).make .callback).make .schema) name description
      tree (mutatingArg args.mutating)
    dsimp only
    generalize toolsRegister _ call name description tree _ _ = answer at hAnswer
    obtain ⟨raised, reg⟩ := answer
    cases raised with
    | none => exact hAnswer
    | some err => exact hAnswer
  · exact .inl rfl

theorem register_holds (h : Holds host store) (args : RegisterArgs) :
    ∃ host', lMuaRegisterTool lua alloc host args =
        some (host', (store.apply lua (.registerTool args)).2) ∧
      Holds host' (store.apply lua (.registerTool args)).1 := by
  have hCases := lMuaRegisterTool_cases lua host.tools.registered host.tools.calls args
  have hCallback := register_callback lua host.tools.registered host.tools.calls args
  have hTable : (registerTool lua host.tools args).registered =
    (Tools.lMuaRegisterTool lua host.tools.registered host.tools.calls args).2.registered := rfl
  have hSame : (registerTool lua host.tools args).registered = host.tools.registered →
      Holds { host with tools := registerTool lua host.tools args }
        { store with tools := registerTool lua host.tools args } := by
    intro hRegistered
    refine ⟨h.nextId_eq, rfl, h.hooks, ?_, h.owned, h.positive, h.functions, h.bounded⟩
    rw [hRegistered]
    exact h.toolRefs
  rw [HookStore.apply, ← h.tools_eq, lMuaRegisterTool]
  rw [hTable] at hSame
  generalize Tools.lMuaRegisterTool lua host.tools.registered host.tools.calls args = answer at *
  obtain ⟨raised, registered, ledger⟩ := answer
  -- a reference that was made and given back is as good as none
  have hBack : registered = host.tools.registered →
      ∃ host', ((host.refs.make alloc.toAllocator args.callback).release (alloc.pick host.refs)).map
          (fun refs => ({ host with tools := registerTool lua host.tools args, refs },
            raised.elim Note.registered Note.raised)) =
          some (host', raised.elim Note.registered Note.raised) ∧
        Holds host' { store with tools := registerTool lua host.tools args } := by
    intro hRegistered
    rw [Table.release_make]
    exact ⟨_, rfl, hSame hRegistered⟩
  cases hCases with
  | badArgument _ index => exact ⟨_, rfl, hSame rfl⟩
  | unmarshaled _ err => exact ⟨_, rfl, hSame rfl⟩
  | notTable _ => exact hBack rfl
  | unnamed _ err => exact hBack rfl
  | refused _ _ _ err => exact hBack rfl
  | @accepted name tree hArgs hName hNew hRoom tool hTool hCall hSchema =>
    obtain ⟨hHooks, hTools⟩ := h.make alloc args.callback
    have hTool : tool.callback = some args.callback := by
      rcases hCallback with hNone | ⟨other, hOther, hCallback⟩
      · have hNone : host.tools.registered ++ [tool] = host.tools.registered := hNone
        cases List.append_right_eq_self.mp hNone
      · have hSame := List.append_cancel_left hOther
        cases hSame
        exact hCallback
    refine ⟨{ host with
      tools := registerTool lua host.tools args
      refs := host.refs.make alloc.toAllocator args.callback
      toolRefs := host.toolRefs ++ [alloc.pick host.refs] }, rfl, ?_⟩
    constructor
    · exact h.nextId_eq
    · rfl
    · exact hHooks
    · rw [hTable]
      refine List.rel_append hTools (.cons ⟨?_, ?_⟩ .nil)
      · rw [hTool]
        exact Table.lookup_make_self.symm
      · rw [hTool]
        exact Option.some_ne_none _
    · refine h.owned.make.perm ?_
      rw [LuaHost.owned, LuaHost.owned, List.append_assoc]
    · intro r hr
      rw [LuaHost.owned, ← List.append_assoc, List.mem_append, List.mem_singleton] at hr
      rcases hr with hr | rfl
      · exact h.positive r hr
      · exact alloc.positive _
    · exact h.functions_make alloc hArgs.callback_function
    · exact h.bounded

theorem apply_holds (h : Holds host store) (c : ApiCall) :
    ∃ host', apiCall lua alloc host c = some (host', (store.apply lua c).2) ∧
      Holds host' (store.apply lua c).1 := by
  cases c with
  | createAutocmd event callback => exact create_holds lua alloc h event callback
  | clearAutocmds =>
    obtain ⟨host', hClear, hHolds⟩ := clear_holds h
    refine ⟨host', ?_, hHolds⟩
    rw [apiCall, lMuaClearAutocmds, hClear]
    rfl
  | registerTool args => exact register_holds lua alloc h args

theorem applyAll_holds (h : Holds host store) (cs : List ApiCall) :
    ∃ host', apiCalls lua alloc host cs = some (host', (store.applyAll lua cs).2) ∧
      Holds host' (store.applyAll lua cs).1 := by
  induction cs generalizing host store with
  | nil => exact ⟨host, rfl, h⟩
  | cons c rest ih =>
    obtain ⟨mid, hFirst, hMid⟩ := apply_holds lua alloc h c
    obtain ⟨host', hRest, hHolds⟩ := ih hMid
    refine ⟨host', ?_, hHolds⟩
    rw [apiCalls, hFirst, Option.bind_some]
    dsimp only
    rw [hRest]
    rfl

theorem pcall_holds (h : Holds host store) {ref : Int} {callback : Lua.Value}
    (hRef : (host.refs.lookup ref).getD .nil = callback) (body : Body) :
    ∃ host', pcallRef lua alloc host ref body = some (host', (store.call lua callback body).2) ∧
      Holds host' (store.call lua callback body).1 := by
  rw [pcallRef, HookStore.call, hRef]
  split
  · obtain ⟨host', hCalls, hHolds⟩ := applyAll_holds lua alloc h body.calls
    refine ⟨host', ?_, hHolds⟩
    rw [hCalls]
    rfl
  · exact ⟨host, rfl, h⟩

theorem refAtFrom_eq (event : AutocmdEvent) {idx n : Nat} (hn : n ≤ idx)
    (entries : List AutocmdEntry) :
    refAtFrom event idx n entries =
      ((entries.filter fun entry => entry.event = event)[idx - n]?).elim (-1)
        AutocmdEntry.callback := by
  induction entries generalizing n with
  | nil => rfl
  | cons entry rest ih =>
    rw [refAtFrom, List.filter_cons]
    by_cases hEvent : entry.event = event
    · rw [if_pos hEvent, if_pos (decide_eq_true hEvent)]
      split
      · rename_i hIdx
        rw [hIdx, Nat.sub_self]
        rfl
      · rename_i hIdx
        have hLess : idx - n = idx - (n + 1) + 1 := by omega
        rw [ih (by omega), hLess, List.getElem?_cons_succ]
    · rw [if_neg hEvent, if_neg (by simpa using hEvent), ih hn]

theorem onEvent_refers (h : Holds host store) (event : AutocmdEvent) :
    List.Forall₂ (Refers host.refs) (host.autocmds.filter fun entry => entry.event = event)
      (store.onEvent event) := by
  have hEvents : ∀ {entry : AutocmdEntry} {hook : Hook}, Refers host.refs entry hook →
      (decide (entry.event = event) = true ↔ decide (hook.event = event) = true) := by
    intro entry hook hRefers
    rw [hRefers.event_eq]
  exact List.rel_filter (fun _ _ hRefers => hEvents hRefers) h.hooks

theorem count_eq (h : Holds host store) (event : AutocmdEvent) :
    autocmdCount host.autocmds event = (store.onEvent event).length := by
  rw [autocmdCount, List.countP_eq_length_filter]
  exact (onEvent_refers h event).length_eq

theorem refAt_callback (h : Holds host store) (event : AutocmdEvent) (i : Nat) :
    (host.refs.lookup (autocmdRefAt host.autocmds event i)).getD .nil =
      store.callbackAt event i := by
  rw [autocmdRefAt, refAtFrom_eq event (Nat.zero_le i), Nat.sub_zero, HookStore.callbackAt]
  have hRefers := onEvent_refers h event
  rcases Nat.lt_or_ge i (store.onEvent event).length with hLt | hGe
  · have hLt' : i < (host.autocmds.filter fun entry => entry.event = event).length :=
      hRefers.length_eq ▸ hLt
    rw [List.getElem?_eq_getElem hLt, List.getElem?_eq_getElem hLt']
    have hEntry := hRefers.get hLt' hLt
    rw [List.get_eq_getElem, List.get_eq_getElem] at hEntry
    exact congrArg (·.getD .nil) hEntry.callback
  · rw [List.getElem?_eq_none hGe, List.getElem?_eq_none (hRefers.length_eq ▸ hGe)]
    have hNone : host.refs.lookup (-1) = none := by
      rw [Finmap.lookup_eq_none, h.owned.mem_iff]
      intro hMem
      have hPos := h.positive (-1) hMem
      omega
    exact congrArg (·.getD .nil) hNone

theorem fireLoop_holds (event : AutocmdEvent) (left i : Nat) (script : List Body)
    (h : Holds host store) :
    ∃ host', fireLoop lua alloc event left i script host =
        some (host', (HookStore.fireFrom lua event left i script store).2) ∧
      Holds host' (HookStore.fireFrom lua event left i script store).1 := by
  induction left generalizing i script host store with
  | zero => exact ⟨host, rfl, h⟩
  | succ left ih =>
    obtain ⟨mid, hCall, hMid⟩ := pcall_holds lua alloc h
      (refAt_callback h event i) (script.headD {})
    rw [fireLoop, hCall, Option.bind_some, HookStore.fireFrom]
    dsimp only
    split
    · exact ⟨mid, rfl, hMid⟩
    · obtain ⟨host', hRest, hHolds⟩ := ih (i + 1) script.tail hMid
      refine ⟨host', ?_, hHolds⟩
      rw [hRest]
      rfl

theorem builtins_uncalled : ∀ entry ∈ toolDefs, entry.callback = none := by
  intro entry hEntry
  rw [toolDefs] at hEntry
  simp only [List.mem_cons, List.not_mem_nil, or_false] at hEntry
  rcases hEntry with rfl | rfl | rfl | rfl <;> rfl

theorem invokeTool_holds (h : Holds host store) (name : Bytes) (room : Bool) (body : Body) :
    ∃ host', invokeTool lua alloc host name room body =
        some (host', (store.invokeTool lua name room body).2) ∧
      Holds host' (store.invokeTool lua name room body).1 := by
  rw [invokeTool, HookStore.invokeTool, toolsLookup, ← h.tools_eq]
  cases hBuiltin : toolDefs.find? fun entry => decide (entry.name = name) with
  | some entry =>
    have hNone : entry.callback = none := builtins_uncalled entry (List.mem_of_find?_eq_some hBuiltin)
    simp only [Option.isSome_some, if_true, Option.bind_some, hNone]
    exact ⟨host, rfl, h⟩
  | none =>
    rw [List.find?_eq_bind_findIdx?_getElem?]
    cases hIdx : host.tools.registered.findIdx? fun tool => decide (tool.name = name) with
    | none => exact ⟨host, rfl, h⟩
    | some i =>
      obtain ⟨hLt, -⟩ := List.findIdx?_eq_some_iff_getElem.mp hIdx
      have hLt' : i < host.toolRefs.length := h.toolRefs.length_eq ▸ hLt
      have hTool := h.toolRefs.get hLt hLt'
      rw [List.get_eq_getElem, List.get_eq_getElem] at hTool
      obtain ⟨callback, hCallback⟩ := Option.ne_none_iff_exists'.mp hTool.some
      have hRef : (host.refs.lookup ((host.toolRefs[i]?).getD (-1))).getD .nil = callback := by
        rw [List.getElem?_eq_getElem hLt', Option.getD_some, ← hTool.callback_eq, hCallback]
        rfl
      obtain ⟨host', hCall, hHolds⟩ := pcall_holds lua alloc h hRef body
      simp only [Option.isSome_none, Bool.false_eq_true, if_false, Option.bind_some,
        List.getElem?_eq_getElem hLt, Option.map_some, hCallback]
      cases room with
      | false => exact ⟨host, rfl, h⟩
      | true =>
        refine ⟨host', ?_, hHolds⟩
        rw [if_pos rfl, hCall]
        rfl

theorem teardown_holds (h : Holds host store) :
    ∃ host', luaStep lua alloc host .teardown = some (host', []) ∧
      Holds host' { store with hooks := [], tools := Tools.toolsTeardown store.tools } ∧
      host'.refs = ∅ := by
  have hFirst : Table.Owned host.refs
      (host.toolRefs ++ host.autocmds.map AutocmdEntry.callback) :=
    h.owned.perm List.perm_append_comm
  obtain ⟨refs, hRelease, hOwned, hLookup⟩ := hFirst.releaseAll
  have hMid : Holds { host with refs, tools := Tools.toolsTeardown host.tools, toolRefs := [] }
      { store with tools := Tools.toolsTeardown store.tools } := by
    constructor
    · exact h.nextId_eq
    · exact congrArg Tools.toolsTeardown h.tools_eq
    · refine refers_of_lookup h.hooks fun entry hEntry => ?_
      exact hLookup _ (List.mem_map_of_mem hEntry)
    · exact .nil
    · rw [LuaHost.owned, List.append_nil]
      exact hOwned
    · intro r hr
      rw [LuaHost.owned, List.append_nil] at hr
      apply h.positive
      exact List.mem_append_left _ hr
    · intro r callback hFound
      have hMem : r ∈ refs := Finmap.mem_of_lookup_eq_some hFound
      rw [hLookup r ((hOwned.mem_iff r).mp hMem)] at hFound
      exact h.functions r callback hFound
    · exact h.bounded
  obtain ⟨host', hClear, hHolds⟩ := clear_holds hMid
  refine ⟨host', ?_, hHolds, ?_⟩
  · rw [luaStep, toolsTeardown, hRelease]
    change (autocmdClear _).map _ = _
    rw [hClear]
    rfl
  · apply Table.Owned.eq_empty
    have hEnd := hHolds.owned
    have hNone : host'.owned = [] := by
      have hHooks := hHolds.hooks.length_eq
      have hTools := hHolds.toolRefs.length_eq
      rw [hHolds.tools_eq] at hTools
      rw [LuaHost.owned, List.eq_nil_of_length_eq_zero hHooks,
        List.eq_nil_of_length_eq_zero hTools.symm]
      rfl
    rwa [hNone] at hEnd

theorem step_holds (h : Holds host store) (e : LuaEvent) :
    ∃ host', luaStep lua alloc host e = some (host', (store.step lua e).2) ∧
      Holds host' (store.step lua e).1 := by
  cases e with
  | calls cs => exact applyAll_holds lua alloc h cs
  | fire event room script =>
    cases room with
    | false => exact ⟨host, rfl, h⟩
    | true =>
      have hLoop := fireLoop_holds lua alloc event
        (autocmdCount host.autocmds event) 0 script h
      rw [luaStep, autocmdFire, HookStore.step, HookStore.fire, ← count_eq h event, if_pos rfl,
        if_pos rfl]
      exact hLoop
  | invokeTool name room body => exact invokeTool_holds lua alloc h name room body
  | teardown =>
    obtain ⟨host', hStep, hHolds, -⟩ := teardown_holds lua alloc h
    exact ⟨host', hStep, hHolds⟩

theorem run_holds (h : Holds host store) (events : List LuaEvent) :
    ∃ host', luaRun lua alloc host events = some (host', (store.run lua events).2) ∧
      Holds host' (store.run lua events).1 := by
  induction events generalizing host store with
  | nil => exact ⟨host, rfl, h⟩
  | cons e rest ih =>
    obtain ⟨mid, hFirst, hMid⟩ := step_holds lua alloc h e
    obtain ⟨host', hRest, hHolds⟩ := ih hMid
    refine ⟨host', ?_, hHolds⟩
    rw [luaRun, hFirst, Option.bind_some]
    dsimp only
    rw [hRest]
    rfl

def Note.newId : Note → Option Int
  | .created id => some id
  | _ => none

def createdIds (notes : List Note) : List Int := notes.filterMap Note.newId

/-- The ids handed out between two counts: each is new, and greater than those before it. -/
structure Counts (first next : Int) (notes : List Note) : Prop where
  le : first ≤ next
  within : ∀ id ∈ createdIds notes, first ≤ id ∧ id < next
  increasing : (createdIds notes).Pairwise (· < ·)

variable {first mid next : Int} {notes more : List Note}

theorem counts_none (h : createdIds notes = []) : Counts first first notes := by
  refine ⟨Int.le_refl _, ?_, ?_⟩
  · rw [h]
    simp
  · rw [h]
    exact .nil

theorem Counts.append (h : Counts first mid notes) (h' : Counts mid next more) :
    Counts first next (notes ++ more) := by
  have hSplit : createdIds (notes ++ more) = createdIds notes ++ createdIds more :=
    List.filterMap_append
  refine ⟨Int.le_trans h.le h'.le, ?_, ?_⟩
  · rw [hSplit]
    intro id hId
    have hLow := h.le
    have hHigh := h'.le
    rcases List.mem_append.mp hId with hOld | hNew
    · have hWithin := h.within id hOld
      omega
    · have hWithin := h'.within id hNew
      omega
  · rw [hSplit]
    refine List.pairwise_append.mpr ⟨h.increasing, h'.increasing, fun a ha b hb => ?_⟩
    have hOld := h.within a ha
    have hNew := h'.within b hb
    omega

theorem counts_one (id : Int) : Counts id (id + 1) [.created id] := by
  have hIds : createdIds [.created id] = [id] := rfl
  refine ⟨by omega, ?_, ?_⟩
  · rw [hIds]
    intro other hOther
    rw [List.mem_singleton] at hOther
    omega
  · rw [hIds]
    exact List.pairwise_singleton _ _

theorem apply_counts (s : HookStore) (c : ApiCall) :
    Counts s.nextId (s.apply lua c).1.nextId [(s.apply lua c).2] := by
  cases c with
  | createAutocmd event callback =>
    rw [HookStore.apply, HookStore.create]
    split
    · exact counts_none rfl
    split
    · split
      · exact counts_none rfl
      split
      · exact counts_none rfl
      · exact counts_one s.nextId
    · exact counts_none rfl
  | clearAutocmds => exact counts_none rfl
  | registerTool args =>
    apply counts_none
    rw [HookStore.apply]
    cases (Tools.lMuaRegisterTool lua s.tools.registered s.tools.calls args).1 with
    | none => rfl
    | some err => rfl

theorem applyAll_counts (s : HookStore) (cs : List ApiCall) :
    Counts s.nextId (s.applyAll lua cs).1.nextId (s.applyAll lua cs).2 := by
  induction cs generalizing s with
  | nil => exact counts_none rfl
  | cons c rest ih => exact (apply_counts lua s c).append (ih _)

theorem call_counts (s : HookStore) (callback : Lua.Value) (body : Body) :
    Counts s.nextId (s.call lua callback body).1.nextId (s.call lua callback body).2.1 := by
  rw [HookStore.call]
  split
  · have hInvoked : Counts s.nextId s.nextId [.invoked callback] := counts_none rfl
    exact hInvoked.append (applyAll_counts lua s body.calls)
  · exact counts_none rfl

theorem fireFrom_counts (event : AutocmdEvent) (left i : Nat) (script : List Body) (s : HookStore) :
    Counts s.nextId (HookStore.fireFrom lua event left i script s).1.nextId
      (HookStore.fireFrom lua event left i script s).2 := by
  induction left generalizing i script s with
  | zero => exact counts_none rfl
  | succ left ih =>
    have hCall := call_counts lua s (s.callbackAt event i) (script.headD {})
    rw [HookStore.fireFrom]
    dsimp only
    split
    · exact hCall
    · exact hCall.append (ih _ _ _)

theorem step_counts (s : HookStore) (e : LuaEvent) :
    Counts s.nextId (s.step lua e).1.nextId (s.step lua e).2 := by
  cases e with
  | calls cs => exact applyAll_counts lua s cs
  | fire event room script =>
    rw [HookStore.step, HookStore.fire]
    split
    · exact fireFrom_counts lua event _ 0 script s
    · exact counts_none rfl
  | invokeTool name room body =>
    rw [HookStore.step, HookStore.invokeTool]
    split
    · exact counts_none rfl
    split
    · exact call_counts lua s _ body
    · exact counts_none rfl
  | teardown => exact counts_none rfl

theorem run_counts (s : HookStore) (events : List LuaEvent) :
    Counts s.nextId (s.run lua events).1.nextId (s.run lua events).2 := by
  induction events generalizing s with
  | nil => exact counts_none rfl
  | cons e rest ih => exact (step_counts lua s e).append (ih _)

def Note.called : Note → Option Lua.Value
  | .invoked callback => some callback
  | _ => none

def invocations (notes : List Note) : List Lua.Value := notes.filterMap Note.called

/-- The function neither clears the store nor ends the dispatch. -/
def Body.Quiet (event : AutocmdEvent) (body : Body) : Prop :=
  ApiCall.clearAutocmds ∉ body.calls ∧ halts event body.result = false

theorem apply_invokes (s : HookStore) (c : ApiCall) : (s.apply lua c).2.called = none := by
  cases c with
  | createAutocmd event callback =>
    rw [HookStore.apply, HookStore.create]
    split
    · rfl
    split
    · split
      · rfl
      · split <;> rfl
    · rfl
  | clearAutocmds => rfl
  | registerTool args =>
    rw [HookStore.apply]
    cases (Tools.lMuaRegisterTool lua s.tools.registered s.tools.calls args).1 <;> rfl

theorem apply_keeps (s : HookStore) {c : ApiCall} (hc : c ≠ .clearAutocmds) :
    s.hooks <+: (s.apply lua c).1.hooks := by
  cases c with
  | createAutocmd event callback =>
    rw [HookStore.apply, HookStore.create]
    split
    · exact List.prefix_rfl
    split
    · split
      · exact List.prefix_rfl
      split
      · exact List.prefix_rfl
      · exact List.prefix_append _ _
    · exact List.prefix_rfl
  | clearAutocmds => exact absurd rfl hc
  | registerTool args => exact List.prefix_rfl

theorem applyAll_quiet (s : HookStore) {cs : List ApiCall} (h : ApiCall.clearAutocmds ∉ cs) :
    s.hooks <+: (s.applyAll lua cs).1.hooks ∧ invocations (s.applyAll lua cs).2 = [] := by
  induction cs generalizing s with
  | nil => exact ⟨List.prefix_rfl, rfl⟩
  | cons c rest ih =>
    rw [List.mem_cons, not_or] at h
    obtain ⟨hRest, hNone⟩ := ih (s.apply lua c).1 h.2
    refine ⟨(apply_keeps lua s (Ne.symm h.1)).trans hRest, ?_⟩
    rw [HookStore.applyAll, invocations, List.filterMap_cons, apply_invokes]
    exact hNone

theorem call_quiet (s : HookStore) (callback : Lua.Value) {event : AutocmdEvent} {body : Body}
    (h : body.Quiet event) :
    s.hooks <+: (s.call lua callback body).1.hooks ∧
      invocations (s.call lua callback body).2.1 = [callback] ∧
      halts event (s.call lua callback body).2.2 = false := by
  rw [HookStore.call]
  split
  · obtain ⟨hPrefix, hNone⟩ := applyAll_quiet lua s h.1
    refine ⟨hPrefix, ?_, h.2⟩
    exact congrArg (callback :: ·) hNone
  · refine ⟨List.prefix_rfl, rfl, ?_⟩
    cases event <;> rfl

theorem fireFrom_quiet {hooks : List Hook} (left i : Nat) (script : List Body) (s : HookStore)
    (hQuiet : ∀ body ∈ script, body.Quiet event) (hPrefix : hooks <+: s.onEvent event)
    (hLength : i + left = hooks.length) :
    invocations (HookStore.fireFrom lua event left i script s).2 =
      (hooks.drop i).map Hook.callback := by
  induction left generalizing i script s with
  | zero =>
    rw [List.drop_of_length_le (by omega)]
    rfl
  | succ left ih =>
    have hLt : i < hooks.length := by omega
    have hHead : (script.headD {}).Quiet event := by
      cases script with
      | nil => exact ⟨List.not_mem_nil, by cases event <;> rfl⟩
      | cons body rest => exact hQuiet body List.mem_cons_self
    have hAt : s.callbackAt event i = hooks[i].callback := by
      obtain ⟨later, hLater⟩ := hPrefix
      rw [HookStore.callbackAt, ← hLater, List.getElem?_append_left hLt,
        List.getElem?_eq_getElem hLt]
      rfl
    obtain ⟨hGrows, hCalled, hOn⟩ := call_quiet lua s (s.callbackAt event i) hHead
    have hRest := ih (i + 1) script.tail (s.call lua (s.callbackAt event i) (script.headD {})).1
      (fun body hBody => hQuiet body (List.mem_of_mem_tail hBody))
      (hPrefix.trans (hGrows.filter _)) (by omega)
    rw [HookStore.fireFrom]
    dsimp only
    rw [if_neg (by rw [hOn]; exact Bool.false_ne_true), invocations, List.filterMap_append]
    change invocations _ ++ invocations _ = _
    rw [hCalled, hRest, hAt, List.drop_eq_getElem_cons hLt]
    rfl

theorem fire_quiet (s : HookStore) {script : List Body} (hQuiet : ∀ body ∈ script, body.Quiet event) :
    invocations (s.fire lua event true script).2 = (s.onEvent event).map Hook.callback :=
  fireFrom_quiet lua _ 0 script s hQuiet List.prefix_rfl (Nat.zero_add _)

/-- Whatever Lua code registers, clears and calls, and wherever it does so: every call is answered
as if the stores held the functions themselves, no reference is released that is not in use, and
those in use are the ones the two stores own. Ids go up and none comes twice. A dispatch with room
on the stack whose hooks neither clear nor end it calls those registered when it began, in order,
whatever they register; and a teardown leaves no reference. -/
theorem luaRun_refines (events : List LuaEvent) :
    ∃ host, luaRun lua alloc {} events = some (host, (HookStore.run lua {} events).2) ∧
      Table.Owned host.refs host.owned ∧ host.autocmds.length ≤ kMaxAutocmds ∧
      (createdIds (HookStore.run lua {} events).2).Pairwise (· < ·) ∧
      (∀ event script, (∀ body ∈ script, body.Quiet event) →
        ∃ host' notes, luaStep lua alloc host (.fire event true script) = some (host', notes) ∧
          invocations notes =
            ((HookStore.run lua {} events).1.onEvent event).map Hook.callback) ∧
      ∃ host', luaStep lua alloc host .teardown = some (host', []) ∧ host'.refs = ∅ := by
  obtain ⟨host, hRun, hHolds⟩ := run_holds lua alloc holds_empty events
  refine ⟨host, hRun, hHolds.owned, hHolds.bounded, (run_counts lua {} events).increasing, ?_, ?_⟩
  · intro event script hQuiet
    obtain ⟨host', hFire, -⟩ := step_holds lua alloc hHolds (.fire event true script)
    exact ⟨host', _, hFire, fire_quiet lua _ hQuiet⟩
  · obtain ⟨host', hStep, -, hEmpty⟩ := teardown_holds lua alloc hHolds
    exact ⟨host', hStep, hEmpty⟩

/-! Two hooks of one event; the first registers a third while it runs. -/

def nextFree : RefAllocator where
  pick t := (t.keys.sup Int.toNat : Nat) + 1
  fresh t hMem := by
    have hLe : ((t.keys.sup Int.toNat : Nat) + 1 : Int).toNat ≤ t.keys.sup Int.toNat :=
      Finset.le_sup (f := Int.toNat) (Finmap.mem_keys.mpr hMem)
    omega
  positive t := by omega

def hookOn (id : Nat) : ApiCall :=
  .createAutocmd (.string (ascii "ToolPost")) (.other .function id)

theorem luaRun_refines_sample :
    ∃ host, luaRun plainLua nextFree {} [.calls [hookOn 1, hookOn 2]] =
        some (host, [.created 1, .created 2]) ∧
      Table.Owned host.refs host.owned ∧ host.autocmds.length ≤ kMaxAutocmds ∧
      (createdIds [.created 1, .created 2]).Pairwise (· < ·) ∧
      (∃ host' notes, luaStep plainLua nextFree host (.fire .toolPost true [⟨[hookOn 3], none⟩]) =
          some (host', notes) ∧ invocations notes = [.other .function 1, .other .function 2]) ∧
      ∃ host', luaStep plainLua nextFree host .teardown = some (host', []) ∧ host'.refs = ∅ := by
  obtain ⟨host, hRun, hOwned, hBounded, hIds, hFire, hEnd⟩ :=
    luaRun_refines plainLua nextFree [.calls [hookOn 1, hookOn 2]]
  have hQuiet : ∀ body ∈ [Body.mk [hookOn 3] none], body.Quiet .toolPost := by
    intro body hBody
    rw [List.mem_singleton] at hBody
    subst hBody
    exact ⟨by simp [hookOn], rfl⟩
  exact ⟨host, hRun, hOwned, hBounded, hIds, hFire .toolPost _ hQuiet, hEnd⟩

end Mua.Autocmd
