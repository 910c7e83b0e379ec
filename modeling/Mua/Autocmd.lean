import Mua.ToolPre
import Mua.ToolRegistry
import Mua.Lib.References

/-! # The autocmd store

autocmd.c and the Lua functions that fill it. The store keeps references into the Lua registry;
so does the table of registered tools. Lua code runs when a hook or a tool is called, and may
itself register and clear: a dispatch counts the hooks of its event once, and then looks each up
by its place in the store as it is by then.
-/

namespace Mua.Autocmd

open Agent Tools References

def kMaxAutocmds : Nat := 256

inductive AutocmdEvent
  | sessionStart
  | sessionEnd
  | toolPre
  | toolPost
  | streamDelta
  | userPromptPre
  deriving DecidableEq, Repr

def eventNames : List (AutocmdEvent × Bytes) :=
  [(.sessionStart, ascii "SessionStart"), (.sessionEnd, ascii "SessionEnd"),
    (.toolPre, ascii "ToolPre"), (.toolPost, ascii "ToolPost"),
    (.streamDelta, ascii "StreamDelta"), (.userPromptPre, ascii "UserPromptPre")]

def autocmdEventFromName (name : Bytes) : Option AutocmdEvent :=
  (eventNames.find? fun entry => entry.2 = name).map Prod.fst

structure RefAllocator extends Allocator Int Lua.Value where
  positive : ∀ t, 0 < pick t

structure AutocmdEntry where
  id : Int
  event : AutocmdEvent
  callback : Int
  deriving DecidableEq, Repr

/-- The references of the Lua registry, and the two stores that own them. `toolRefs` are the
callbacks of the registered tools. -/
structure LuaHost where
  refs : Table Int Lua.Value := ∅
  autocmds : List AutocmdEntry := []
  nextId : Int := 1
  tools : ToolRegistry := {}
  toolRefs : List Int := []

/-- `%.*s` of a counted string: its length is cast to an int. -/
def counted (s : Bytes) : Bytes :=
  let precision := (Int32.ofNat s.length).toInt
  if precision < 0 then cstr s else cstr (s.take precision.toNat)

def tooManyAutocmds : Error :=
  ⟨.validation, ascii "too many autocmds (max " ++ decimal kMaxAutocmds ++ ascii ")"⟩

def unknownEvent (event : Bytes) : Error :=
  ⟨.validation, ascii "unknown autocmd event: " ++ counted event⟩

def autocmdCreate (host : LuaHost) (event : AutocmdEvent) (callback : Int) :
    Except Error Int × LuaHost :=
  if kMaxAutocmds ≤ host.autocmds.length then (.error tooManyAutocmds, host)
  else
    (.ok host.nextId, { host with
      autocmds := host.autocmds ++ [⟨host.nextId, event, callback⟩]
      nextId := host.nextId + 1 })

def autocmdCount (entries : List AutocmdEntry) (event : AutocmdEvent) : Nat :=
  entries.countP fun entry => entry.event = event

/-- The loop of `autocmd_ref_at`, behind `n` entries of the event. -/
def refAtFrom (event : AutocmdEvent) (idx n : Nat) : List AutocmdEntry → Int
  | [] => -1
  | entry :: rest =>
    if entry.event = event then
      if n = idx then entry.callback else refAtFrom event idx (n + 1) rest
    else refAtFrom event idx n rest

def autocmdRefAt (entries : List AutocmdEntry) (event : AutocmdEvent) (idx : Nat) : Int :=
  refAtFrom event idx 0 entries

/-- None where a reference is released that is not in use. -/
def autocmdClear (host : LuaHost) : Option LuaHost :=
  (host.refs.releaseAll (host.autocmds.map AutocmdEntry.callback)).map fun refs =>
    { host with refs, autocmds := [] }

def toolsTeardown (host : LuaHost) : Option LuaHost :=
  (host.refs.releaseAll host.toolRefs).map fun refs =>
    { host with refs, tools := Tools.toolsTeardown host.tools, toolRefs := [] }

def muaCreateAutocmd (host : LuaHost) (event : Bytes) (callback : Int) :
    Except Error Int × LuaHost :=
  match autocmdEventFromName event with
  | none => (.error (unknownEvent event), host)
  | some resolved => autocmdCreate host resolved callback

/-- What a call from Lua, or a call of Lua, comes to. -/
inductive Note
  | created (id : Int)
  | raised (err : RegisterError)
  | registered
  | cleared
  /-- What `lua_pcall` was given; nil cannot be called. -/
  | invoked (callback : Lua.Value)
  deriving DecidableEq

variable (lua : LuaLib) (alloc : RefAllocator)

def lMuaCreateAutocmd (host : LuaHost) (event callback : Lua.Value) : Option (LuaHost × Note) :=
  match toLString lua event with
  | none => some (host, .raised (.argument 1))
  | some name =>
    if isFunction callback then
      let ref := alloc.pick host.refs
      let host := { host with refs := host.refs.make alloc.toAllocator callback }
      match muaCreateAutocmd host name ref with
      | (.error err, host) =>
        (host.refs.release ref).map fun refs => ({ host with refs }, .raised (.api err))
      | (.ok id, host) => some (host, .created id)
    else some (host, .raised (.argument 2))

def lMuaClearAutocmds (host : LuaHost) : Option (LuaHost × Note) :=
  (autocmdClear host).map fun host => (host, .cleared)

/-- The registration of a tool; its ledger tells whether the callback was referenced, and whether
the reference was given back. -/
def lMuaRegisterTool (host : LuaHost) (args : RegisterArgs) : Option (LuaHost × Note) :=
  let (raised, reg) := Tools.lMuaRegisterTool lua host.tools.registered host.tools.calls args
  let note := raised.elim Note.registered Note.raised
  let ref := alloc.pick host.refs
  let host := { host with tools := registerTool lua host.tools args }
  if ToolPart.callback ∈ reg.ledger.made then
    let host := { host with refs := host.refs.make alloc.toAllocator args.callback }
    if ToolPart.callback ∈ reg.ledger.freed then
      (host.refs.release ref).map fun refs => ({ host with refs }, note)
    else some ({ host with toolRefs := host.toolRefs ++ [ref] }, note)
  else some (host, note)

inductive ApiCall
  | createAutocmd (event callback : Lua.Value)
  | clearAutocmds
  | registerTool (args : RegisterArgs)

def apiCall (host : LuaHost) : ApiCall → Option (LuaHost × Note)
  | .createAutocmd event callback => lMuaCreateAutocmd lua alloc host event callback
  | .clearAutocmds => lMuaClearAutocmds host
  | .registerTool args => lMuaRegisterTool lua alloc host args

def apiCalls (host : LuaHost) : List ApiCall → Option (LuaHost × List Note)
  | [] => some (host, [])
  | c :: rest => (apiCall lua alloc host c).bind fun (host, note) =>
    (apiCalls host rest).map fun (host, notes) => (host, note :: notes)

/-- What a function does when it is called: its calls of the API, and what it returns; none is a
throw. -/
structure Body where
  calls : List ApiCall := []
  result : Option (HookReturn Unit) := none

/-- `lua_rawgeti` and `lua_pcall`. -/
def pcallRef (host : LuaHost) (ref : Int) (body : Body) :
    Option (LuaHost × List Note × Option (HookReturn Unit)) :=
  let callback := (host.refs.lookup ref).getD .nil
  if isFunction callback then
    (apiCalls lua alloc host body.calls).map fun (host, notes) =>
      (host, .invoked callback :: notes, body.result)
  else some (host, [.invoked callback], none)

/-- What ends a dispatch before its last hook: a veto, or a prompt that is swallowed. -/
def halts : AutocmdEvent → Option (HookReturn Unit) → Bool
  | .toolPre, some (.string _) => true
  | .toolPre, some (.boolean false) => true
  | .userPromptPre, some (.boolean false) => true
  | _, _ => false

/-- The dispatch loop, with so many hooks to go from `i` on. -/
def fireLoop (event : AutocmdEvent) : Nat → Nat → List Body → LuaHost →
    Option (LuaHost × List Note)
  | 0, _, _, host => some (host, [])
  | left + 1, i, script, host =>
    (pcallRef lua alloc host (autocmdRefAt host.autocmds event i) (script.headD {})).bind
      fun (host, notes, result) =>
        if halts event result then some (host, notes)
        else
          (fireLoop event left (i + 1) script.tail host).map fun (host, more) =>
            (host, notes ++ more)

/-- `room` is what `lua_checkstack` answers: without it no hook is called. -/
def autocmdFire (host : LuaHost) (event : AutocmdEvent) (room : Bool) (script : List Body) :
    Option (LuaHost × List Note) :=
  if room then fireLoop lua alloc event (autocmdCount host.autocmds event) 0 script host
  else some (host, [])

/-- A call of a tool by its name: for a registered one, `mua_lua_tool_invoke`. Without room on the
stack for the callback and its arguments, or where these cannot be marshalled, nothing is called. -/
def invokeTool (host : LuaHost) (name : Bytes) (room : Bool) (body : Body) :
    Option (LuaHost × List Note) :=
  if (toolDefs.find? fun entry => entry.name = name).isSome then some (host, [])
  else
    match host.tools.registered.findIdx? fun tool => tool.name = name with
    | none => some (host, [])
    | some i =>
      if room then
        (pcallRef lua alloc host ((host.toolRefs[i]?).getD (-1)) body).map fun (host, notes, _) =>
          (host, notes)
      else some (host, [])

inductive LuaEvent
  | calls (cs : List ApiCall)
  | fire (event : AutocmdEvent) (room : Bool) (script : List Body)
  | invokeTool (name : Bytes) (room : Bool) (body : Body)
  /-- The end of `run`, before the Lua state goes. -/
  | teardown

def luaStep (host : LuaHost) : LuaEvent → Option (LuaHost × List Note)
  | .calls cs => apiCalls lua alloc host cs
  | .fire event room script => autocmdFire lua alloc host event room script
  | .invokeTool name room body => Autocmd.invokeTool lua alloc host name room body
  | .teardown => (toolsTeardown host).bind fun host => (autocmdClear host).map fun host => (host, [])

def luaRun (host : LuaHost) : List LuaEvent → Option (LuaHost × List Note)
  | [] => some (host, [])
  | e :: rest => (luaStep lua alloc host e).bind fun (host, notes) =>
    (luaRun host rest).map fun (host, more) => (host, notes ++ more)

end Mua.Autocmd
