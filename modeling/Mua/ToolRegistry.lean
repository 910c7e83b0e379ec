import Mua.Agent
import Mua.LuaObject
import Mua.Marshal
import Mua.Lib.Ledger

/-! # The tool registry

Four built-in tools, and behind them what `mua_register_tool` adds from Lua. A call
goes through the bridge, the API and the registry; what it makes on its way (the arena
of the schema, the callback's reference, the schema tree, the copies of the name and the
description) stands in a ledger of its own, and belongs to the new tool or is given
back. A name comes as a counted string and is kept as a C string.
-/

namespace Mua.Tools

open Agent

def kMaxRegisteredTools : Nat := 256

def kToolSchemaCap : Nat := 16 * 1024

inductive ToolExecute
  | readExecute
  | writeExecute
  | editExecute
  | bashExecute
  | registeredToolExecute
  deriving DecidableEq, Repr

/-- A text for a built-in tool, a tree that is owned for a registered one. -/
inductive ToolSchema
  | paramsSchema (text : Bytes)
  | schemaJson (tree : CJson)

/-- What `tools_lookup` gives a pointer to. -/
structure ToolEntry extends ToolDef where
  description : Bytes
  schema : ToolSchema
  execute : ToolExecute
  callback : Option Lua.Value

def readSchema : Bytes :=
  ascii "\x7b\"type\":\"object\",\"properties\":\x7b\"path\":\x7b\"type\":\"string\",\"description\":\"File path to read\"\x7d,\"offset\":\x7b\"type\":\"integer\",\"description\":\"1-based line to start from (default 1)\"\x7d,\"limit\":\x7b\"type\":\"integer\",\"description\":\"Maximum number of lines to return\"\x7d\x7d,\"required\":[\"path\"]\x7d"

def writeSchema : Bytes :=
  ascii "\x7b\"type\":\"object\",\"properties\":\x7b\"path\":\x7b\"type\":\"string\",\"description\":\"File path to write\"\x7d,\"content\":\x7b\"type\":\"string\",\"description\":\"Full file contents to write\"\x7d\x7d,\"required\":[\"path\",\"content\"]\x7d"

def editSchema : Bytes :=
  ascii "\x7b\"type\":\"object\",\"properties\":\x7b\"path\":\x7b\"type\":\"string\",\"description\":\"File path to edit\"\x7d,\"old_string\":\x7b\"type\":\"string\",\"description\":\"Exact text to replace; must occur exactly once\"\x7d,\"new_string\":\x7b\"type\":\"string\",\"description\":\"Replacement text\"\x7d\x7d,\"required\":[\"path\",\"old_string\",\"new_string\"]\x7d"

def bashSchema : Bytes :=
  ascii "\x7b\"type\":\"object\",\"properties\":\x7b\"command\":\x7b\"type\":\"string\",\"description\":\"Shell command run via /bin/sh -c\"\x7d,\"timeout_ms\":\x7b\"type\":\"integer\",\"description\":\"Kill the command after this many milliseconds (default 30000, max 120000)\"\x7d\x7d,\"required\":[\"command\"]\x7d"

def builtin (name description schema : Bytes) (mutating : Bool) (execute : ToolExecute) :
    ToolEntry where
  name
  mutating
  description
  schema := .paramsSchema schema
  execute
  callback := none

def toolDefs : List ToolEntry :=
  [builtin (ascii "read")
      (ascii "Read a file from disk. Returns the raw contents of the requested line window, without line-number prefixes.")
      readSchema false .readExecute,
    builtin (ascii "write")
      (ascii "Write content to a file, creating it and any missing parent directories; replaces any existing contents entirely.")
      writeSchema true .writeExecute,
    builtin (ascii "edit")
      (ascii "Replace one exact occurrence of old_string with new_string in a file. Fails unless old_string occurs exactly once; include enough surrounding context to make it unique.")
      editSchema true .editExecute,
    builtin (ascii "bash")
      (ascii "Run a shell command with stdout and stderr merged into one stream. Output is capped at 64 KiB; the command is killed after timeout_ms (default 30 s, max 120 s). stdin is /dev/null.")
      bashSchema true .bashExecute]

inductive ToolPart
  | arena
  | callback
  | schema
  | name
  | description
  deriving DecidableEq, Repr

/-- An entry of `g_registered`, and which call made its parts. -/
structure RegisteredTool extends ToolEntry where
  call : Nat

def RegisteredTool.parts (tool : RegisteredTool) : List (Nat × ToolPart) :=
  [.name, .description, .schema, .callback].map fun part => (tool.call, part)

structure Registration where
  registered : List RegisteredTool
  ledger : Ledger ToolPart := {}

def Registration.make (reg : Registration) (part : ToolPart) : Registration :=
  { reg with ledger := reg.ledger.make part }

def Registration.free (reg : Registration) (part : ToolPart) : Registration :=
  { reg with ledger := reg.ledger.free part }

def advertised (registered : List RegisteredTool) : List ToolEntry :=
  toolDefs ++ registered.map RegisteredTool.toToolEntry

def toolsLookup (registered : List RegisteredTool) : Option Bytes → Option ToolEntry
  | none => none
  | some name =>
    match toolDefs.find? fun entry => entry.name = name with
    | some entry => some entry
    | none =>
      (registered.find? fun tool => tool.name = name).map RegisteredTool.toToolEntry

def toolsRegister (reg : Registration) (call : Nat) (name description : Bytes) (schema : CJson)
    (mutating : Bool) (callback : Lua.Value) : Option Error × Registration :=
  if name = [] then (some ⟨.validation, ascii "tool name is required"⟩, reg)
  else
    let nameZ := cstr name
    let reg := reg.make .name
    if (toolsLookup reg.registered (some nameZ)).isSome then
      (some ⟨.validation, ascii "tool '" ++ nameZ ++ ascii "' is already registered"⟩,
        reg.free .name)
    else if kMaxRegisteredTools ≤ reg.registered.length then
      (some ⟨.validation, ascii "too many registered tools (max " ++ decimal kMaxRegisteredTools ++
        ascii ")"⟩, reg.free .name)
    else
      let reg := reg.make .description
      let tool : RegisteredTool :=
        { name := nameZ
          mutating
          description := cstr description
          schema := .schemaJson schema
          execute := .registeredToolExecute
          callback := some callback
          call }
      (none, { reg with registered := reg.registered ++ [tool] })

def tableRequired : Error := ⟨.validation, ascii "tool schema must be a table"⟩

def schemaTree : Object → Except Error CJson
  | .nil => .ok ((jsonAddCstr jsonNewObj (ascii "type") (ascii "object")).addItem
      (ascii "properties") jsonNewObj)
  | .dict items => .ok (objectToCJson (.dict items))
  | _ => .error tableRequired

def muaRegisterTool (reg : Registration) (call : Nat) (name description : Bytes) (schema : Object)
    (mutating : Bool) (callback : Lua.Value) : Option Error × Registration :=
  match schemaTree schema with
  | .error err => (some err, reg)
  | .ok tree =>
    match toolsRegister (reg.make .schema) call name description tree mutating callback with
    | (some err, reg) => (some err, reg.free .schema)
    | (none, reg) => (none, reg)

/-- What the model takes from the VM: numbers as texts, and casts out of range. -/
structure LuaLib where
  numberText : Double → Bytes
  castOutside : Double → Int64

def toLString (lua : LuaLib) : Lua.Value → Option Bytes
  | .string s => some s
  | .number d => some (lua.numberText d)
  | _ => none

def optString (lua : LuaLib) (fallback : Bytes) : Lua.Value → Option Bytes
  | .nil => some fallback
  | value => toLString lua value

def isFunction : Lua.Value → Bool
  | .other .function _ => true
  | _ => false

def mutatingArg : Lua.Value → Bool
  | .boolean b => b
  | _ => true

/-- The schema as an Object, with room on the Lua stack for `lua_pop_object`. -/
def schemaArg (lua : LuaLib) (heap : Lua.Heap) : Lua.Value → Except Error Object
  | .nil => .ok .nil
  | value => Lua.luaPopObject lua.castOutside heap value

/-- The arguments of a call, nil where there is none, over the tables they are made of. -/
structure RegisterArgs where
  heap : Lua.Heap
  name : Lua.Value
  description : Lua.Value
  schema : Lua.Value
  mutating : Lua.Value
  callback : Lua.Value

/-- What is raised: by Lua's own check of an argument, or with the text of an error. -/
inductive RegisterError
  | argument (index : Nat)
  | api (err : Error)
  deriving DecidableEq, Repr

def lMuaRegisterTool (lua : LuaLib) (registered : List RegisteredTool) (call : Nat)
    (args : RegisterArgs) : Option RegisterError × Registration :=
  let reg : Registration := { registered }
  match toLString lua args.name with
  | none => (some (.argument 1), reg)
  | some name =>
    match optString lua [] args.description with
    | none => (some (.argument 2), reg)
    | some description =>
      if isFunction args.callback then
        let reg := reg.make .arena
        match schemaArg lua args.heap args.schema with
        | .error err => (some (.api err), reg.free .arena)
        | .ok schema =>
          let reg := reg.make .callback
          match muaRegisterTool reg call name description schema (mutatingArg args.mutating)
            args.callback with
          | (some err, reg) => (some (.api err), (reg.free .arena).free .callback)
          | (none, reg) => (none, reg.free .arena)
      else (some (.argument 5), reg)

def buildToolEntry (name description : Bytes) (params : CJson) : CJson :=
  let function := jsonAddCstr (jsonAddCstr jsonNewObj (ascii "name") name) (ascii "description")
    description
  (jsonAddCstr jsonNewObj (ascii "type") (ascii "function")).addItem (ascii "function")
    (function.addItem (ascii "parameters") params)

def toolParams (lib : JsonLib) (entry : ToolEntry) : Except Error CJson :=
  match entry.schema with
  | .paramsSchema text =>
    (jsonParse lib text kToolSchemaCap).mapError fun perr =>
      ⟨.exception, ascii "tools: " ++ entry.name ++ ascii " has an invalid schema: " ++ perr.msg⟩
  | .schemaJson tree => .ok tree

def addToolEntries (lib : JsonLib) (items : List CJson) : List ToolEntry → Except Error (List CJson)
  | [] => .ok items
  | entry :: rest =>
    (toolParams lib entry).bind fun params =>
      addToolEntries lib (items ++ [buildToolEntry entry.name entry.description params]) rest

def toolsBuildOpenaiArray (lib : JsonLib) (registered : List RegisteredTool) :
    Except Error CJson :=
  (addToolEntries lib [] toolDefs).bind fun items =>
    (addToolEntries lib items (registered.map RegisteredTool.toToolEntry)).map .array

structure ToolRegistry where
  registered : List RegisteredTool := []
  calls : Nat := 0
  ledger : Ledger (Nat × ToolPart) := {}

def registerTool (lua : LuaLib) (s : ToolRegistry) (args : RegisterArgs) : ToolRegistry :=
  let reg := (lMuaRegisterTool lua s.registered s.calls args).2
  ⟨reg.registered, s.calls + 1, s.ledger.enter (fun part => (s.calls, part)) reg.ledger⟩

def toolsTeardown (s : ToolRegistry) : ToolRegistry :=
  { s with registered := [], ledger := s.ledger.freeAll (s.registered.flatMap RegisteredTool.parts) }

inductive RegistryEvent
  | register (args : RegisterArgs)
  | teardown

def registryStep (lua : LuaLib) (s : ToolRegistry) : RegistryEvent → ToolRegistry
  | .register args => registerTool lua s args
  | .teardown => toolsTeardown s

def registryRun (lua : LuaLib) (events : List RegistryEvent) : ToolRegistry :=
  events.foldl (registryStep lua) {}

section

variable {registered : List RegisteredTool} {name : Bytes} {entry : ToolEntry}

theorem toolsLookup_eq_find :
    toolsLookup registered (some name) =
      (advertised registered).find? fun entry => entry.name = name := by
  rw [toolsLookup, advertised, List.find?_append, List.find?_map]
  cases toolDefs.find? fun entry => decide (entry.name = name) with
  | none => rfl
  | some entry => rfl

theorem toolsLookup_eq_none :
    toolsLookup registered (some name) = none ↔
      name ∉ (advertised registered).map fun entry => entry.name := by
  rw [toolsLookup_eq_find, List.find?_eq_none, List.mem_map]
  simp only [decide_eq_true_eq, not_exists, not_and]

theorem toolsLookup_of_mem (hNames : ((advertised registered).map fun entry => entry.name).Nodup)
    (hMem : entry ∈ advertised registered) :
    toolsLookup registered (some entry.name) = some entry := by
  rw [toolsLookup_eq_find]
  cases hFind : (advertised registered).find? fun other => decide (other.name = entry.name) with
  | none =>
    have hNone := List.find?_eq_none.mp hFind entry hMem
    simp at hNone
  | some other =>
    have hOther := List.mem_of_find?_eq_some hFind
    have hName : other.name = entry.name := by simpa using List.find?_some hFind
    rw [List.inj_on_of_nodup_map hNames hOther hMem hName]

theorem advertised_append (tool : RegisteredTool) :
    advertised (registered ++ [tool]) = advertised registered ++ [tool.toToolEntry] := by
  rw [advertised, advertised, List.map_append, List.append_assoc]
  rfl

theorem builtins_nodup : (toolDefs.map fun entry => entry.name).Nodup := by decide +kernel

theorem builtins_named : ∀ entry ∈ toolDefs, entry.name ≠ [] := by decide +kernel

end

variable {lua : LuaLib} {registered : List RegisteredTool} {call : Nat} {args : RegisterArgs}

inductive Entered (reg : Registration) (call : Nat) (name : Bytes) (tree : CJson) :
    Option Error × Registration → Prop
  | unnamed (hName : name = []) (err : Error) : Entered reg call name tree (some err, reg)
  | refused (hName : name ≠ [])
      (hRefused : toolsLookup reg.registered (some (cstr name)) ≠ none ∨
        kMaxRegisteredTools ≤ reg.registered.length) (err : Error) :
    Entered reg call name tree (some err, (reg.make .name).free .name)
  | entered (hName : name ≠ []) (hNew : toolsLookup reg.registered (some (cstr name)) = none)
      (hRoom : reg.registered.length < kMaxRegisteredTools) {tool : RegisteredTool}
      (hTool : tool.name = cstr name) (hCall : tool.call = call)
      (hSchema : tool.schema = .schemaJson tree) :
    Entered reg call name tree
      (none, { (reg.make .name).make .description with registered := reg.registered ++ [tool] })

theorem toolsRegister_cases (reg : Registration) (name description : Bytes) (tree : CJson)
    (mutating : Bool) (callback : Lua.Value) :
    Entered reg call name tree
      (toolsRegister reg call name description tree mutating callback) := by
  rw [toolsRegister]
  split
  · rename_i hName
    exact .unnamed hName _
  rename_i hName
  dsimp only
  split
  · rename_i hLookup
    have hTaken : toolsLookup reg.registered (some (cstr name)) ≠ none :=
      Option.ne_none_iff_isSome.mpr hLookup
    exact .refused hName (.inl hTaken) _
  rename_i hLookup
  split
  · rename_i hFull
    have hFull : kMaxRegisteredTools ≤ reg.registered.length := hFull
    exact .refused hName (.inr hFull) _
  · rename_i hRoom
    have hNew : toolsLookup reg.registered (some (cstr name)) = none :=
      Option.not_isSome_iff_eq_none.mp hLookup
    have hRoom : reg.registered.length < kMaxRegisteredTools := Nat.lt_of_not_le hRoom
    refine .entered hName hNew hRoom ?_ ?_ ?_
    · rfl
    · rfl
    · rfl

theorem schemaTree_error {schema : Object} {err : Error} (h : schemaTree schema = .error err) :
    err = tableRequired := by
  cases schema with
  | nil => cases h
  | dict items => cases h
  | _ =>
    injection h with h
    exact h.symm

/-- The arguments of a call that comes to `tools_register`, with room on the stack for its
schema. -/
structure WellTyped (lua : LuaLib) (args : RegisterArgs) (name : Bytes) (tree : CJson) : Prop where
  name_eq : toLString lua args.name = some name
  description_some : ∃ description, optString lua [] args.description = some description
  callback_function : isFunction args.callback = true
  tree_eq : (schemaArg lua args.heap args.schema).bind schemaTree = .ok tree

theorem WellTyped.name_unique {name other : Bytes} {tree tree' : CJson}
    (h : WellTyped lua args name tree) (h' : WellTyped lua args other tree') : name = other :=
  Option.some.inj (h.name_eq.symm.trans h'.name_eq)

/-- What a call comes to: what it raises, the table after it, and all it makes and frees. -/
inductive Registers (lua : LuaLib) (registered : List RegisteredTool) (call : Nat)
    (args : RegisterArgs) :
    Option RegisterError → List RegisteredTool → Ledger ToolPart → Prop
  | badArgument (hArgs : ∀ name tree, ¬WellTyped lua args name tree) (index : Nat) :
    Registers lua registered call args (some (.argument index)) registered {}
  | unmarshaled (hArgs : ∀ name tree, ¬WellTyped lua args name tree) (err : Error) :
    Registers lua registered call args (some (.api err)) registered ⟨[.arena], [.arena]⟩
  | notTable (hArgs : ∀ name tree, ¬WellTyped lua args name tree) :
    Registers lua registered call args (some (.api tableRequired)) registered
      ⟨[.arena, .callback], [.arena, .callback]⟩
  | unnamed {tree : CJson} (hArgs : WellTyped lua args [] tree) (err : Error) :
    Registers lua registered call args (some (.api err)) registered
      ⟨[.arena, .callback, .schema], [.schema, .arena, .callback]⟩
  | refused {name : Bytes} {tree : CJson} (hArgs : WellTyped lua args name tree) (hName : name ≠ [])
      (hRefused : toolsLookup registered (some (cstr name)) ≠ none ∨
        kMaxRegisteredTools ≤ registered.length) (err : Error) :
    Registers lua registered call args (some (.api err)) registered
      ⟨[.arena, .callback, .schema, .name], [.name, .schema, .arena, .callback]⟩
  | accepted {name : Bytes} {tree : CJson} (hArgs : WellTyped lua args name tree)
      (hName : name ≠ []) (hNew : toolsLookup registered (some (cstr name)) = none)
      (hRoom : registered.length < kMaxRegisteredTools) {tool : RegisteredTool}
      (hTool : tool.name = cstr name) (hCall : tool.call = call)
      (hSchema : tool.schema = .schemaJson tree) :
    Registers lua registered call args none (registered ++ [tool])
      ⟨[.arena, .callback, .schema, .name, .description], [.arena]⟩

theorem lMuaRegisterTool_cases (lua : LuaLib) (registered : List RegisteredTool) (call : Nat)
    (args : RegisterArgs) :
    Registers lua registered call args (lMuaRegisterTool lua registered call args).1
      (lMuaRegisterTool lua registered call args).2.registered
      (lMuaRegisterTool lua registered call args).2.ledger := by
  rw [lMuaRegisterTool]
  dsimp only
  cases hName : toLString lua args.name with
  | none =>
    refine .badArgument (fun name tree h => ?_) 1
    rw [h.name_eq] at hName
    cases hName
  | some name =>
  cases hDescription : optString lua [] args.description with
  | none =>
    refine .badArgument (fun name tree h => ?_) 2
    obtain ⟨description, hSome⟩ := h.description_some
    rw [hSome] at hDescription
    cases hDescription
  | some description =>
  dsimp only
  split
  · rename_i hCallback
    cases hSchema : schemaArg lua args.heap args.schema with
    | error err =>
      refine .unmarshaled (fun name tree h => ?_) err
      have hTree := h.tree_eq
      rw [hSchema] at hTree
      cases hTree
    | ok schema =>
    dsimp only
    rw [muaRegisterTool]
    cases hTree : schemaTree schema with
    | error err =>
      obtain rfl := schemaTree_error hTree
      refine .notTable fun name tree h => ?_
      have hTree' := h.tree_eq
      rw [hSchema] at hTree'
      cases hTree.symm.trans hTree'
    | ok tree =>
    have hArgs : WellTyped lua args name tree :=
      ⟨hName, ⟨_, hDescription⟩, hCallback, by rw [hSchema]; exact hTree⟩
    have hEntered : Entered _ call _ _ _ := toolsRegister_cases
      (((Registration.make { registered } .arena).make .callback).make .schema) name description
      tree (mutatingArg args.mutating) args.callback
    dsimp only
    generalize toolsRegister _ call name description tree _ _ = answer at hEntered
    cases hEntered with
    | unnamed hNil err =>
      subst hNil
      exact .unnamed hArgs err
    | refused hNil hRefused err => exact .refused hArgs hNil hRefused err
    | entered hNil hNew hRoom hTool hCall hSchema =>
      exact .accepted hArgs hNil hNew hRoom hTool hCall hSchema
  · rename_i hCallback
    exact .badArgument (fun name tree h => hCallback h.callback_function) 5

def handedOver : List ToolPart := [.name, .description, .schema, .callback]

section

variable {raised : Option RegisterError} {registered' : List RegisteredTool}
  {ledger : Ledger ToolPart}

theorem Registers.balanced (h : Registers lua registered call args raised registered' ledger) :
    (registered' = registered ∧ ledger.Balanced []) ∨
      ∃ tool : RegisteredTool, registered' = registered ++ [tool] ∧ tool.call = call ∧
        ledger.Balanced handedOver := by
  cases h with
  | badArgument => exact .inl ⟨rfl, Ledger.balanced_empty⟩
  | unmarshaled => exact .inl ⟨rfl, by decide⟩
  | notTable => exact .inl ⟨rfl, by decide⟩
  | unnamed => exact .inl ⟨rfl, by decide⟩
  | refused => exact .inl ⟨rfl, by decide⟩
  | accepted _ _ _ _ _ hCall => exact .inr ⟨_, rfl, hCall, by decide⟩

theorem Registers.advertised_nodup
    (h : Registers lua registered call args raised registered' ledger)
    (hNames : ((advertised registered).map fun entry => entry.name).Nodup) :
    ((advertised registered').map fun entry => entry.name).Nodup := by
  cases h with
  | accepted _ _ hNew _ hTool =>
    rw [toolsLookup_eq_none, ← hTool] at hNew
    rw [advertised_append, List.map_append, List.nodup_append']
    refine ⟨hNames, List.nodup_singleton _, ?_⟩
    rw [List.map_singleton, List.disjoint_singleton]
    exact hNew
  | _ => exact hNames

theorem Registers.bounded (h : Registers lua registered call args raised registered' ledger)
    (hBound : registered.length ≤ kMaxRegisteredTools) :
    registered'.length ≤ kMaxRegisteredTools := by
  cases h with
  | accepted _ _ _ hRoom =>
    rw [List.length_append]
    exact hRoom
  | _ => exact hBound

theorem Registers.refused_table
    (h : Registers lua registered call args raised registered' ledger) (hRaised : raised.isSome) :
    registered' = registered := by
  cases h with
  | accepted => cases hRaised
  | _ => rfl

theorem Registers.made_both (h : Registers lua registered call args raised registered' ledger)
    {name : Bytes} {tree : CJson} (hArgs : WellTyped lua args name tree) :
    .callback ∈ ledger.made ∧ .schema ∈ ledger.made := by
  cases h with
  | badArgument hNone => exact absurd hArgs (hNone name tree)
  | unmarshaled hNone => exact absurd hArgs (hNone name tree)
  | notTable hNone => exact absurd hArgs (hNone name tree)
  | unnamed => decide
  | refused => decide
  | accepted => decide

def OwnTrees (registered : List RegisteredTool) : Prop :=
  ∀ tool ∈ registered, ∃ tree, tool.schema = .schemaJson tree

theorem Registers.ownTrees (h : Registers lua registered call args raised registered' ledger)
    (hTrees : OwnTrees registered) : OwnTrees registered' := by
  cases h with
  | accepted _ _ _ _ _ _ hSchema =>
    intro other hOther
    rcases List.mem_append.mp hOther with hOld | hNew
    · exact hTrees other hOld
    · rw [List.mem_singleton.mp hNew]
      exact ⟨_, hSchema⟩
  | _ => exact hTrees

end

/-- The invariant: names differ, and what is not freed belongs to a registered tool. -/
structure RegistryInv (s : ToolRegistry) : Prop where
  distinct : ((advertised s.registered).map fun entry => entry.name).Nodup
  bounded : s.registered.length ≤ kMaxRegisteredTools
  trees : OwnTrees s.registered
  balanced : s.ledger.Balanced (s.registered.flatMap RegisteredTool.parts)
  past : ∀ part ∈ s.ledger.made, part.1 < s.calls

variable {s : ToolRegistry}

theorem registryInv_init : RegistryInv {} :=
  ⟨by decide +kernel, by decide, nofun, Ledger.balanced_empty, nofun⟩

theorem RegistryInv.after_register (h : RegistryInv s) (args : RegisterArgs) :
    RegistryInv (registerTool lua s args) := by
  have hCases := lMuaRegisterTool_cases lua s.registered s.calls args
  have hNew : ∀ part : ToolPart, (s.calls, part) ∉ s.ledger.made :=
    fun part hMade => Nat.lt_irrefl _ (h.past _ hMade)
  have hInj : Function.Injective fun part : ToolPart => (s.calls, part) := by
    intro a b hEq
    exact congrArg Prod.snd hEq
  refine ⟨hCases.advertised_nodup h.distinct, hCases.bounded h.bounded, hCases.ownTrees h.trees,
    ?_, ?_⟩
  · rw [registerTool]
    rcases hCases.balanced with ⟨hSame, hLedger⟩ | ⟨tool, hMore, hCall, hLedger⟩
    · have hEnter := h.balanced.enter hLedger hInj hNew
      rw [List.map_nil, List.append_nil] at hEnter
      rw [hSame]
      exact hEnter
    · have hEnter := h.balanced.enter hLedger hInj hNew
      rw [hMore, List.flatMap_append, List.flatMap_singleton, RegisteredTool.parts, hCall]
      exact hEnter
  · intro part hPart
    rcases List.mem_append.mp hPart with hOld | hMap
    · exact Nat.lt_succ_of_lt (h.past part hOld)
    · obtain ⟨a, -, rfl⟩ := List.mem_map.mp hMap
      exact Nat.lt_succ_self _

theorem RegistryInv.after_teardown (h : RegistryInv s) : RegistryInv (toolsTeardown s) where
  distinct := builtins_nodup
  bounded := Nat.zero_le _
  trees := nofun
  balanced := Ledger.Balanced.freeAll (by simpa [toolsTeardown] using h.balanced)
  past := h.past

theorem RegistryInv.after_step (h : RegistryInv s) (e : RegistryEvent) :
    RegistryInv (registryStep lua s e) := by
  cases e with
  | register args => exact h.after_register args
  | teardown => exact h.after_teardown

theorem registryInv_run (lua : LuaLib) (events : List RegistryEvent) :
    RegistryInv (registryRun lua events) := by
  have hRun : ∀ s, RegistryInv s → RegistryInv (events.foldl (registryStep lua) s) := by
    intro s h
    induction events generalizing s with
    | nil => exact h
    | cons e events ih => exact ih _ (h.after_step e)
  exact hRun _ registryInv_init

/-- cJSON reads the schemas of the built-in tools, which are JSON texts, to their ends. -/
def ReadsSchemas (lib : JsonLib) : Prop :=
  ∀ text ∈ [readSchema, writeSchema, editSchema, bashSchema],
    ∃ tree, lib.parse text = .ok (tree, text.length)

def OnWire (lib : JsonLib) (entry : ToolEntry) (item : CJson) : Prop :=
  ∃ params, toolParams lib entry = .ok params ∧
    item = buildToolEntry entry.name entry.description params

variable {lib : JsonLib}

theorem jsonParse_whole {text : Bytes} {tree : CJson} {cap : Nat}
    (h : lib.parse text = .ok (tree, text.length)) (hCap : text.length ≤ cap) :
    jsonParse lib text cap = .ok tree := by
  rw [jsonParse, if_neg (Nat.not_lt.mpr hCap), h]
  dsimp only
  rw [List.drop_length]
  rfl

theorem addToolEntries_ok {entries : List ToolEntry} (items : List CJson)
    (h : ∀ entry ∈ entries, ∃ params, toolParams lib entry = .ok params) :
    ∃ more, addToolEntries lib items entries = .ok (items ++ more) ∧
      List.Forall₂ (OnWire lib) entries more := by
  induction entries generalizing items with
  | nil => exact ⟨[], by rw [addToolEntries, List.append_nil], .nil⟩
  | cons entry entries ih =>
    obtain ⟨params, hParams⟩ := h entry List.mem_cons_self
    let item := buildToolEntry entry.name entry.description params
    obtain ⟨more, hMore, hWire⟩ := ih (items ++ [item])
      fun other hOther => h other (List.mem_cons_of_mem _ hOther)
    refine ⟨item :: more, ?_, .cons ⟨params, hParams, rfl⟩ hWire⟩
    rw [addToolEntries, hParams]
    rw [List.append_assoc] at hMore
    exact hMore

theorem length_literal (l : List Char) : (ascii (String.ofList l)).length = l.length := by
  rw [ascii_ofList, List.length_map]

set_option maxRecDepth 4000 in
theorem schemas_fit : ∀ text ∈ [readSchema, writeSchema, editSchema, bashSchema],
    text.length ≤ kToolSchemaCap := by
  have hFit : ∀ l : List Char, l.length ≤ kToolSchemaCap →
      (ascii (String.ofList l)).length ≤ kToolSchemaCap := fun l => (length_literal l).trans_le
  simp only [List.forall_mem_cons]
  refine ⟨hFit _ ?_, hFit _ ?_, hFit _ ?_, hFit _ ?_, nofun⟩
  · decide +kernel
  · decide +kernel
  · decide +kernel
  · decide +kernel

theorem toolParams_builtin (hLib : ReadsSchemas lib) :
    ∀ entry ∈ toolDefs, ∃ params, toolParams lib entry = .ok params := by
  have hText : ∀ entry ∈ toolDefs, ∃ text, entry.schema = .paramsSchema text ∧
      text ∈ [readSchema, writeSchema, editSchema, bashSchema] := by
    simp [toolDefs, builtin]
  intro entry hEntry
  obtain ⟨text, hSchema, hMem⟩ := hText entry hEntry
  obtain ⟨tree, hTree⟩ := hLib text hMem
  refine ⟨tree, ?_⟩
  rw [toolParams, hSchema]
  dsimp only
  rw [jsonParse_whole hTree (schemas_fit text hMem)]
  rfl

theorem RegistryInv.onWire (h : RegistryInv s) (hLib : ReadsSchemas lib) :
    ∃ items, toolsBuildOpenaiArray lib s.registered = .ok (.array items) ∧
      List.Forall₂ (OnWire lib) (advertised s.registered) items := by
  obtain ⟨first, hFirst, hBuiltins⟩ := addToolEntries_ok [] (toolParams_builtin hLib)
  have hTrees : ∀ entry ∈ s.registered.map RegisteredTool.toToolEntry,
      ∃ params, toolParams lib entry = .ok params := by
    intro entry hEntry
    obtain ⟨tool, hTool, rfl⟩ := List.mem_map.mp hEntry
    obtain ⟨tree, hTree⟩ := h.trees tool hTool
    exact ⟨tree, by rw [toolParams, hTree]⟩
  rw [List.nil_append] at hFirst
  obtain ⟨more, hMore, hRegistered⟩ := addToolEntries_ok first hTrees
  refine ⟨first ++ more, ?_, List.rel_append hBuiltins hRegistered⟩
  rw [toolsBuildOpenaiArray, hFirst]
  exact congrArg (Except.map CJson.array) hMore

/-- A refused call leaves the table, and gives back all it made. -/
structure Refused (lua : LuaLib) (s : ToolRegistry) (args : RegisterArgs) : Prop where
  unchanged : (registerTool lua s args).registered = s.registered
  once : ∀ part, (s.calls, part) ∈ (registerTool lua s args).ledger.made →
    (registerTool lua s args).ledger.freed.count (s.calls, part) = 1
  /-- A call that got as far as the registry made a reference and a schema. -/
  both : ∀ name tree, WellTyped lua args name tree →
    (registerTool lua s args).ledger.freed.count (s.calls, .callback) = 1 ∧
      (registerTool lua s args).ledger.freed.count (s.calls, .schema) = 1

/-- What holds of the registry at any time, whatever the names are. -/
structure RegistrySound (lua : LuaLib) (lib : JsonLib) (s : ToolRegistry) : Prop where
  distinct : ((advertised s.registered).map fun entry => entry.name).Nodup
  lookup : ∀ entry ∈ advertised s.registered,
    toolsLookup s.registered (some entry.name) = some entry
  wire : ∃ items, toolsBuildOpenaiArray lib s.registered = .ok (.array items) ∧
    List.Forall₂ (OnWire lib) (advertised s.registered) items
  bounded : s.registered.length ≤ 256
  refuses : ∀ args, (lMuaRegisterTool lua s.registered s.calls args).1.isSome → Refused lua s args
  tornDown : (toolsTeardown s).registered = [] ∧
    ∀ tool ∈ s.registered, ∀ part ∈ tool.parts, s.ledger.freed.count part = 0 ∧
      (toolsTeardown s).ledger.freed.count part = 1

theorem RegistryInv.parts_made (h : RegistryInv s) {tool : RegisteredTool}
    (hTool : tool ∈ s.registered) {part : Nat × ToolPart} (hPart : part ∈ tool.parts) :
    part ∈ s.registered.flatMap RegisteredTool.parts ∧ part ∈ s.ledger.made := by
  have hOwned := List.mem_flatMap.mpr ⟨tool, hTool, hPart⟩
  exact ⟨hOwned, h.balanced.mem_made.mpr (.inr hOwned)⟩

theorem RegistryInv.not_owned (h : RegistryInv s) (part : ToolPart) :
    (s.calls, part) ∉ s.registered.flatMap RegisteredTool.parts := by
  intro hOwned
  exact Nat.lt_irrefl _ (h.past _ (h.balanced.mem_made.mpr (.inr hOwned)))

theorem RegistryInv.refused (h : RegistryInv s) (args : RegisterArgs)
    (hRaised : (lMuaRegisterTool lua s.registered s.calls args).1.isSome) : Refused lua s args := by
  have hCases := lMuaRegisterTool_cases lua s.registered s.calls args
  have hInv : RegistryInv (registerTool lua s args) := h.after_register args
  have hSame : (registerTool lua s args).registered = s.registered := hCases.refused_table hRaised
  have hOnce : ∀ part, (s.calls, part) ∈ (registerTool lua s args).ledger.made →
      (registerTool lua s args).ledger.freed.count (s.calls, part) = 1 := by
    intro part hMade
    apply hInv.balanced.count_freed
    refine (hInv.balanced.mem_made.mp hMade).resolve_right ?_
    rw [hSame]
    exact h.not_owned part
  refine ⟨hSame, hOnce, fun name tree hArgs => ?_⟩
  have hMade := hCases.made_both hArgs
  have hEntered : ∀ part, part ∈ (lMuaRegisterTool lua s.registered s.calls args).2.ledger.made →
      (s.calls, part) ∈ (registerTool lua s args).ledger.made :=
    fun part hPart => List.mem_append_right _ (List.mem_map_of_mem hPart)
  exact ⟨hOnce _ (hEntered _ hMade.1), hOnce _ (hEntered _ hMade.2)⟩

theorem RegistryInv.sound (h : RegistryInv s) (hLib : ReadsSchemas lib) :
    RegistrySound lua lib s where
  distinct := h.distinct
  lookup := fun _ hMem => toolsLookup_of_mem h.distinct hMem
  wire := h.onWire hLib
  bounded := h.bounded
  refuses := h.refused
  tornDown := by
    refine ⟨rfl, fun tool hTool part hPart => ?_⟩
    obtain ⟨hOwned, hMade⟩ := h.parts_made hTool hPart
    refine ⟨h.balanced.count_owned hOwned, h.after_teardown.balanced.count_freed ?_⟩
    exact List.mem_append_right _ hOwned

def AllNamed (registered : List RegisteredTool) : Prop :=
  ∀ entry ∈ advertised registered, entry.name ≠ []

def NamesNothing (lua : LuaLib) (registered : List RegisteredTool) : RegistryEvent → Prop
  | .register args => (∃ name tree, WellTyped lua args name tree ∧ name.head? = some 0) ∧
    registered.length < kMaxRegisteredTools
  | .teardown => False

def NamesHold (lua : LuaLib) : ToolRegistry → List RegistryEvent → Prop
  | _, [] => True
  | s, e :: events =>
    ¬NamesNothing lua s.registered e ∧ NamesHold lua (registryStep lua s e) events

theorem cstr_eq_nil_iff {name : Bytes} : cstr name = [] ↔ name = [] ∨ name.head? = some 0 := by
  cases name with
  | nil => simp [cstr]
  | cons b name => simp [cstr, List.takeWhile_cons]

theorem Registers.allNamed {raised : Option RegisterError} {registered' : List RegisteredTool}
    {ledger : Ledger ToolPart} (h : Registers lua registered call args raised registered' ledger)
    (hNamed : AllNamed registered) :
    AllNamed registered' ↔ ¬NamesNothing lua registered (.register args) := by
  cases h with
  | badArgument hNone => exact iff_of_true hNamed fun ⟨⟨name, tree, hArgs, _⟩, _⟩ => hNone name tree hArgs
  | unmarshaled hNone => exact iff_of_true hNamed fun ⟨⟨name, tree, hArgs, _⟩, _⟩ => hNone name tree hArgs
  | notTable hNone => exact iff_of_true hNamed fun ⟨⟨name, tree, hArgs, _⟩, _⟩ => hNone name tree hArgs
  | unnamed hArgs err =>
    refine iff_of_true hNamed ?_
    rintro ⟨⟨name, tree, hOther, hHead⟩, -⟩
    obtain rfl := hArgs.name_unique hOther
    cases hHead
  | @refused name tree hArgs hName hRefused err =>
    refine iff_of_true hNamed ?_
    rintro ⟨⟨other, _, hOther, hHead⟩, hRoom⟩
    obtain rfl := hArgs.name_unique hOther
    rw [cstr_eq_nil_iff.mpr (.inr hHead)] at hRefused
    rcases hRefused with hTaken | hFull
    · rw [Ne, toolsLookup_eq_none, not_not] at hTaken
      obtain ⟨entry, hEntry, hNil⟩ := List.mem_map.mp hTaken
      exact hNamed entry hEntry hNil
    · exact absurd hRoom (Nat.not_lt.mpr hFull)
  | @accepted name tree hArgs hName hNew hRoom tool hTool hCall hSchema =>
    have hOld : AllNamed (registered ++ [tool]) ↔ cstr name ≠ [] := by
      rw [AllNamed, advertised_append, ← hTool]
      constructor
      · exact fun h => h _ (List.mem_append_right _ (List.mem_singleton_self _))
      · intro h entry hEntry
        rcases List.mem_append.mp hEntry with hOld | hLast
        · exact hNamed entry hOld
        · rwa [List.mem_singleton.mp hLast]
    rw [hOld, Ne, cstr_eq_nil_iff, or_iff_right hName, not_iff_not]
    constructor
    · exact fun hHead => ⟨⟨name, tree, hArgs, hHead⟩, hRoom⟩
    · rintro ⟨⟨other, _, hOther, hHead⟩, -⟩
      obtain rfl := hArgs.name_unique hOther
      exact hHead

theorem allNamed_step (hNamed : AllNamed s.registered) (e : RegistryEvent) :
    AllNamed (registryStep lua s e).registered ↔ ¬NamesNothing lua s.registered e := by
  cases e with
  | register args => exact (lMuaRegisterTool_cases lua s.registered s.calls args).allNamed hNamed
  | teardown => exact iff_of_true builtins_named id

theorem allNamed_run_iff (hNamed : AllNamed s.registered) (events : List RegistryEvent) :
    (∀ k, AllNamed ((events.take k).foldl (registryStep lua) s).registered) ↔
      NamesHold lua s events := by
  induction events generalizing s with
  | nil =>
    refine iff_of_true (fun k => ?_) trivial
    rw [List.take_nil]
    exact hNamed
  | cons e events ih =>
    rw [NamesHold]
    constructor
    · intro hAll
      have hStep : AllNamed (registryStep lua s e).registered := hAll 1
      exact ⟨(allNamed_step hNamed e).mp hStep, (ih hStep).mp fun k => hAll (k + 1)⟩
    · rintro ⟨hFirst, hRest⟩ k
      have hStep := (allNamed_step hNamed e).mpr hFirst
      cases k with
      | zero => exact hNamed
      | succ k => exact (ih hStep).mpr hRest k

/-- At any time of any run the names differ and lead to their entries, the wire has every tool
once, a refused call gives back what it made, and the teardown frees every tool; and no name is
ever empty just if no call of the run is let in with a name that begins with a NUL. -/
theorem toolsRegister_sound_iff (lua : LuaLib) (lib : JsonLib) (hLib : ReadsSchemas lib)
    (events : List RegistryEvent) :
    (∀ k, RegistrySound lua lib (registryRun lua (events.take k))) ∧
      ((∀ k, AllNamed (registryRun lua (events.take k)).registered) ↔ NamesHold lua {} events) :=
  ⟨fun k => (registryInv_run lua (events.take k)).sound hLib,
    allNamed_run_iff (s := {}) builtins_named events⟩

def registerAs (name : Bytes) : RegistryEvent :=
  .register
    { heap := fun _ => .empty
      name := .string name
      description := .nil
      schema := .nil
      mutating := .nil
      callback := .other .function 0 }

def plainLua : LuaLib := ⟨fun _ => ascii "0", fun _ => 0⟩

/-- The name "\0" is let in, and a tool is called by the empty string. -/
theorem toolsRegister_nul_named :
    ¬AllNamed (registryRun plainLua [registerAs [0]]).registered := by
  have hAdvertised : ∃ entry ∈ advertised (registryRun plainLua [registerAs [0]]).registered,
      entry.name = [] := by decide +kernel
  intro hNamed
  obtain ⟨entry, hEntry, hNil⟩ := hAdvertised
  exact hNamed entry hEntry hNil

/-! The trees of the four schemas, as cJSON reads them. -/

def propertyTree (type description : Bytes) : CJson :=
  .object [(ascii "type", .string type), (ascii "description", .string description)]

def argsTree (properties : List (Bytes × CJson)) (required : List Bytes) : CJson :=
  .object [(ascii "type", .string (ascii "object")), (ascii "properties", .object properties),
    (ascii "required", .array (required.map .string))]

def readTree : CJson :=
  argsTree
    [(ascii "path", propertyTree (ascii "string") (ascii "File path to read")),
      (ascii "offset",
        propertyTree (ascii "integer") (ascii "1-based line to start from (default 1)")),
      (ascii "limit", propertyTree (ascii "integer") (ascii "Maximum number of lines to return"))]
    [ascii "path"]

def writeTree : CJson :=
  argsTree
    [(ascii "path", propertyTree (ascii "string") (ascii "File path to write")),
      (ascii "content", propertyTree (ascii "string") (ascii "Full file contents to write"))]
    [ascii "path", ascii "content"]

def editTree : CJson :=
  argsTree
    [(ascii "path", propertyTree (ascii "string") (ascii "File path to edit")),
      (ascii "old_string",
        propertyTree (ascii "string") (ascii "Exact text to replace; must occur exactly once")),
      (ascii "new_string", propertyTree (ascii "string") (ascii "Replacement text"))]
    [ascii "path", ascii "old_string", ascii "new_string"]

def bashTree : CJson :=
  argsTree
    [(ascii "command",
        propertyTree (ascii "string") (ascii "Shell command run via /bin/sh -c")),
      (ascii "timeout_ms",
        propertyTree (ascii "integer")
          (ascii "Kill the command after this many milliseconds (default 30000, max 120000)"))]
    [ascii "command"]

def schemaLib : JsonLib where
  parse text :=
    if text = readSchema then .ok (readTree, text.length)
    else if text = writeSchema then .ok (writeTree, text.length)
    else if text = editSchema then .ok (editTree, text.length)
    else if text = bashSchema then .ok (bashTree, text.length)
    else .error 0
  print := fun _ => []
  castOutside := fun _ => 0

theorem schemaLib_reads : ReadsSchemas schemaLib := by
  intro text hText
  rw [schemaLib]
  dsimp only
  split
  · exact ⟨_, rfl⟩
  split
  · exact ⟨_, rfl⟩
  split
  · exact ⟨_, rfl⟩
  split
  · exact ⟨_, rfl⟩
  · simp_all

theorem toolsRegister_sound_sample :
    RegistrySound plainLua schemaLib (registryRun plainLua [registerAs (ascii "greet")]) ∧
      AllNamed (registryRun plainLua [registerAs (ascii "greet")]).registered ∧
      (registryRun plainLua [registerAs (ascii "greet")]).registered.length = 1 := by
  have hSound := toolsRegister_sound_iff plainLua schemaLib schemaLib_reads
    [registerAs (ascii "greet"), .teardown]
  have hNames : NamesHold plainLua {} [registerAs (ascii "greet"), .teardown] := by
    refine ⟨?_, id, trivial⟩
    rintro ⟨⟨name, tree, hArgs, hHead⟩, -⟩
    obtain rfl : ascii "greet" = name := Option.some.inj hArgs.name_eq
    exact absurd hHead (by decide +kernel)
  exact ⟨hSound.1 1, hSound.2.mpr hNames 1, by decide +kernel⟩

end Mua.Tools
