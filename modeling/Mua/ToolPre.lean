import Mua.AgentBounds
import Mua.Marshal

/-! # The tool gates

The gate policies of agent.c, the ToolPre dispatch of bridge.c and the composing
gate of main.c. Lua enters as the marshaling of its values and as the registered
callbacks, each a function of the history and of the payload table it is given.
-/

namespace Mua.Agent

open Session Openrouter

abbrev AgentGate : Type := History → ToolDef → CJson → GateReply

def agentGateApproveAll : AgentGate := fun _ _ _ => ⟨.approve, none, none⟩

def agentGateAutoRefuse : AgentGate := fun _ tool _ =>
  if ¬ tool.mutating then ⟨.approve, none, none⟩
  else ⟨.refuse, none, some (tool.name ++ ascii " requires approval; re-run with --yes")⟩

/-- `answer` is the line fgets(3) reads at the prompt; none is EOF or EINTR. -/
def agentGateInteractive (answer : History → Option Bytes) : AgentGate := fun out tool _ =>
  let declined : GateReply :=
    ⟨.refuse, none, some (tool.name ++ ascii " declined at the approval prompt")⟩
  if ¬ tool.mutating then ⟨.approve, none, none⟩
  else
    match answer out with
    | none => declined
    | some line =>
      if line.head? = some 121 ∨ line.head? = some 89 then ⟨.approve, none, none⟩ else declined

/-- What a hook returns, by its Lua type; `other` is nil or any type without a meaning here. -/
inductive HookReturn (V : Type)
  | string (reason : Bytes)
  | boolean (b : Bool)
  | table (t : V)
  | other

structure Payload (V : Type) where
  tool : V
  args : V

abbrev Hook (V : Type) : Type := History → Payload V → Option (HookReturn V) × Payload V

structure LuaHooks where
  Value : Type
  nil : Value
  pushString : Bytes → Value
  checkStack : History → Bool
  objectToLua : History → Object → Option Value
  luaPopObject : History → Value → Option Object
  callbacks : History → List (Hook Value)

structure ToolPreResult where
  vetoed : Bool
  rewrite : Object
  approve : Bool
  reason : Option Bytes

/-- The state of the dispatch loop; `called` counts the hooks fired so far. -/
structure ToolPreLoop (V : Type) where
  called : Nat
  payload : Payload V
  vetoed : Bool
  rewritten : Bool
  approved : Bool
  reason : Option Bytes

variable (hooks : LuaHooks)

def fireHook (out : History) (loop : ToolPreLoop hooks.Value) (hook : Hook hooks.Value) :
    ToolPreLoop hooks.Value :=
  let (result, payload) := hook out loop.payload
  let loop := { loop with called := loop.called + 1, payload := payload }
  match result with
  | none => loop
  | some (.string reason) => { loop with reason := some (cstr reason), vetoed := true }
  | some (.boolean true) => { loop with approved := true }
  | some (.boolean false) => { loop with vetoed := true }
  -- later hooks see the table in the payload
  | some (.table t) => { loop with payload := { payload with args := t }, rewritten := true }
  | some .other => loop

/-- Fires the hooks in order of registration, up to the first veto. -/
def fireHooks (out : History) (loop : ToolPreLoop hooks.Value) :
    List (Hook hooks.Value) → ToolPreLoop hooks.Value
  | [] => loop
  | hook :: rest =>
    if loop.vetoed then loop else fireHooks out (fireHook hooks out loop hook) rest

def toolPreLoop (out : History) (name : Bytes) (args : Object) : ToolPreLoop hooks.Value :=
  let payload : Payload hooks.Value :=
    ⟨hooks.pushString name, (hooks.objectToLua out args).getD hooks.nil⟩
  fireHooks hooks out ⟨0, payload, false, false, false, none⟩ (hooks.callbacks out)

def captureToolPreArgs (out : History) (payload : Payload hooks.Value) : Object :=
  (hooks.luaPopObject out payload.args).getD .nil

def luaAutocmdToolPre (out : History) (name : Bytes) (args : Object) : ToolPreResult :=
  let skipped : ToolPreResult := ⟨false, .nil, false, none⟩
  if hooks.callbacks out = [] then skipped
  else if ¬ hooks.checkStack out then skipped
  else
    let loop := toolPreLoop hooks out name args
    { vetoed := loop.vetoed
      rewrite :=
        if ¬ loop.vetoed ∧ loop.rewritten then captureToolPreArgs hooks out loop.payload else .nil
      approve := loop.approved && !loop.vetoed
      reason := loop.reason }

/-- The arguments a ToolPre hook asked for; anything but a JSON object is ignored. -/
def rewriteArgs : Object → Option CJson
  | .nil => none
  | rewrite => (some (objectToCJson rewrite)).filter CJson.isObject

def baseGate (base : AgentGate) (out : History) (tool : ToolDef) (args : CJson)
    (rewrite : Option CJson) : GateReply :=
  let reply := base out tool (rewrite.getD args)
  { reply with rewrite := reply.rewrite.or rewrite }

def gateWithAutocmds (base : AgentGate) : AgentGate := fun out tool args =>
  if hooks.callbacks out = [] then baseGate base out tool args none
  else
    match cjsonToObject args with
    -- the marshal failure is logged, and the base gate decides
    | .error _ => baseGate base out tool args none
    | .ok argsObj =>
      let pre := luaAutocmdToolPre hooks out tool.name argsObj
      if pre.vetoed then
        ⟨.refuse, none, some (pre.reason.getD (ascii "vetoed by a ToolPre hook"))⟩
      else
        let rewrite := rewriteArgs pre.rewrite
        if pre.approve then ⟨.approve, rewrite, none⟩
        else baseGate base out tool args rewrite

variable {hooks}

/-- A hook that returns false or a string for every payload it is given. -/
def Hook.AlwaysVetoes {V : Type} (hook : Hook V) : Prop :=
  ∀ out payload, (hook out payload).1 = some (.boolean false) ∨
    ∃ reason, (hook out payload).1 = some (.string reason)

/-- Whenever hooks are fired, one of them always vetoes, and Lua has the stack to fire them. -/
structure Vetoing (hooks : LuaHooks) : Prop where
  registered : ∀ out, ∃ hook ∈ hooks.callbacks out, hook.AlwaysVetoes
  stack : ∀ out, hooks.checkStack out = true

theorem fireHook_vetoed {hook : Hook hooks.Value} (h : hook.AlwaysVetoes) (out : History)
    (loop : ToolPreLoop hooks.Value) : (fireHook hooks out loop hook).vetoed = true := by
  unfold fireHook
  dsimp only
  obtain hFalse | ⟨reason, hString⟩ := h out loop.payload
  · rw [hFalse]
  · rw [hString]

theorem fireHooks_vetoed {hook : Hook hooks.Value} (h : hook.AlwaysVetoes) (out : History)
    {callbacks : List (Hook hooks.Value)} (hMem : hook ∈ callbacks)
    (loop : ToolPreLoop hooks.Value) : (fireHooks hooks out loop callbacks).vetoed = true := by
  induction callbacks generalizing loop with
  | nil => cases hMem
  | cons first rest ih =>
    rw [fireHooks]
    split
    · assumption
    · rcases List.mem_cons.mp hMem with rfl | hLater
      · -- the loop stops at the veto
        have hVetoed := fireHook_vetoed h out loop
        cases rest with
        | nil => exact hVetoed
        | cons next rest =>
          rw [fireHooks, if_pos hVetoed]
          exact hVetoed
      · exact ih hLater _

theorem luaAutocmdToolPre_vetoed (h : Vetoing hooks) (out : History) (name : Bytes)
    (args : Object) : (luaAutocmdToolPre hooks out name args).vetoed = true := by
  obtain ⟨hook, hMem, hVeto⟩ := h.registered out
  unfold luaAutocmdToolPre
  dsimp only
  rw [if_neg (List.ne_nil_of_mem hMem), if_neg (by simp [h.stack out])]
  exact fireHooks_vetoed hVeto out hMem _

theorem gateWithAutocmds_refuses_iff (h : Vetoing hooks) (base : AgentGate) (out : History)
    (tool : ToolDef) (args : CJson) :
    (gateWithAutocmds hooks base out tool args).decision = .refuse ↔
      args.nesting ≤ kMarshalDepthCap ∨ (base out tool args).decision = .refuse := by
  obtain ⟨hook, hMem, -⟩ := h.registered out
  rw [← cjsonToObject_ok_iff]
  unfold gateWithAutocmds
  rw [if_neg (List.ne_nil_of_mem hMem)]
  cases cjsonToObject args with
  | error err => simp [baseGate, Except.isOk, Except.toBool]
  | ok argsObj =>
    simp [luaAutocmdToolPre_vetoed h out tool.name argsObj, Except.isOk, Except.toBool]

end Mua.Agent
