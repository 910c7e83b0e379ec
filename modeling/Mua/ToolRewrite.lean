import Mua.LuaObject
import Mua.ToolVeto

/-! # What a rewrite runs with

A ToolPre hook that returns a table rewrites the arguments. The table goes through
`lua_pop_object` to an object and on to cJSON: a record reaches the tool with its
content, and what is taken but is no record is ignored.
-/

namespace Mua.Agent

open Session Openrouter

variable (hooks : LuaHooks)

/-- What the hooks return, in the order they are fired; none for a throw. -/
def hookReturns (out : History) (loop : ToolPreLoop hooks.Value) :
    List (Hook hooks.Value) → List (Option (HookReturn hooks.Value))
  | [] => []
  | hook :: rest =>
    if loop.vetoed then []
    else (hook out loop.payload).1 :: hookReturns out (fireHook hooks out loop hook) rest

def toolPreReturns (out : History) (name : Bytes) (args : Object) :
    List (Option (HookReturn hooks.Value)) :=
  let payload : Payload hooks.Value :=
    ⟨hooks.pushString name, (hooks.objectToLua out args).getD hooks.nil⟩
  hookReturns hooks out ⟨0, payload, false, false, false, none⟩ (hooks.callbacks out)

/-- The hooks were asked about a call, some returned a table and none vetoed; `loop` is what
they left. -/
structure Rewritten (out : History) (tool : ToolDef) (args : CJson)
    (loop : ToolPreLoop hooks.Value) : Prop where
  stack : hooks.checkStack out = true
  asked : ∃ argsObj, cjsonToObject args = .ok argsObj ∧
    loop = toolPreLoop hooks out tool.name argsObj ∧
    ∃ t, some (.table t) ∈ toolPreReturns hooks out tool.name argsObj
  unvetoed : loop.vetoed = false

inductive Policy : AgentGate → Prop
  | approveAll : Policy agentGateApproveAll
  | autoRefuse : Policy agentGateAutoRefuse
  | interactive (answer : History → Option Bytes) : Policy (agentGateInteractive answer)

variable {hooks} {base : AgentGate} {out : History} {tool : ToolDef} {args : CJson}

theorem Policy.rewrite (h : Policy base) (out : History) (tool : ToolDef) (args : CJson) :
    (base out tool args).rewrite = none := by
  cases h with
  | approveAll => rfl
  | autoRefuse =>
    unfold agentGateAutoRefuse
    split <;> rfl
  | interactive answer =>
    unfold agentGateInteractive
    dsimp only
    split
    · rfl
    · split
      · rfl
      · split <;> rfl

theorem fireHook_rewritten (out : History) (loop : ToolPreLoop hooks.Value)
    (hook : Hook hooks.Value) :
    (fireHook hooks out loop hook).rewritten = true ↔
      loop.rewritten = true ∨ ∃ t, (hook out loop.payload).1 = some (.table t) := by
  unfold fireHook
  generalize hook out loop.payload = r
  obtain ⟨result, payload⟩ := r
  cases result with
  | none => simp
  | some value =>
    cases value with
    | string reason => simp
    | boolean b => cases b <;> simp
    | table t => simp
    | other => simp

theorem fireHooks_rewritten (out : History) (loop : ToolPreLoop hooks.Value)
    (callbacks : List (Hook hooks.Value)) :
    (fireHooks hooks out loop callbacks).rewritten = true ↔
      loop.rewritten = true ∨ ∃ t, some (.table t) ∈ hookReturns hooks out loop callbacks := by
  induction callbacks generalizing loop with
  | nil => simp [fireHooks, hookReturns]
  | cons hook rest ih =>
    rw [fireHooks, hookReturns]
    split
    · simp
    · rw [ih, fireHook_rewritten]
      simp only [List.mem_cons, exists_or, or_assoc, eq_comm]

theorem Rewritten.callbacks {loop : ToolPreLoop hooks.Value}
    (h : Rewritten hooks out tool args loop) : hooks.callbacks out ≠ [] := by
  intro hNone
  obtain ⟨argsObj, -, -, t, hTable⟩ := h.asked
  unfold toolPreReturns at hTable
  rw [hNone] at hTable
  cases hTable

theorem Rewritten.rewritten {loop : ToolPreLoop hooks.Value}
    (h : Rewritten hooks out tool args loop) : loop.rewritten = true := by
  obtain ⟨argsObj, -, rfl, hTable⟩ := h.asked
  exact (fireHooks_rewritten out _ _).mpr (.inr hTable)

variable {castOutside : Double → Int64} {view : hooks.Value → Lua.Heap × Lua.Value}

variable {lib : JsonLib} {w : World} {turn : AgentTurn} {idx : Nat}

end Mua.Agent
