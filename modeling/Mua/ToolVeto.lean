import Mua.AgentFrame
import Mua.ToolPre

/-! # What a veto withholds

With a ToolPre hook that vetoes everything, a call is executed only where the
gate never asks the hooks: its arguments parse but nest too deep to cross to
Lua, and the base gate approves them.
-/

namespace Mua.Agent

open Session Openrouter

variable (lib : JsonLib) (w : World) {turn turn' : AgentTurn}

def executions (out : History) : Nat := out.countP AgentOutput.isExecute

theorem Adds.executions_le {P : AgentOutput → Prop} (h : Adds P turn turn') :
    executions turn.out ≤ executions turn'.out := by
  obtain ⟨new, hNew, -⟩ := h.entries
  rw [hNew, Agent.executions, Agent.executions, List.countP_append]
  exact Nat.le_add_right _ _

theorem Adds.executions_eq (h : Adds (fun o => o.isExecute = false) turn turn') :
    executions turn'.out = executions turn.out := by
  obtain ⟨new, hNew, hOther⟩ := h.entries
  have hNone : new.countP AgentOutput.isExecute = 0 := by
    rw [List.countP_eq_zero]
    intro o ho
    simp [hOther o ho]
  rw [hNew, Agent.executions, List.countP_append, hNone, Nat.add_zero]
  rfl

theorem Adds.executions (h : Adds AgentOutput.passive turn turn') :
    executions turn'.out = executions turn.out :=
  Adds.executions_eq (h.mono fun _ ho => ho.1)

theorem runTool_executions (turn : AgentTurn) (key : CallKey) (tool : ToolDef) (args : CJson) :
    executions (runTool lib w turn key tool args).1.out = executions turn.out + 1 := by
  rw [(runTool_adds lib w turn key tool args).executions]
  simp [executions, AgentTurn.emit, AgentOutput.isExecute]

variable {lib w} {hooks : LuaHooks} {base : AgentGate}

/-- The tool that a call names, as it is looked up when the call starts. -/
def callTool (w : World) (turn : AgentTurn) (idx : Nat) : Option ToolDef :=
  let function := turn.calls[idx]?.bind fun call => jsonGetObj call (ascii "function")
  (function.bind fun f => jsonGetCstr f (ascii "name")).bind (w.lookup turn.out)

def callArgs (lib : JsonLib) (call : Option CJson) : Except Error CJson :=
  let function := call.bind fun call => jsonGetObj call (ascii "function")
  let text := (function.bind fun f => jsonGetCstr f (ascii "arguments")).getD []
  jsonParse lib (if text = [] then ascii "\x7b\x7d" else text) kAgentArgsCap

/-- When a call reaches the gate: its arguments cross to the hooks, or the base gate, asked in
the same state, refuses it. -/
def Withheld (lib : JsonLib) (w : World) (base : AgentGate) (turn : AgentTurn) (idx : Nat) : Prop :=
  ∀ tool args, callTool w turn idx = some tool → callArgs lib turn.calls[idx]? = .ok args →
    args.nesting ≤ kMarshalDepthCap ∨
      (base (fire w turn (.gate tool args)).out tool args).decision = .refuse

theorem consultGate_executions (hGate : w.gate = some (gateWithAutocmds hooks base))
    (h : Vetoing hooks) (turn : AgentTurn) (tool : ToolDef) (args : CJson) :
    Adds AgentOutput.passive turn (consultGate w turn tool args).1 ∧
      ((consultGate w turn tool args).2.isOk = false ↔ args.nesting ≤ kMarshalDepthCap ∨
        (base (fire w turn (.gate tool args)).out tool args).decision = .refuse) := by
  have hFire := fire_passive w turn (o := .gate tool args) ⟨rfl, rfl⟩
  rw [← gateWithAutocmds_refuses_iff h]
  unfold consultGate
  rw [hGate]
  dsimp only
  split
  · rename_i hRefuse
    exact ⟨hFire, iff_of_true rfl hRefuse⟩
  · rename_i hApprove
    refine ⟨hFire, iff_of_false (by simp [Except.isOk, Except.toBool]) ?_⟩
    rw [hApprove]
    nofun

/-- A call that is not withheld runs its tool once; a withheld one gets a synthetic result. -/
theorem startTool_executions (hGate : w.gate = some (gateWithAutocmds hooks base))
    (h : Vetoing hooks) (turn : AgentTurn) (idx : Nat) :
    executions (startTool lib w turn idx).1.out = executions turn.out ↔
      Withheld lib w base turn idx := by
  have hSynthetic : ∀ content next, Adds AgentOutput.passive turn next →
      executions (syntheticResult lib w next content).out = executions turn.out := by
    intro content next hAdds
    exact (hAdds.trans (toolCompleted_passive lib w next ⟨content, true⟩)).executions
  unfold startTool
  dsimp only
  split
  · rename_i hTool
    refine iff_of_true (hSynthetic _ turn (Adds.refl turn)) ?_
    intro tool args hSome _
    rw [callTool, hTool] at hSome
    cases hSome
  rename_i tool hTool
  split
  · rename_i err hArgs
    refine iff_of_true (hSynthetic _ turn (Adds.refl turn)) ?_
    intro tool' args _ hOk
    rw [callArgs, hArgs] at hOk
    cases hOk
  rename_i args hArgs
  have hWithheld : Withheld lib w base turn idx ↔ args.nesting ≤ kMarshalDepthCap ∨
      (base (fire w turn (.gate tool args)).out tool args).decision = .refuse := by
    constructor
    · intro hAll
      exact hAll tool args hTool hArgs
    · intro hThis tool' args' hTool' hArgs'
      obtain rfl : tool = tool' := Option.some.inj (hTool.symm.trans hTool')
      obtain rfl : args = args' := Except.ok.inj (hArgs.symm.trans hArgs')
      exact hThis
  obtain ⟨hAdds, hRefused⟩ := consultGate_executions hGate h turn tool args
  rw [hWithheld, ← hRefused]
  generalize consultGate w turn tool args = r at hAdds
  obtain ⟨next, verdict⟩ := r
  cases verdict with
  | error refusal => exact iff_of_true (hSynthetic refusal next hAdds) rfl
  | ok args' =>
    have hRun : ∀ last, Adds AgentOutput.passive turn last →
        executions (runTool lib w last (last.step, idx) tool args').1.out =
          executions turn.out + 1 := by
      intro last hLast
      rw [runTool_executions, hLast.executions]
    refine iff_of_false ?_ (by simp [Except.isOk, Except.toBool])
    dsimp only
    rw [hRun]
    · omega
    · split
      · exact hAdds.trans (fire_passive w next ⟨rfl, rfl⟩)
      · exact hAdds

/-- The states in which the trampoline starts a call, in at most `left` of its turns. -/
def driveStarts (lib : JsonLib) (w : World) (turn : AgentTurn) : (left : Nat) → List AgentTurn
  | 0 => []
  | left + 1 =>
    if turn.toolIndex < turn.calls.length ∧ ¬ turn.canceling ∧ ¬ turn.failing then
      match startTool lib w turn turn.toolIndex with
      | (_, some _) => [turn]
      | (next, none) => turn :: driveStarts lib w next left
    else []

/-- The state in which an event hands its turn to the driver, if it does. -/
def driven (lib : JsonLib) (w : World) (turn : AgentTurn) : TurnInput → Option AgentTurn
  | .done id message usage =>
    let turn := { turn with streams := turn.streams.erase id, stream := none }
    match append lib w (maybeWarnContext w (noteUsage turn usage)) message.json with
    | (_, .error _) => none
    | (turn, .ok ()) =>
      if toolCalls message.json = [] ∨ turn.cancelRequested then none
      else some { turn with calls := toolCalls message.json, toolIndex := 0 }
  | .toolDone key result =>
    let turn := { turn with tools := turn.tools.erase key }.emit (.toolDone key result)
    let next := toolDoneAdvance lib w turn result
    if turn.finished ∨ next.inDriver then none else some next
  | _ => none

def starts (lib : JsonLib) (w : World) (turn : AgentTurn) (input : TurnInput) : List AgentTurn :=
  match driven lib w turn input with
  | none => []
  | some turn =>
    driveStarts lib w { turn with inDriver := true } (turn.calls.length - turn.toolIndex)

/-- Nothing is executed between two states just when the calls started there are withheld. -/
structure Executes (lib : JsonLib) (w : World) (base : AgentGate) (mids : List AgentTurn)
    (turn turn' : AgentTurn) : Prop where
  le : executions turn.out ≤ executions turn'.out
  eq_iff : executions turn'.out = executions turn.out ↔
    ∀ mid ∈ mids, Withheld lib w base mid mid.toolIndex

variable {mids mids' : List AgentTurn}

theorem Executes.none (h : Adds (fun o => o.isExecute = false) turn turn') :
    Executes lib w base [] turn turn' :=
  ⟨h.executions_le, iff_of_true h.executions_eq fun _ hMid => absurd hMid List.not_mem_nil⟩

theorem Executes.passive (h : Adds AgentOutput.passive turn turn') :
    Executes lib w base [] turn turn' :=
  .none (h.mono fun _ ho => ho.1)

theorem Executes.still (hOut : turn'.out = turn.out) : Executes lib w base [] turn turn' := by
  constructor
  · rw [hOut]
  · rw [hOut]
    exact iff_of_true rfl fun _ hMid => absurd hMid List.not_mem_nil

theorem Executes.append {mid : AgentTurn} (h : Executes lib w base mids turn mid)
    (h' : Executes lib w base mids' mid turn') :
    Executes lib w base (mids ++ mids') turn turn' := by
  have hFirst := h.le
  have hSecond := h'.le
  refine ⟨by omega, ?_⟩
  rw [List.forall_mem_append, ← h.eq_iff, ← h'.eq_iff]
  omega

theorem Executes.start (hGate : w.gate = some (gateWithAutocmds hooks base))
    (hVeto : Vetoing hooks) (turn : AgentTurn) :
    Executes lib w base [turn] turn (startTool lib w turn turn.toolIndex).1 := by
  refine ⟨(startTool_adds lib w turn turn.toolIndex).executions_le, ?_⟩
  rw [startTool_executions hGate hVeto, List.forall_mem_singleton]

theorem Executes.passed {mid : AgentTurn} (h : Executes lib w base mids turn mid)
    (hAdds : Adds AgentOutput.passive mid turn') : Executes lib w base mids turn turn' := by
  simpa using h.append (.passive hAdds)

theorem Executes.after {mid : AgentTurn} (hAdds : Adds AgentOutput.passive turn mid)
    (h : Executes lib w base mids mid turn') : Executes lib w base mids turn turn' :=
  (Executes.passive hAdds).append h

def vetoHooks : LuaHooks where
  Value := Unit
  nil := ()
  pushString _ := ()
  checkStack _ := true
  objectToLua _ _ := some ()
  luaPopObject _ _ := some .nil
  callbacks _ := [fun _ payload => (some (.boolean false), payload)]

def nestedArray : Nat → CJson
  | 0 => .array []
  | n + 1 => .array [nestedArray n]

def flatArgsText : Bytes := ascii "\x7b\"command\":\"id\"\x7d"

def deepArgsText : Bytes :=
  ascii "\x7b\"command\":\"id\",\"x\":" ++ List.replicate 32 91 ++ List.replicate 32 93 ++ ascii "\x7d"

def flatArgs : CJson := jsonAddCstr jsonNewObj (ascii "command") (ascii "id")

def deepArgs : CJson := flatArgs.addItem (ascii "x") (nestedArray 31)

def vetoLib : JsonLib :=
  { sampleLib with
    parse := fun doc =>
      if doc = flatArgsText then .ok (flatArgs, doc.length)
      else if doc = deepArgsText then .ok (deepArgs, doc.length)
      else .error 0 }

def vetoWorld : World :=
  { sampleWorld with
    gate := some (gateWithAutocmds vetoHooks agentGateApproveAll)
    lookup := fun _ name => some ⟨name, true⟩ }

def bashCall (args : Bytes) : CJson :=
  jsonAddCstr (CJson.addItem jsonNewObj (ascii "function")
    (jsonAddCstr (jsonAddCstr jsonNewObj (ascii "name") (ascii "bash")) (ascii "arguments") args))
    (ascii "id") (ascii "c1")

def vetoTurn : AgentTurn :=
  (agentTurnStart vetoLib vetoWorld ⟨none, none, 0⟩ sampleSession .empty sampleEnv
    (ascii "hi") true).1

end Mua.Agent
