import Mua.Openrouter
import Mua.Options
import Mua.Session

/-! # The agent turn loop

agent.c, function by function. A turn appends what it does to its history `out`:
the callbacks it fires, the requests it issues, the tools it executes, the
session appends it attempts. Everything the turn does not decide (the gate, the
tools, the provider, the writes, which callbacks call `agent_turn_cancel`) is a
function of the history so far, so every behaviour of the outside is one `World`.
-/

namespace Mua.Agent

open Session Openrouter

def kAgentArgsCap : Nat := 1024 * 1024

structure ToolDef where
  name : Bytes
  mutating : Bool
  deriving DecidableEq, Repr

structure ToolResult where
  content : Bytes
  isError : Bool
  deriving DecidableEq, Repr

inductive TurnOutcome
  | done
  | failed
  | interrupted
  | stepCap
  | contextLimit
  deriving DecidableEq, Repr

inductive GateDecision
  | approve
  | refuse
  deriving DecidableEq, Repr

structure GateReply where
  decision : GateDecision
  rewrite : Option CJson
  refusal : Option Bytes

/-- A tool either calls `done` before `execute` returns, or returns a handle and calls it later. -/
inductive ExecReply
  | inline (result : ToolResult)
  | async

/-- `openrouter_stream` refuses the request, fires `on_error` before it returns, or opens. -/
inductive StreamReply
  | refused (err : Error)
  | failed (err : Error)
  | opened

/-- The round and the index of a call, for the call's execution. -/
abbrev CallKey : Type := Nat × Nat

inductive AgentOutput
  | append (sess : SessionState) (msg : CJson) (ok : Bool)
  | request (opts : OpenrouterOpts)
  | onText (text : Bytes)
  | gate (tool : ToolDef) (args : CJson)
  | onToolStart (name : Bytes) (args : CJson)
  | execute (key : CallKey) (tool : ToolDef) (args : CJson)
  | toolDone (key : CallKey) (result : ToolResult)
  | onToolResult (name : Bytes) (result : ToolResult)
  | onNotice (msg : Bytes)
  | onFinish (outcome : TurnOutcome) (err : Option Error)
  | cancelStream
  | cancelTool

abbrev History : Type := List AgentOutput

/-- The outside of a turn. The flags say which optional callbacks are set. -/
structure World where
  hasText : Bool
  hasToolStart : Bool
  hasToolResult : Bool
  hasNotice : Bool
  gate : Option (History → ToolDef → CJson → GateReply)
  lookup : History → Bytes → Option ToolDef
  execute : History → ToolDef → CJson → ExecReply
  cancels : History → Bool
  inRetryWait : History → Bool
  write : History → Nat → WriteResult
  buildTools : History → Except Error CJson
  openStream : History → OpenrouterOpts → StreamReply
  timerStarts : History → Bool
  overflow : Int → Int64

structure AgentOpts where
  model : Option Bytes
  apiKey : Option Bytes
  contextLength : Int

/-- `stream` and `exec` are the turn's own pointers. `streams` and `tools` are the provider
streams whose terminal callback and the tools whose `done` are still to come. -/
structure AgentTurn where
  opts : AgentOpts
  session : SessionState
  systemPrompt : Option Bytes
  step : Nat
  stepCap : Int
  contextPct : Int
  contextWarnPct : Int
  lastTotalTokens : Int
  contextWarned : Bool
  stream : Option Nat
  exec : Option CallKey
  timer : Bool
  calls : List CJson
  toolIndex : Nat
  inDriver : Bool
  cancelRequested : Bool
  canceling : Bool
  failing : Bool
  failErr : Option Error
  finished : Bool
  streams : List Nat
  tools : List CallKey
  out : History

variable (lib : JsonLib) (w : World)

def AgentTurn.emit (turn : AgentTurn) (o : AgentOutput) : AgentTurn :=
  { turn with out := turn.out ++ [o] }

def finishTurn (turn : AgentTurn) (outcome : TurnOutcome) (err : Option Error) : AgentTurn :=
  if turn.finished then turn
  else { { turn with finished := true }.emit (.onFinish outcome err) with timer := false }

def providerOnError (turn : AgentTurn) (perr : Error) : AgentTurn :=
  let turn := { turn with stream := none }
  if turn.cancelRequested then finishTurn turn .interrupted none
  else finishTurn turn .failed (some perr)

/-- `openrouter_cancel` reports at once when the stream waits on a retry, later otherwise. -/
def cancelStream (turn : AgentTurn) (id : Nat) : AgentTurn :=
  let turn := turn.emit .cancelStream
  if id ∈ turn.streams ∧ w.inRetryWait turn.out then
    providerOnError { turn with streams := turn.streams.erase id } ⟨.exception, ascii "canceled"⟩
  else turn

def agentTurnCancel (turn : AgentTurn) : AgentTurn :=
  if turn.finished then turn
  else
    match turn.stream with
    | some id => cancelStream w { turn with cancelRequested := true } id
    | none =>
      let turn := { turn with canceling := true }
      if turn.exec.isSome then turn.emit .cancelTool else turn

def fire (turn : AgentTurn) (o : AgentOutput) : AgentTurn :=
  let turn := turn.emit o
  if w.cancels turn.out then agentTurnCancel w turn else turn

def callName (turn : AgentTurn) (idx : Nat) : Bytes :=
  let function := turn.calls[idx]?.bind fun call => jsonGetObj call (ascii "function")
  (function.bind fun f => jsonGetCstr f (ascii "name")).getD (ascii "(unnamed)")

def append (turn : AgentTurn) (msg : CJson) : AgentTurn × Except Error Unit :=
  let (sess, result) := sessionAppend lib turn.session msg (w.write turn.out)
  ({ turn with session := sess }.emit (.append turn.session msg result.isOk), result)

def toolMessage (id content : Bytes) : CJson :=
  jsonAddCstr (jsonAddCstr (jsonAddCstr jsonNewObj (ascii "role") (ascii "tool"))
    (ascii "tool_call_id") id) (ascii "content") content

def callId (call : CJson) : Option Bytes := jsonGetCstr call (ascii "id")

def appendToolMessage (turn : AgentTurn) (idx : Nat) (content : Bytes) :
    AgentTurn × Except Error Unit :=
  append lib w turn (toolMessage ((turn.calls[idx]?.bind callId).getD []) content)

def toolCompleted (turn : AgentTurn) (result : ToolResult) : AgentTurn :=
  let idx := turn.toolIndex
  match appendToolMessage lib w turn idx result.content with
  | (turn, .error err) => { turn with failing := true, failErr := some err }
  | (turn, .ok ()) =>
    let turn :=
      if w.hasToolResult then fire w turn (.onToolResult (callName turn idx) result) else turn
    { turn with toolIndex := turn.toolIndex + 1 }

/-- `agent_tool_done` up to the point where it re-enters the driver. -/
def toolDoneAdvance (turn : AgentTurn) (result : ToolResult) : AgentTurn :=
  let turn := { turn with exec := none }
  if turn.finished then turn else toolCompleted lib w turn result

def syntheticResult (turn : AgentTurn) (content : Bytes) : AgentTurn :=
  toolCompleted lib w turn ⟨content, true⟩

/-- The gate's verdict on a call: the arguments to run with, or the refusal. -/
def consultGate (turn : AgentTurn) (tool : ToolDef) (args : CJson) :
    AgentTurn × Except Bytes CJson :=
  match w.gate with
  | none => (turn, .ok args)
  | some gate =>
    let turn := fire w turn (.gate tool args)
    let reply := gate turn.out tool args
    match reply.decision with
    | .refuse => (turn, .error (reply.refusal.getD (ascii "refused by the tool gate")))
    | .approve => (turn, .ok (reply.rewrite.getD args))

/-- `execute`, with the key of the call; the handle it returns is the key of an async run. -/
def runTool (turn : AgentTurn) (key : CallKey) (tool : ToolDef) (args : CJson) :
    AgentTurn × Option CallKey :=
  let turn := fire w turn (.execute key tool args)
  match w.execute turn.out tool args with
  -- in_driver is set: an inline completion does not re-enter the driver
  | .inline result => (toolDoneAdvance lib w (turn.emit (.toolDone key result)) result, none)
  | .async => ({ turn with tools := key :: turn.tools }, some key)

def startTool (turn : AgentTurn) (idx : Nat) : AgentTurn × Option CallKey :=
  let function := turn.calls[idx]?.bind fun call => jsonGetObj call (ascii "function")
  let name := function.bind fun f => jsonGetCstr f (ascii "name")
  let argsText := (function.bind fun f => jsonGetCstr f (ascii "arguments")).getD []
  match name.bind (w.lookup turn.out) with
  | none =>
    (syntheticResult lib w turn (ascii "unknown tool: " ++ name.getD (ascii "(unnamed)")), none)
  | some tool =>
    -- a zero-fragment arguments string means "no arguments"
    let argsText := if argsText = [] then ascii "\x7b\x7d" else argsText
    match jsonParse lib argsText kAgentArgsCap with
    | .error _ =>
      (syntheticResult lib w turn (tool.name ++ ascii ": arguments are not valid JSON"), none)
    | .ok args =>
      match consultGate w turn tool args with
      | (turn, .error refusal) => (syntheticResult lib w turn refusal, none)
      | (turn, .ok args) =>
        let turn := if w.hasToolStart then fire w turn (.onToolStart tool.name args) else turn
        runTool lib w turn (turn.step, idx) tool args

/-- Answers whatever the cancellation left open; at most `left` calls are. -/
def synthesize (turn : AgentTurn) : (left : Nat) → AgentTurn
  | 0 => turn
  | left + 1 =>
    if turn.toolIndex < turn.calls.length then
      match appendToolMessage lib w turn turn.toolIndex (ascii "[interrupted]") with
      -- poisoned session: the resume repair owns the file from here
      | (turn, .error _) => turn
      | (turn, .ok ()) => synthesize { turn with toolIndex := turn.toolIndex + 1 } left
    else turn

def finishWithSynthetics (turn : AgentTurn) : AgentTurn :=
  finishTurn (synthesize lib w turn (turn.calls.length - turn.toolIndex)) .interrupted none

/-- A signed 64-bit result; what an overflow gives is the compiler's choice. -/
def toInt64 (n : Int) : Int :=
  if -2 ^ 63 ≤ n ∧ n < 2 ^ 63 then n else (w.overflow n).toInt

def contextBudgetSpent (turn : AgentTurn) : Bool :=
  0 < turn.opts.contextLength && 0 < turn.lastTotalTokens &&
    (toInt64 w (turn.opts.contextLength * turn.contextPct)).tdiv 100 ≤ turn.lastTotalTokens

def armStepTimer (turn : AgentTurn) : AgentTurn :=
  if w.timerStarts turn.out then { turn with timer := true }
  else finishTurn turn .failed (some ⟨.exception, ascii "agent: step timer failed"⟩)

def nextStep (turn : AgentTurn) : AgentTurn :=
  let turn := { turn with step := turn.step + 1 }
  if turn.stepCap ≤ turn.step then finishTurn turn .stepCap none
  else if contextBudgetSpent w turn then finishTurn turn .contextLimit none
  else armStepTimer w turn

/-- The trampoline, for at most `left` more calls, with whether it stopped at an async tool. -/
def driveLoop (turn : AgentTurn) : (left : Nat) → AgentTurn × Bool
  | 0 => (turn, false)
  | left + 1 =>
    if turn.toolIndex < turn.calls.length ∧ ¬ turn.canceling ∧ ¬ turn.failing then
      match startTool lib w turn turn.toolIndex with
      | (turn, some key) => ({ turn with exec := some key }, true)
      | (turn, none) => driveLoop turn left
    else (turn, false)

def driveTools (turn : AgentTurn) : AgentTurn :=
  match driveLoop lib w { turn with inDriver := true } (turn.calls.length - turn.toolIndex) with
  | (turn, true) => { turn with inDriver := false }
  | (turn, false) =>
    let turn := { turn with inDriver := false }
    if turn.failing then finishTurn turn .failed turn.failErr
    else if turn.canceling then finishWithSynthetics lib w turn
    else nextStep w turn

def agentToolDone (turn : AgentTurn) (result : ToolResult) : AgentTurn :=
  if turn.finished then { turn with exec := none }
  else
    let turn := toolDoneAdvance lib w turn result
    if turn.inDriver then turn else driveTools lib w turn

def providerOnText (turn : AgentTurn) (text : Bytes) : AgentTurn :=
  if w.hasText then fire w turn (.onText text) else turn

def contextNotice (turn : AgentTurn) : Bytes :=
  let pct := (toInt64 w (turn.lastTotalTokens * 100)).tdiv turn.opts.contextLength
  (ascii "context window " ++ decimalInt (pct.bmod (2 ^ 32)) ++ ascii "% full (" ++
    decimalInt turn.lastTotalTokens ++ ascii "/" ++ decimalInt turn.opts.contextLength ++
    ascii " tokens)").take 127

def maybeWarnContext (turn : AgentTurn) : AgentTurn :=
  if turn.opts.contextLength ≤ 0 ∨ turn.contextWarned ∨ turn.contextWarnPct ≤ 0 ∨
      ¬ w.hasNotice ∨ turn.lastTotalTokens ≤ 0 then turn
  else if turn.lastTotalTokens <
      (toInt64 w (turn.opts.contextLength * turn.contextWarnPct)).tdiv 100 then turn
  else fire w { turn with contextWarned := true } (.onNotice (contextNotice w turn))

def toolCalls (msg : CJson) : List CJson :=
  ((jsonGetArr msg (ascii "tool_calls")).map CJson.children).getD []

def noteUsage (turn : AgentTurn) : Option Usage → AgentTurn
  | some usage =>
    if 0 < usage.totalTokens then { turn with lastTotalTokens := usage.totalTokens } else turn
  | none => turn

def providerOnDone (turn : AgentTurn) (message : CJson) (usage : Option Usage) : AgentTurn :=
  let turn := maybeWarnContext w (noteUsage { turn with stream := none } usage)
  match append lib w turn message with
  | (turn, .error err) => finishTurn turn .failed (some err)
  | (turn, .ok ()) =>
    -- the model completed; Done even if a cancel raced the final chunk
    if toolCalls message = [] then finishTurn turn .done none
    else
      let turn := { turn with calls := toolCalls message, toolIndex := 0 }
      if turn.cancelRequested then finishWithSynthetics lib w { turn with canceling := true }
      else driveTools lib w turn

def requestMessages (turn : AgentTurn) : List CJson :=
  match turn.systemPrompt with
  | some prompt =>
    jsonAddCstr (jsonAddCstr jsonNewObj (ascii "role") (ascii "system"))
      (ascii "content") prompt :: turn.session.messages
  | none => turn.session.messages

def requestOpts (turn : AgentTurn) (tools : CJson) : OpenrouterOpts where
  model := turn.opts.model
  maxTokens := 0
  messages := .array (requestMessages turn)
  tools := some tools
  apiKey := turn.opts.apiKey

def issueRequest (turn : AgentTurn) : AgentTurn × Except Error Unit :=
  match w.buildTools turn.out with
  | .error err => (turn, .error err)
  | .ok tools =>
    let id := turn.out.length
    let turn := turn.emit (.request (requestOpts turn tools))
    match w.openStream turn.out (requestOpts turn tools) with
    | .refused err => ({ turn with stream := none }, .error err)
    | .failed err => ({ providerOnError turn err with stream := some id }, .ok ())
    | .opened => ({ turn with stream := some id, streams := id :: turn.streams }, .ok ())

def stepTimerCb (turn : AgentTurn) : AgentTurn :=
  if turn.canceling ∨ turn.cancelRequested then finishTurn turn .interrupted none
  else
    match issueRequest w turn with
    | (turn, .error err) => finishTurn turn .failed (some err)
    | (turn, .ok ()) => turn

def userMessage (text : Bytes) : CJson :=
  jsonAddStr (jsonAddCstr jsonNewObj (ascii "role") (ascii "user")) (ascii "content") text

def newTurn (opts : AgentOpts) (session : SessionState) (store : OptionStore) (env : Env) :
    AgentTurn where
  opts := opts
  session := session
  systemPrompt := resolveSystemPrompt store env
  step := 0
  stepCap := resolveStepCap store env
  contextPct := resolveContextPct store env
  contextWarnPct := resolveContextWarnPct store env
  lastTotalTokens := 0
  contextWarned := false
  stream := none
  exec := none
  timer := false
  calls := []
  toolIndex := 0
  inDriver := false
  cancelRequested := false
  canceling := false
  failing := false
  failErr := none
  finished := false
  streams := []
  tools := []
  out := []

/-- The turn with the session as it is left, and the error when no turn is running. -/
def agentTurnStart (opts : AgentOpts) (session : SessionState) (store : OptionStore) (env : Env)
    (userText : Bytes) (timerInits : Bool) : AgentTurn × Except Error Unit :=
  let turn := newTurn opts session store env
  if userText = [] then (turn, .error ⟨.validation, ascii "agent: user text is empty"⟩)
  else
    match append lib w turn (userMessage userText) with
    | (turn, .error err) => (turn, .error err)
    | (turn, .ok ()) =>
      if ¬ timerInits then (turn, .error ⟨.exception, ascii "agent: step timer init failed"⟩)
      else if w.timerStarts turn.out then ({ turn with timer := true }, .ok ())
      else (turn, .error ⟨.exception, ascii "agent: step timer start failed"⟩)

/-- What the provider hands to `on_done`: an assistant message whose calls carry string ids. -/
structure AssistantMessage where
  json : CJson
  role : jsonGetCstr json (ascii "role") = some (ascii "assistant")
  ids : ∀ call ∈ toolCalls json, (callId call).isSome

inductive TurnInput
  | stepTimer
  | text (id : Nat) (text : Bytes)
  | done (id : Nat) (message : AssistantMessage) (usage : Option Usage)
  | error (id : Nat) (err : Error)
  | toolDone (key : CallKey) (result : ToolResult)
  | cancel

/-- One step of the loop. The timer fires only when armed, a stream calls back only until its
terminal callback, and a tool calls `done` once; `none` is an event that cannot come. -/
def step (turn : AgentTurn) : TurnInput → Option AgentTurn
  | .stepTimer => if turn.timer then some (stepTimerCb w { turn with timer := false }) else none
  | .text id text => if id ∈ turn.streams then some (providerOnText w turn text) else none
  | .done id message usage =>
    if id ∈ turn.streams then
      some (providerOnDone lib w { turn with streams := turn.streams.erase id } message.json usage)
    else none
  | .error id err =>
    if id ∈ turn.streams then
      some (providerOnError { turn with streams := turn.streams.erase id } err)
    else none
  | .toolDone key result =>
    if key ∈ turn.tools then
      some (agentToolDone lib w
        ({ turn with tools := turn.tools.erase key }.emit (.toolDone key result)) result)
    else none
  | .cancel => some (agentTurnCancel w turn)

end Mua.Agent
