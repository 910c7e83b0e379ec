import Mua.Agent
import Mua.Lib.Handles

/-! # The bash tool

The asynchronous part of tools.c, from the creation of the `ToolExec` on. An
exec owns three loop handles: the process, the merged output pipe and one timer,
first the timeout and later the grace wait. `Loop` is the exec together with
what libuv and the caller hold of it; the events of `step` are guarded by what
libuv promises, never by the fields of the exec.
-/

namespace Mua.Bash

open Agent Handles Session

def kToolBashOutputCap : Nat := 64 * 1024

inductive HandleName
  | proc
  | out
  | timer
  deriving DecidableEq, Repr

instance : Fintype HandleName where
  elems := {.proc, .out, .timer}
  complete h := by cases h <;> simp

inductive TimerRole
  | timeout
  | grace
  deriving DecidableEq, Repr

structure ToolExec where
  output : Buf kToolBashOutputCap := bufInit kToolBashOutputCap
  dropped : Nat := 0
  nuls : Nat := 0
  timeoutMs : Int
  exitStatus : Int := 0
  termSignal : Int := 0
  exited : Bool := false
  pipeDone : Bool := false
  timedOut : Bool := false
  canceled : Bool := false
  doneFired : Bool := false
  timerClosing : Bool := false
  graceArmed : Bool := false
  graceForced : Bool := false
  closesDone : Nat := 0
  closesExpected : Nat := 0
  deriving DecidableEq

def note (text : Bytes) : Bytes := (FixedStr.truncate 95 text).data

def outcomeNotes (exec : ToolExec) : List Bytes :=
  if exec.timedOut then
    [note (ascii "[bash: timed out after " ++ decimalInt exec.timeoutMs ++ ascii " ms (SIGKILL)]")]
  else if exec.canceled then [note (ascii "[bash: canceled]")]
  else if exec.termSignal ≠ 0 then
    [note (ascii "[bash: killed by signal " ++ decimalInt exec.termSignal ++ ascii "]")]
  else if exec.exitStatus ≠ 0 then
    [note (ascii "[bash: exit code " ++ decimalInt exec.exitStatus ++ ascii "]")]
  else []

def notes (exec : ToolExec) : List Bytes :=
  outcomeNotes exec ++
    (if 0 < exec.dropped then [note (ascii "[bash: output truncated at 64 KiB]")] else []) ++
    (if exec.graceForced then
      [note (ascii ("[bash: stopped reading 500 ms after exit; " ++
        "a background process still holds the output pipe]"))]
    else []) ++
    if 0 < exec.nuls then
      [note (ascii "[bash: " ++ decimal exec.nuls ++ ascii " NUL bytes removed]")]
    else []

def bashContent (exec : ToolExec) : Bytes :=
  (notes exec).foldl (fun content n => if content = [] then n else content ++ 10 :: n)
    exec.output.data

/-- A stretch without NUL: what fits is kept, the rest counted. -/
def appendSegment (exec : ToolExec) (seg : Bytes) : ToolExec :=
  let take := min seg.length (kToolBashOutputCap - exec.output.data.length)
  { exec with
    output := (bufAppend exec.output (seg.take take)).getD exec.output
    dropped := (exec.dropped + (seg.length - take)) % 2 ^ 64 }

def bashAppendOutput (exec : ToolExec) (bytes : Bytes) : ToolExec :=
  if _hLoop : bytes = [] then exec
  else
    let seg := bytes.takeWhile fun b => b != 0
    match _hNul : bytes.drop seg.length with
    | [] => appendSegment exec seg
    | _ :: rest =>
      let exec := appendSegment exec seg
      bashAppendOutput { exec with nuls := (exec.nuls + 1) % 2 ^ 64 } rest
termination_by bytes.length
decreasing_by
  have hRest := congrArg List.length _hNul
  simp only [List.length_drop, List.length_cons] at hRest
  omega

structure Loop where
  exec : ToolExec
  handles : Table HandleName := fun _ => .fresh
  /-- A child was spawned and its exit is not yet reported. -/
  running : Bool := false
  reading : Bool := false
  armed : Option TimerRole := none
  /-- The caller has the exec, and so may cancel it. -/
  returned : Bool := false
  kills : Nat := 0
  results : List ToolResult := []
  frees : Nat := 0
  ended : Bool := false
  /-- The grace timer has fired or could not be started. -/
  graceOver : Bool := false

namespace Loop

def uvClose (w : Loop) (h : HandleName) : Loop := { w with handles := w.handles.close h }

def uvTimerStop (w : Loop) : Loop := { w with armed := none }

def uvProcessKill (w : Loop) : Loop := { w with kills := w.kills + 1 }

def done (w : Loop) (result : ToolResult) : Loop := { w with results := w.results ++ [result] }

def fail (w : Loop) (msg : Bytes) : Loop := w.done ⟨msg, true⟩

def free (w : Loop) : Loop := { w with frees := w.frees + 1 }

end Loop

def bashCloseCb (w : Loop) : Loop :=
  let w := { w with exec.closesDone := w.exec.closesDone + 1 }
  if w.exec.closesDone < w.exec.closesExpected then w
  else if w.exec.doneFired then w.free
  else
    let w := { w with exec.doneFired := true }
    let isError := w.exec.timedOut || w.exec.canceled || w.exec.termSignal != 0 ||
      w.exec.exitStatus != 0
    (w.done ⟨bashContent w.exec, isError⟩).free

/-- `timerStarts` is the answer of libuv should the grace timer be started. -/
def bashMaybeFinish (timerStarts : Bool) (w : Loop) : Loop :=
  if !w.exec.exited then w
  else if w.exec.pipeDone then
    if !w.exec.timerClosing then
      { w with exec.timerClosing := true }.uvTimerStop.uvClose .timer
    else w
  else if !w.exec.graceArmed then
    let w := { w with exec.graceArmed := true }.uvTimerStop
    if timerStarts then { w with armed := some .grace }
    else
      let w := { w with graceOver := true }
      let w := { w with exec.graceForced := true, exec.pipeDone := true }.uvClose .out
      { w with exec.timerClosing := true }.uvClose .timer
  else w

def bashForcePipeClose (timerStarts : Bool) (w : Loop) : Loop :=
  if w.exec.pipeDone then w
  else bashMaybeFinish timerStarts ({ w with exec.pipeDone := true }.uvClose .out)

def bashGraceCb (timerStarts : Bool) (w : Loop) : Loop :=
  bashForcePipeClose timerStarts { w with exec.graceForced := true }

def bashReadCb (timerStarts : Bool) (nread : Int) (scratch : Bytes) (w : Loop) : Loop :=
  if 0 < nread then { w with exec := bashAppendOutput w.exec (scratch.take nread.toNat) }
  else if nread < 0 then bashForcePipeClose timerStarts w
  else w

def bashExitCb (timerStarts : Bool) (exitStatus termSignal : Int) (w : Loop) : Loop :=
  let w := { w with
    exec.exited := true
    exec.exitStatus := exitStatus
    exec.termSignal := termSignal }
  bashMaybeFinish timerStarts (w.uvClose .proc)

def bashTimeoutCb (w : Loop) : Loop :=
  if w.exec.exited then w else { w with exec.timedOut := true }.uvProcessKill

def toolsCancel (timerStarts : Bool) (w : Loop) : Loop :=
  let w := { w with exec.canceled := true }
  if !w.exec.exited then w.uvProcessKill else bashForcePipeClose timerStarts w

/-- What the system answers during the setup; a text is the one of a failure. -/
structure Setup where
  timeoutMs : Int
  pipeInit : Bool
  pipeOpen : Bool
  timerInit : Bool
  spawn : Option Bytes
  readStart : Option Bytes
  timerStart : Option Bytes
  deriving DecidableEq

/-- Reading and the timeout, after the spawn; the verdict tells whether both are armed. -/
def bashArm (setup : Setup) (w : Loop) : Loop × Bool :=
  match setup.readStart with
  | some reason =>
    let w := { w with exec.doneFired := true }.fail (ascii "bash: read start: " ++ reason)
    let w := { w.uvProcessKill with exec.pipeDone := true }
    (w.uvClose .out, false)
  | none =>
    let w := { w with reading := true }
    match setup.timerStart with
    | some reason =>
      let w := { w with exec.doneFired := true }.fail (ascii "bash: timer start: " ++ reason)
      (w.uvProcessKill, false)
    | none => ({ w with armed := some .timeout }, true)

/-- From the creation of the exec on: the command is there and the pipe is made. -/
def bashExecute (setup : Setup) : Loop :=
  let w : Loop := { exec := { timeoutMs := setup.timeoutMs } }
  if !setup.pipeInit then (w.fail (ascii "bash: pipe handle init failed")).free
  else
    let w := { w with handles := w.handles.register .out, exec.closesExpected := 1 }
    if !setup.pipeOpen then
      let w := { w with exec.doneFired := true }.fail (ascii "bash: pipe open failed")
      w.uvClose .out
    else if !setup.timerInit then
      let w := { w with exec.doneFired := true }.fail (ascii "bash: timer init failed")
      w.uvClose .out
    else
      let w := { w with handles := w.handles.register .timer, exec.closesExpected := 2 }
      -- uv_spawn registers the process handle whether it fails or not
      let w := { w with handles := w.handles.register .proc }
      match setup.spawn with
      | some reason =>
        let w := { w with exec.closesExpected := 3, exec.doneFired := true }
        let w := w.fail (ascii "bash: spawn: " ++ reason)
        let w := (w.uvClose .proc).uvClose .out
        { w with exec.timerClosing := true }.uvClose .timer
      | none =>
        let w := { w with exec.closesExpected := 3, running := true }
        let (w, armed) := bashArm setup w
        if armed then { w with returned := true } else w

inductive Event
  | exit (timerStarts : Bool) (exitStatus termSignal : Int)
  | read (timerStarts : Bool) (nread : Int) (scratch : Bytes)
  | timer (timerStarts : Bool)
  | cancel (timerStarts : Bool)
  | closed (h : HandleName)
  deriving DecidableEq, Repr

/-- A handle that is closing gets no event but the end of its close; a child exits once; the
timer fires in the role it was last started with; a cancel comes before the result. -/
def step (w : Loop) : Event → Option Loop
  | .exit timerStarts exitStatus termSignal =>
    if w.running && !(w.handles .proc).closing then
      some (bashExitCb timerStarts exitStatus termSignal { w with running := false })
    else none
  | .read timerStarts nread scratch =>
    if w.reading && !(w.handles .out).closing then
      some (bashReadCb timerStarts nread scratch { w with ended := w.ended || decide (nread < 0) })
    else none
  | .timer timerStarts =>
    if (w.handles .timer).closing then none
    else
      match w.armed with
      | none => none
      | some .timeout => some (bashTimeoutCb { w with armed := none })
      | some .grace => some (bashGraceCb timerStarts { w with armed := none, graceOver := true })
  | .cancel timerStarts =>
    if w.returned && w.results.isEmpty then some (toolsCancel timerStarts w) else none
  | .closed h =>
    if (w.handles h).pending then some (bashCloseCb { w with handles := w.handles.answer h })
    else none

end Mua.Bash
