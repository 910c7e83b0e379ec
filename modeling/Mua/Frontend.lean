import Mua.CancelRun

/-! # The turns of a process

`run_agent` and `run_one_turn` of main.c around the turn loop: each turn has a
`TurnCtx` that dies when `run_one_turn` returns, and all of them share a session
that is freed before the HTTP client is closed and the loop is drained.
-/

namespace Mua.Frontend

open Session Openrouter Agent

variable (lib : JsonLib)

structure Started where
  world : World
  turn : AgentTurn

/-- A turn of which `run_one_turn` has returned, with its history at that point, and at the
point where the session was freed. -/
structure Returned where
  started : Started
  atReturn : History
  atFree : Option History

/-- `stopping` is libuv's stop flag, `hardStop` that of `run_one_turn`. -/
structure Process where
  session : SessionState
  running : Option Started
  returned : List Returned
  sigintCount : Nat
  stopping : Bool
  hardStop : Bool
  freed : Bool
  closed : Bool

def Process.new (session : SessionState) : Process where
  session := session
  running := none
  returned := []
  sigintCount := 0
  stopping := false
  hardStop := false
  freed := false
  closed := false

inductive ProcessEvent
  | runOneTurn (w : World) (opts : AgentOpts) (store : OptionStore) (env : Env) (text : Bytes)
      (timerInits : Bool)
  /-- An event of the turn that runs: its timer, its stream, its tool. -/
  | event (input : TurnInput)
  | sigint
  | loopReturns
  | sessionFree
  | httpClientClose
  /-- The same for a turn that has returned, in whatever loop runs then. -/
  | late (i : Nat) (input : TurnInput)

/-- An event of the loop. A turn is cancelled by SIGINT and by its own callbacks only. -/
def Started.step (s : Started) (input : TurnInput) : Option Started :=
  match input with
  | .cancel => none
  | input => (Agent.step lib s.world s.turn input).map fun turn => { s with turn }

/-- What keeps `loop_run` from returning. -/
def live (turn : AgentTurn) : Bool := turn.timer || !turn.streams.isEmpty || !turn.tools.isEmpty

/-- `http_client_close` finishes every request; a stream of a cancelled turn reports it so. -/
def Started.abort (s : Started) : Started :=
  s.turn.streams.foldl
    (fun s id => (s.step lib (.error id ⟨.exception, ascii "canceled"⟩)).getD s) s

/-- loop.c: the first SIGINT of a turn cancels it, every other one stops the loop. -/
def sigintCb (p : Process) : Process :=
  let p := { p with sigintCount := p.sigintCount + 1 }
  match p.running with
  | some s =>
    -- finish_turn has cleared the callback
    if ¬ s.turn.finished ∧ p.sigintCount = 1 then
      { p with running := some { s with turn := agentTurnCancel s.world s.turn } }
    else { p with stopping := true }
  | none => { p with stopping := true }

/-- `run_one_turn` returns, hard where the turn has no outcome. -/
def Process.leave (p : Process) (s : Started) : Process :=
  { p with
    session := s.turn.session
    running := none
    returned := p.returned ++ [⟨s, s.turn.out, none⟩]
    stopping := false
    hardStop := !s.turn.finished }

def Process.free (p : Process) : Process :=
  { p with
    freed := true
    returned := p.returned.map fun r => { r with atFree := some r.started.turn.out } }

def Process.setReturned (p : Process) (i : Nat) (r : Returned) : Process :=
  { p with returned := p.returned.set i r }

def processStep (p : Process) : ProcessEvent → Option Process
  | .runOneTurn w opts store env text timerInits =>
    -- a hard stop leaves the REPL
    if p.running.isSome ∨ p.hardStop ∨ p.freed then none
    else
      match agentTurnStart lib w opts p.session store env text timerInits with
      | (turn, .ok ()) => some { p with running := some ⟨w, turn⟩, sigintCount := 0, stopping := false }
      | (turn, .error _) => some { p with session := turn.session }
  | .event input =>
    p.running.bind fun s => (s.step lib input).map fun s => { p with running := some s }
  | .sigint => some (sigintCb p)
  | .loopReturns =>
    p.running.bind fun s =>
      if p.stopping ∨ ¬ live s.turn then some (p.leave s) else none
  | .sessionFree =>
    if p.running.isSome ∨ p.freed then none else some p.free
  | .httpClientClose =>
    if ¬ p.freed ∨ p.closed then none
    else
      some { p with
        closed := true
        returned := p.returned.map fun r => { r with started := r.started.abort lib } }
  | .late i input =>
    (p.returned[i]?).bind fun r => (r.started.step lib input).map fun s =>
      p.setReturned i { r with started := s }

/-- The callbacks that run on the `TurnCtx`. -/
def isFrontend : AgentOutput → Bool
  | .onText _ | .onToolStart .. | .onToolResult .. | .onNotice _ | .onFinish .. => true
  | _ => false

/-- No callback since its `TurnCtx` is dead, no append since the session is freed. -/
def Returned.Silent (r : Returned) : Prop :=
  (∀ o ∈ r.started.turn.out.drop r.atReturn.length, isFrontend o = false) ∧
    ∀ out, r.atFree = some out → ∀ o ∈ r.started.turn.out.drop out.length, o.isAppend = false

def Finishes (p : Process) : ProcessEvent → Prop
  | .loopReturns => p.stopping = true → ∀ s, p.running = some s → s.turn.finished = true
  | _ => True

def AllFinish (p : Process) : List ProcessEvent → Prop
  | [] => True
  | e :: es => Finishes p e ∧ ∀ p', processStep lib p e = some p' → AllFinish p' es

variable {lib} {p p' : Process} {e : ProcessEvent} {es : List ProcessEvent} {s s' : Started}

abbrev InPhase (lib : JsonLib) (s : Started) : Prop := ∃ cap, Phase (noAccount lib) cap s.turn

abbrev IsOver (lib : JsonLib) (s : Started) : Prop := ∃ cap, Over (noAccount lib) cap s.turn

theorem Started.step_some {input : TurnInput} (h : s.step lib input = some s') :
    Agent.step lib s.world s.turn input = some s'.turn := by
  unfold Started.step at h
  split at h
  · cases h
  · obtain ⟨turn, hStep, rfl⟩ := Option.map_eq_some_iff.mp h
    exact hStep

theorem Started.step_phase {input : TurnInput} (hPhase : InPhase lib s)
    (h : s.step lib input = some s') : InPhase lib s' := by
  obtain ⟨cap, hPhase⟩ := hPhase
  exact ⟨cap, Agent.step_phase _ hPhase (s.step_some h)⟩

theorem Started.step_over {input : TurnInput} (hOver : IsOver lib s)
    (h : s.step lib input = some s') : s'.turn = s.turn := by
  obtain ⟨cap, hOver⟩ := hOver
  exact hOver.step _ (s.step_some h)

theorem Started.abort_over (hOver : IsOver lib s) : s.abort lib = s := by
  obtain ⟨cap, hOver⟩ := hOver
  rw [Started.abort, hOver.streams]
  rfl

theorem InPhase.over (hPhase : InPhase lib s)
    (h : s.turn.finished = true ∨ live s.turn = false) : IsOver lib s := by
  obtain ⟨cap, hPhase⟩ := hPhase
  have hNot : s.turn.finished = false → live s.turn = true → False := by
    intro hUnfinished hLive
    rcases h with h | h
    · exact absurd (hUnfinished.symm.trans h) (by decide)
    · exact absurd (hLive.symm.trans h) (by decide)
  cases hPhase with
  | waiting h => exact (hNot h.unfinished (by simp [live, h.timer])).elim
  | streaming id h => exact (hNot h.unfinished (by simp [live, h.streams])).elim
  | tooling key h hExec => exact (hNot h.unfinished (by simp [live, h.tools])).elim
  | finished h => exact ⟨cap, h⟩

/-- The turn that runs is in a phase of the turn loop, and has its session. -/
def Sound (lib : JsonLib) (p : Process) : Prop :=
  ∀ s, p.running = some s → InPhase lib s ∧ p.freed = false

/-- The turns that have returned are over, and have stayed as they were. -/
def Settled (lib : JsonLib) (p : Process) : Prop :=
  ∀ r ∈ p.returned, IsOver lib r.started ∧ r.started.turn.out = r.atReturn ∧
    ∀ out, r.atFree = some out → r.started.turn.out = out

theorem sigintCb_keeps (p : Process) :
    (sigintCb p).returned = p.returned ∧ (sigintCb p).freed = p.freed := by
  unfold sigintCb
  dsimp only
  split
  · split
    · exact ⟨rfl, rfl⟩
    · exact ⟨rfl, rfl⟩
  · exact ⟨rfl, rfl⟩

theorem sigintCb_sound (h : Sound lib p) : Sound lib (sigintCb p) := by
  intro s hRunning
  rw [(sigintCb_keeps p).2]
  unfold sigintCb at hRunning
  dsimp only at hRunning
  split at hRunning
  · rename_i s' hOld
    obtain ⟨⟨cap, hPhase⟩, hFree⟩ := h s' hOld
    split at hRunning
    · cases hRunning
      have hStep : Agent.step lib s'.world s'.turn .cancel =
          some (agentTurnCancel s'.world s'.turn) := rfl
      exact ⟨⟨cap, Agent.step_phase _ hPhase hStep⟩, hFree⟩
    · exact h s (hOld ▸ hRunning)
  · rename_i hNone
    rw [hNone] at hRunning
    cases hRunning

theorem processStep_sound (h : Sound lib p) (hStep : processStep lib p e = some p') :
    Sound lib p' := by
  intro s hRunning
  cases e with
  | runOneTurn w opts store env text timerInits =>
    rw [processStep] at hStep
    split at hStep
    · cases hStep
    · rename_i hFree
      split at hStep
      · rename_i turn hStart
        cases hStep
        cases hRunning
        refine ⟨⟨_, .waiting (agentTurnStart_waiting w hStart trivial)⟩, ?_⟩
        simpa using fun hFreed => hFree (.inr (.inr hFreed))
      · cases hStep
        exact h s hRunning
  | event input =>
    obtain ⟨s', hOld, hSome⟩ := Option.bind_eq_some_iff.mp hStep
    obtain ⟨s'', hInput, rfl⟩ := Option.map_eq_some_iff.mp hSome
    cases hRunning
    exact ⟨s'.step_phase (h s' hOld).1 hInput, (h s' hOld).2⟩
  | sigint =>
    cases hStep
    exact sigintCb_sound h s hRunning
  | loopReturns =>
    obtain ⟨s', hOld, hSome⟩ := Option.bind_eq_some_iff.mp hStep
    split at hSome
    · cases hSome
      cases hRunning
    · cases hSome
  | sessionFree =>
    rw [processStep] at hStep
    split at hStep
    · cases hStep
    · rename_i hNone
      cases hStep
      exact absurd (.inl (Option.isSome_of_eq_some hRunning)) hNone
  | httpClientClose =>
    rw [processStep] at hStep
    split at hStep
    · cases hStep
    · cases hStep
      exact h s hRunning
  | late i input =>
    obtain ⟨r, hGet, hSome⟩ := Option.bind_eq_some_iff.mp hStep
    obtain ⟨s', hInput, rfl⟩ := Option.map_eq_some_iff.mp hSome
    exact h s hRunning

theorem processStep_settled (hSound : Sound lib p) (h : Settled lib p) (hFinishes : Finishes p e)
    (hStep : processStep lib p e = some p') : Settled lib p' := by
  cases e with
  | runOneTurn w opts store env text timerInits =>
    rw [processStep] at hStep
    split at hStep
    · cases hStep
    · split at hStep
      · cases hStep
        exact h
      · cases hStep
        exact h
  | event input =>
    obtain ⟨s', hOld, hSome⟩ := Option.bind_eq_some_iff.mp hStep
    obtain ⟨s'', hInput, rfl⟩ := Option.map_eq_some_iff.mp hSome
    exact h
  | sigint =>
    cases hStep
    intro r hMem
    rw [(sigintCb_keeps p).1] at hMem
    exact h r hMem
  | loopReturns =>
    obtain ⟨s, hOld, hSome⟩ := Option.bind_eq_some_iff.mp hStep
    split at hSome
    · rename_i hReturns
      cases hSome
      intro r hMem
      rcases List.mem_append.mp hMem with hMem | hMem
      · exact h r hMem
      · obtain rfl := List.mem_singleton.mp hMem
        -- the loop returns by itself when nothing is live, and else with the turn finished
        have hEnded : s.turn.finished = true ∨ live s.turn = false := by
          rcases hReturns with hStop | hIdle
          · exact .inl (hFinishes hStop s hOld)
          · exact .inr (Bool.not_eq_true _ ▸ hIdle)
        exact ⟨InPhase.over (hSound s hOld).1 hEnded, rfl, nofun⟩
    · cases hSome
  | sessionFree =>
    rw [processStep] at hStep
    split at hStep
    · cases hStep
    · cases hStep
      intro r hMem
      obtain ⟨r', hMem', rfl⟩ := List.mem_map.mp hMem
      obtain ⟨hOver, hSame, -⟩ := h r' hMem'
      refine ⟨hOver, hSame, ?_⟩
      rintro out ⟨⟩
      rfl
  | httpClientClose =>
    rw [processStep] at hStep
    split at hStep
    · cases hStep
    · cases hStep
      intro r hMem
      obtain ⟨r', hMem', rfl⟩ := List.mem_map.mp hMem
      have hOld := h r' hMem'
      rw [r'.started.abort_over hOld.1]
      exact hOld
  | late i input =>
    obtain ⟨r, hGet, hSome⟩ := Option.bind_eq_some_iff.mp hStep
    obtain ⟨s', hInput, rfl⟩ := Option.map_eq_some_iff.mp hSome
    obtain ⟨hOver, hSame, hFree⟩ := h r (List.mem_of_getElem? hGet)
    have hTurn : s'.turn = r.started.turn := r.started.step_over hOver hInput
    intro r' hMem
    rcases List.mem_or_eq_of_mem_set hMem with hMem | rfl
    · exact h r' hMem
    · unfold IsOver
      rw [hTurn]
      exact ⟨hOver, hSame, hFree⟩

theorem Settled.silent (h : Settled lib p) : ∀ r ∈ p.returned, r.Silent := by
  intro r hMem
  obtain ⟨-, hSame, hFree⟩ := h r hMem
  refine ⟨?_, fun out hOut => ?_⟩
  · rw [hSame, List.drop_length]
    exact nofun
  · rw [← hFree out hOut, List.drop_length]
    exact nofun

theorem run_sound (h : Sound lib p) (hRun : Run.run (processStep lib) p es = some p') :
    Sound lib p' :=
  Run.run_invariant (fun _ _ _ => processStep_sound) h hRun

theorem run_settled (hSound : Sound lib p) (h : Settled lib p) (hFinish : AllFinish lib p es)
    (hRun : Run.run (processStep lib) p es = some p') : Settled lib p' := by
  induction es generalizing p with
  | nil => exact Option.some.inj hRun ▸ h
  | cons e es ih =>
    obtain ⟨mid, hStep, hRest⟩ := Run.run_cons_eq_some.mp hRun
    exact ih (processStep_sound hSound hStep) (processStep_settled hSound h hFinish.1 hStep)
      (hFinish.2 mid hStep) hRest

theorem sound_new (session : SessionState) : Sound lib (.new session) := by
  intro s hRunning
  cases hRunning

theorem settled_new (session : SessionState) : Settled lib (.new session) :=
  fun _ hMem => (List.not_mem_nil hMem).elim

section Unfinished

variable {w : World} {turn turn' : AgentTurn}

theorem over_talks {cap : Int} (hNone : finishes turn.out = 0) (hPrefix : turn.out <+: turn'.out)
    (hOver : Over (noAccount lib) cap turn') :
    ∃ o ∈ turn'.out.drop turn.out.length, isFrontend o = true := by
  obtain ⟨new, hNew⟩ := hPrefix
  obtain ⟨before, outcome, err, hLast, -⟩ := hOver.last
  have hMem : AgentOutput.onFinish outcome err ∈ turn'.out := by
    rw [hLast]
    exact List.mem_append_right before List.mem_cons_self
  have hPos := finishes_pos hMem
  rw [← hNew, finishes_append, hNone, Nat.zero_add] at hPos
  obtain ⟨o, hMem, hFinish⟩ := List.countP_pos_iff.mp hPos
  rw [← hNew, List.drop_left]
  refine ⟨o, hMem, ?_⟩
  cases o with
  | onFinish outcome err => rfl
  | _ => cases hFinish

/-- The answer to a call is an append, whatever comes after it. -/
def Answers (turn turn' : AgentTurn) : Prop :=
  ∃ new, turn'.out = turn.out ++ new ∧ ∃ o ∈ new, o.isAppend = true

theorem Answers.adds {P : AgentOutput → Prop} {a b : AgentTurn} (h : Answers turn a)
    (hAdds : Adds P a b) : Answers turn b := by
  obtain ⟨new, hNew, o, hMem, hAppend⟩ := h
  obtain ⟨more, hMore, -⟩ := hAdds.entries
  refine ⟨new ++ more, ?_, o, List.mem_append_left more hMem, hAppend⟩
  rw [hMore, hNew, List.append_assoc]

theorem answers_kept (lib : JsonLib) (w : World) (turn : AgentTurn) :
    Kept lib w (Answers turn) where
  passive hAdds h := h.adds hAdds
  start idx h := h.adds (startTool_adds lib w _ idx)
  request _ h := h.adds (P := fun _ => True) (Adds.emit _ trivial)

theorem toolCompleted_answers (lib : JsonLib) (w : World) (turn : AgentTurn) (result : ToolResult) :
    Answers turn (toolCompleted lib w turn result) := by
  have hAppend : Answers turn
      (appendToolMessage lib w turn turn.toolIndex result.content).1 :=
    ⟨_, rfl, _, List.mem_singleton_self _, rfl⟩
  unfold toolCompleted
  dsimp only
  split
  · rename_i next err hReply
    rw [hReply] at hAppend
    exact hAppend
  · rename_i next hReply
    rw [hReply] at hAppend
    split
    · have hFire : Adds AgentOutput.passive next
          (fire w next (.onToolResult (callName next turn.toolIndex) result)) :=
        fire_passive w next ⟨rfl, rfl⟩
      have hAnswers := hAppend.adds hFire
      exact hAnswers
    · exact hAppend

theorem agentToolDone_answers (hUnfinished : turn.finished = false) (result : ToolResult) :
    Answers turn (agentToolDone lib w turn result) := by
  have hAdvance : Answers turn (toolDoneAdvance lib w turn result) := by
    unfold toolDoneAdvance
    dsimp only
    rw [if_neg (by simp [hUnfinished])]
    exact toolCompleted_answers lib w { turn with exec := none } result
  unfold agentToolDone
  rw [if_neg (by simp [hUnfinished])]
  dsimp only
  split
  · exact hAdvance
  · exact (answers_kept lib w turn).driveTools hAdvance

/-- A turn that waits or streams is over after an event or two. -/
theorem waits_over {cap : Int} (hPhase : Phase (noAccount lib) cap turn)
    (hTools : turn.tools = []) :
    ∃ inputs turn', (∀ input ∈ inputs, input ≠ .cancel) ∧
      Run.run (Agent.step lib w) turn inputs = some turn' ∧ Over (noAccount lib) cap turn' := by
  have hStream : ∀ {id : Nat} {turn : AgentTurn}, Streaming (noAccount lib) cap id turn →
      ∃ turn', Agent.step lib w turn (.error id ⟨.exception, []⟩) = some turn' ∧
        Over (noAccount lib) cap turn' := by
    intro id turn h
    have hMem : id ∈ turn.streams := h.streams ▸ List.mem_singleton_self id
    exact ⟨_, if_pos hMem, providerOnError_over h.ready _⟩
  cases hPhase with
  | waiting h =>
    have hTimer : Agent.step lib w turn .stepTimer =
        some (stepTimerCb w { turn with timer := false }) := if_pos h.timer
    rcases stepTimerCb_ends w h with hOver | ⟨id, hStreaming⟩
    · refine ⟨[.stepTimer], _, ?_, ?_, hOver⟩
      · rintro input hMem rfl
        cases List.mem_singleton.mp hMem
      · rw [Run.run, hTimer]
        rfl
    · obtain ⟨turn', hStep, hOver⟩ := hStream hStreaming
      refine ⟨[.stepTimer, .error id ⟨.exception, []⟩], turn', ?_, ?_, hOver⟩
      · rintro input hMem rfl
        simp at hMem
      · rw [Run.run, hTimer, Option.bind_some, Run.run, hStep]
        rfl
  | streaming id h =>
    obtain ⟨turn', hStep, hOver⟩ := hStream h
    refine ⟨[.error id ⟨.exception, []⟩], turn', ?_, ?_, hOver⟩
    · rintro input hMem rfl
      cases List.mem_singleton.mp hMem
    · rw [Run.run, hStep]
      rfl
  | tooling key h hExec =>
    rw [h.tools] at hTools
    cases hTools
  | finished h => exact ⟨[], turn, (fun input hMem => by cases hMem), rfl, h⟩

theorem tool_answered (lib : JsonLib) (w : World) {key : CallKey} (hTool : key ∈ turn.tools)
    (hUnfinished : turn.finished = false) :
    ∃ turn', Agent.step lib w turn (.toolDone key ⟨[], false⟩) = some turn' ∧
      ∃ o ∈ turn'.out.drop turn.out.length, o.isAppend = true := by
  refine ⟨_, if_pos hTool, ?_⟩
  let exited := { turn with tools := turn.tools.erase key }.emit (.toolDone key ⟨[], false⟩)
  have hExited : exited.finished = false := hUnfinished
  have hAnswers : Answers exited (agentToolDone lib w exited ⟨[], false⟩) :=
    agentToolDone_answers hExited _
  obtain ⟨new, hNew, o, hMem, hAppend⟩ := hAnswers
  refine ⟨o, ?_, hAppend⟩
  rw [hNew]
  change o ∈ ((turn.out ++ [AgentOutput.toolDone key ⟨[], false⟩]) ++ new).drop turn.out.length
  rw [List.append_assoc, List.drop_left]
  exact List.mem_cons_of_mem _ hMem

end Unfinished

theorem processStep_late {i : Nat} {r : Returned} {input : TurnInput} {turn : AgentTurn}
    (hGet : p.returned[i]? = some r) (hInput : input ≠ .cancel)
    (hStep : Agent.step lib r.started.world r.started.turn input = some turn) :
    processStep lib p (.late i input) =
      some (p.setReturned i { r with started := { r.started with turn := turn } }) := by
  rw [processStep, hGet]
  change ((r.started.step lib input).map _) = _
  have hStarted : r.started.step lib input = some { r.started with turn := turn } := by
    unfold Started.step
    split
    · exact (hInput rfl).elim
    · rw [hStep]
      rfl
  rw [hStarted]
  rfl

theorem setReturned_get {i : Nat} {r : Returned} (hGet : p.returned[i]? = some r) (r' : Returned) :
    (p.setReturned i r').returned[i]? = some r' :=
  List.getElem?_set_self (List.getElem?_eq_some_iff.mp hGet).1

theorem run_late {i : Nat} {r : Returned} {inputs : List TurnInput} {turn : AgentTurn}
    (hGet : p.returned[i]? = some r) (hInputs : ∀ input ∈ inputs, input ≠ .cancel)
    (hRun : Run.run (Agent.step lib r.started.world) r.started.turn inputs = some turn) :
    ∃ p', Run.run (processStep lib) p (inputs.map (.late i)) = some p' ∧
      p'.returned[i]? = some { r with started := { r.started with turn := turn } } := by
  induction inputs generalizing p r with
  | nil =>
    cases hRun
    exact ⟨p, rfl, hGet⟩
  | cons input inputs ih =>
    obtain ⟨mid, hStep, hRest⟩ := Run.run_cons_eq_some.mp hRun
    have hLate := processStep_late hGet (hInputs input List.mem_cons_self) hStep
    obtain ⟨p', hRun', hGet'⟩ := ih
      (setReturned_get hGet { r with started := { r.started with turn := mid } })
      (fun input hMem => hInputs input (List.mem_cons_of_mem _ hMem)) hRest
    refine ⟨p', ?_, hGet'⟩
    rw [List.map_cons, Run.run, hLate]
    exact hRun'

section Talks

variable {turn : AgentTurn} {old : List Returned}

theorem not_silent_of_frontend (r : Returned) {o : AgentOutput}
    (hMem : o ∈ r.started.turn.out.drop r.atReturn.length) (hTalk : isFrontend o = true) :
    ¬r.Silent := by
  intro hSilent
  cases (hSilent.1 o hMem).symm.trans hTalk

theorem waiting_talks (hPhase : InPhase lib s) (hUnfinished : s.turn.finished = false)
    (hTools : s.turn.tools = []) (hReturned : p.returned = old ++ [⟨s, s.turn.out, none⟩]) :
    ∃ more p', Run.run (processStep lib) p more = some p' ∧ ∃ r ∈ p'.returned, ¬r.Silent := by
  obtain ⟨cap, hPhase⟩ := hPhase
  obtain ⟨inputs, turn', hInputs, hRun, hOver⟩ := waits_over (w := s.world) hPhase hTools
  have hNone : finishes s.turn.out = 0 := by
    rcases hPhase.finish with hNone | hDone
    · exact hNone
    · exact absurd (hUnfinished.symm.trans hDone.finished) (by decide)
  have hGet : p.returned[old.length]? = some ⟨s, s.turn.out, none⟩ := by
    rw [hReturned, List.getElem?_concat_length]
  have hPrefix := run_prefix hRun
  obtain ⟨o, hMem, hTalk⟩ := over_talks hNone hPrefix hOver
  obtain ⟨p', hLate, hGet'⟩ := run_late hGet hInputs hRun
  exact ⟨_, p', hLate, _, List.mem_of_getElem? hGet', not_silent_of_frontend _ hMem hTalk⟩

theorem tooling_talks {key : CallKey} (hTool : key ∈ s.turn.tools)
    (hUnfinished : s.turn.finished = false) (hRunning : p.running = none) (hFree : p.freed = false)
    (hReturned : p.returned = old ++ [⟨s, s.turn.out, none⟩]) :
    ∃ more p', Run.run (processStep lib) p more = some p' ∧ ∃ r ∈ p'.returned, ¬r.Silent := by
  obtain ⟨turn', hStep, o, hMem, hAppend⟩ := tool_answered lib s.world hTool hUnfinished
  have hFreed : processStep lib p .sessionFree = some p.free :=
    if_neg (by simp [hRunning, hFree])
  have hGet : p.free.returned[old.length]? = some ⟨s, s.turn.out, some s.turn.out⟩ := by
    rw [Process.free, List.getElem?_map, hReturned, List.getElem?_concat_length]
    rfl
  have hInput : TurnInput.toolDone key ⟨[], false⟩ ≠ .cancel := nofun
  have hLate := processStep_late hGet hInput hStep
  have hLast := List.mem_of_getElem? (setReturned_get hGet ⟨⟨s.world, turn'⟩, s.turn.out, some s.turn.out⟩)
  refine ⟨[.sessionFree, .late old.length (.toolDone key ⟨[], false⟩)], _, ?_, _, hLast, ?_⟩
  · rw [Run.run, hFreed, Option.bind_some, Run.run, hLate]
    rfl
  · rintro ⟨-, hSilent⟩
    cases (hSilent _ rfl o hMem).symm.trans hAppend

end Talks

theorem unfinished_talks (h : Sound lib p) (hRunning : p.running = some s)
    (hStop : p.stopping = true) (hUnfinished : s.turn.finished = false) :
    ∃ more p', Run.run (processStep lib) p (.loopReturns :: more) = some p' ∧
      ∃ r ∈ p'.returned, ¬r.Silent := by
  obtain ⟨hPhase, hFree⟩ := h s hRunning
  have hReturns : processStep lib p .loopReturns = some (p.leave s) := by
    rw [processStep, hRunning]
    exact if_pos (.inl hStop)
  have hTalks : ∃ more p', Run.run (processStep lib) (p.leave s) more = some p' ∧
      ∃ r ∈ p'.returned, ¬r.Silent := by
    cases hTools : s.turn.tools with
    | nil => exact waiting_talks hPhase hUnfinished hTools rfl
    | cons key rest =>
      have hTool : key ∈ s.turn.tools := hTools ▸ List.mem_cons_self
      exact tooling_talks hTool hUnfinished rfl hFree rfl
  obtain ⟨more, p', hRun, hLoud⟩ := hTalks
  refine ⟨more, p', ?_, hLoud⟩
  rw [Run.run, hReturns]
  exact hRun

/-- In every run whose turns have finished by the time the loop is stopped, no turn calls back once
`run_one_turn` has returned, and nothing is appended once the session is freed. Where a turn has
not finished then, the run goes on to one that breaks this. -/
theorem frontend_silent {session : SessionState}
    (hRun : Run.run (processStep lib) (.new session) es = some p) :
    (AllFinish lib (.new session) es → ∀ r ∈ p.returned, r.Silent) ∧
      ∀ s, p.running = some s → p.stopping = true → s.turn.finished = false →
        ∃ more p', Run.run (processStep lib) p (.loopReturns :: more) = some p' ∧
          ∃ r ∈ p'.returned, ¬r.Silent := by
  constructor
  · intro hFinish
    exact (run_settled (sound_new session) (settled_new session) hFinish hRun).silent
  · intro s hRunning hStop hUnfinished
    exact unfinished_talks (run_sound (sound_new session) hRun) hRunning hStop hUnfinished

/-- Without a SIGINT the loop is never stopped. -/
theorem allFinish_of_no_sigint (hStop : p.stopping = false) (hNone : ∀ e ∈ es, e ≠ .sigint) :
    AllFinish lib p es := by
  induction es generalizing p with
  | nil => trivial
  | cons e es ih =>
    have hRest : ∀ e ∈ es, e ≠ .sigint := fun e' hMem => hNone e' (List.mem_cons_of_mem e hMem)
    refine ⟨?_, fun p' hStep => ih ?_ hRest⟩
    · cases e with
      | loopReturns => exact fun h => absurd (hStop.symm.trans h) (by decide)
      | _ => trivial
    · cases e with
      | runOneTurn w opts store env text timerInits =>
        rw [processStep] at hStep
        split at hStep
        · cases hStep
        · split at hStep
          · cases hStep
            rfl
          · cases hStep
            exact hStop
      | event input =>
        obtain ⟨s, -, hSome⟩ := Option.bind_eq_some_iff.mp hStep
        obtain ⟨s', -, rfl⟩ := Option.map_eq_some_iff.mp hSome
        exact hStop
      | sigint => exact absurd rfl (hNone .sigint List.mem_cons_self)
      | loopReturns =>
        obtain ⟨s, -, hSome⟩ := Option.bind_eq_some_iff.mp hStep
        split at hSome
        · cases hSome
          rfl
        · cases hSome
      | sessionFree =>
        rw [processStep] at hStep
        split at hStep
        · cases hStep
        · cases hStep
          exact hStop
      | httpClientClose =>
        rw [processStep] at hStep
        split at hStep
        · cases hStep
        · cases hStep
          exact hStop
      | late i input =>
        obtain ⟨r, -, hSome⟩ := Option.bind_eq_some_iff.mp hStep
        obtain ⟨s, -, rfl⟩ := Option.map_eq_some_iff.mp hSome
        exact hStop

/-! A turn whose stream is open, and one whose second tool runs, each interrupted twice or not. -/

def hiTurn (w : World) : ProcessEvent :=
  .runOneTurn w ⟨none, none, 0⟩ .empty sampleEnv (ascii "hi") true

def teardown : List ProcessEvent := [.loopReturns, .sessionFree, .httpClientClose]

def streamEvents : List ProcessEvent :=
  hiTurn toolWorld :: .event .stepTimer :: .sigint :: .sigint :: teardown

def toolEvents : List ProcessEvent :=
  [hiTurn toolWorld, .event .stepTimer, .event (.done 1 twoCalls none), .sigint, .sigint] ++
    teardown ++ [.late 0 (.toolDone (0, 1) ⟨ascii "ok", false⟩)]

/-- `http_client_close` ends the stream of a turn that was left, whose tool exits after the session
was freed. -/
theorem secondSigint_talks :
    (∃ p, Run.run (processStep emptyLib) (.new sampleSession) streamEvents = some p ∧
      ∃ r ∈ p.returned, ∃ o ∈ r.started.turn.out.drop r.atReturn.length, isFrontend o = true) ∧
    ∃ p, Run.run (processStep emptyLib) (.new sampleSession) toolEvents = some p ∧
      ∃ r ∈ p.returned, ∃ out, r.atFree = some out ∧
        ∃ o ∈ r.started.turn.out.drop out.length, o.isAppend = true := by
  refine ⟨⟨_, rfl, _, List.mem_cons_self, _, List.mem_cons_self, rfl⟩, ?_⟩
  exact ⟨_, rfl, _, List.mem_cons_self, _, rfl, _, List.mem_cons_of_mem _ List.mem_cons_self, rfl⟩

/-- A turn that is answered, and the teardown after it. -/
theorem frontend_silent_sample :
    ∃ p, Run.run (processStep emptyLib) (.new sampleSession)
        (hiTurn toolWorld :: .event .stepTimer :: .event (.done 1 noCalls none) :: teardown) = some p ∧
      p.closed = true ∧ p.returned.length = 1 ∧ ∀ r ∈ p.returned, r.Silent := by
  obtain ⟨p, hRun, hClosed, hLength⟩ : ∃ p, Run.run (processStep emptyLib) (.new sampleSession)
      (hiTurn toolWorld :: .event .stepTimer :: .event (.done 1 noCalls none) :: teardown) = some p ∧
        p.closed = true ∧ p.returned.length = 1 := ⟨_, rfl, rfl, rfl⟩
  refine ⟨p, hRun, hClosed, hLength, (frontend_silent hRun).1 (allFinish_of_no_sigint rfl ?_)⟩
  rintro e hMem rfl
  simp [hiTurn, teardown] at hMem

end Mua.Frontend
