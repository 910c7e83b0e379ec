import Mua.AgentRounds

/-! # What a step does to the meter of a turn

The meter is what the budget of the context window reads: the options and
percentages, the step, the tokens and the latch of the warning. Only a response
and the end of a round move it; every other function of the loop leaves it, and
adds neither a notice nor the outcome of a spent budget.
-/

namespace Mua.Agent

open Session Openrouter

variable (lib : JsonLib) (w : World) {A : Account lib} {cap : Int} {turn turn' : AgentTurn}

@[ext] structure Meter where
  opts : AgentOpts
  step : Nat
  stepCap : Int
  contextPct : Int
  contextWarnPct : Int
  lastTotalTokens : Int
  contextWarned : Bool

def AgentTurn.meter (turn : AgentTurn) : Meter where
  opts := turn.opts
  step := turn.step
  stepCap := turn.stepCap
  contextPct := turn.contextPct
  contextWarnPct := turn.contextWarnPct
  lastTotalTokens := turn.lastTotalTokens
  contextWarned := turn.contextWarned

def AgentOutput.notice : AgentOutput → Option Bytes
  | .onNotice msg => some msg
  | _ => none

def AgentOutput.isContextLimit : AgentOutput → Bool
  | .onFinish .contextLimit _ => true
  | _ => false

def AgentOutput.unmetered (o : AgentOutput) : Prop := o.notice = none ∧ o.isContextLimit = false

structure Plain (turn turn' : AgentTurn) : Prop where
  meter : turn'.meter = turn.meter
  entries : ∃ new, turn'.out = turn.out ++ new ∧ ∀ o ∈ new, o.unmetered

theorem Plain.still (hMeter : turn'.meter = turn.meter) (hOut : turn'.out = turn.out) :
    Plain turn turn' :=
  ⟨hMeter, [], by rw [hOut, List.append_nil], nofun⟩

theorem Plain.refl (turn : AgentTurn) : Plain turn turn := .still rfl rfl

theorem Plain.trans {a b c : AgentTurn} (h : Plain a b) (h' : Plain b c) : Plain a c := by
  obtain ⟨new, hNew, hAll⟩ := h.entries
  obtain ⟨new', hNew', hAll'⟩ := h'.entries
  refine ⟨h'.meter.trans h.meter, new ++ new', ?_, ?_⟩
  · rw [hNew', hNew, List.append_assoc]
  · intro o ho
    rcases List.mem_append.mp ho with ho | ho
    · exact hAll o ho
    · exact hAll' o ho

theorem Plain.emit (turn : AgentTurn) {o : AgentOutput} (h : o.unmetered) : Plain turn (turn.emit o) := by
  refine ⟨rfl, [o], rfl, ?_⟩
  intro o' ho'
  exact List.mem_singleton.mp ho' ▸ h

theorem finishTurn_plain (turn : AgentTurn) {outcome : TurnOutcome} (err : Option Error)
    (hOutcome : outcome ≠ .contextLimit) : Plain turn (finishTurn turn outcome err) := by
  have hPlain : (AgentOutput.onFinish outcome err).unmetered := by
    cases outcome with
    | contextLimit => exact absurd rfl hOutcome
    | _ => exact ⟨rfl, rfl⟩
  unfold finishTurn
  split
  · exact Plain.refl turn
  · obtain ⟨hMeter, hEntries⟩ := Plain.emit { turn with finished := true } hPlain
    exact ⟨hMeter, hEntries⟩

theorem providerOnError_plain (turn : AgentTurn) (err : Error) :
    Plain turn (providerOnError turn err) := by
  have hStream : Plain turn { turn with stream := none } := Plain.still rfl rfl
  unfold providerOnError
  dsimp only
  split
  · exact hStream.trans (finishTurn_plain _ _ (by decide))
  · exact hStream.trans (finishTurn_plain _ _ (by decide))

theorem cancelStream_plain (turn : AgentTurn) (id : Nat) : Plain turn (cancelStream w turn id) := by
  have hEmit : Plain turn (turn.emit .cancelStream) := Plain.emit turn ⟨rfl, rfl⟩
  unfold cancelStream
  dsimp only
  split
  · refine hEmit.trans (.trans ?_ (providerOnError_plain _ _))
    exact Plain.still rfl rfl
  · exact hEmit

theorem agentTurnCancel_plain (turn : AgentTurn) : Plain turn (agentTurnCancel w turn) := by
  unfold agentTurnCancel
  split
  · exact Plain.refl turn
  split
  · refine .trans ?_ (cancelStream_plain w _ _)
    exact Plain.still rfl rfl
  · have hCanceling : Plain turn { turn with canceling := true } := Plain.still rfl rfl
    dsimp only
    split
    · exact hCanceling.trans (Plain.emit _ ⟨rfl, rfl⟩)
    · exact hCanceling

theorem fire_after (turn : AgentTurn) (o : AgentOutput) : Plain (turn.emit o) (fire w turn o) := by
  unfold fire
  dsimp only
  split
  · exact agentTurnCancel_plain w _
  · exact Plain.refl _

theorem fire_plain (turn : AgentTurn) {o : AgentOutput} (h : o.unmetered) : Plain turn (fire w turn o) :=
  (Plain.emit turn h).trans (fire_after w turn o)

theorem append_plain (turn : AgentTurn) (msg : CJson) : Plain turn (append lib w turn msg).1 := by
  unfold append
  refine .trans ?_ (Plain.emit _ ⟨rfl, rfl⟩)
  exact Plain.still rfl rfl

theorem toolCompleted_plain (turn : AgentTurn) (result : ToolResult) :
    Plain turn (toolCompleted lib w turn result) := by
  have hAppend : Plain turn (appendToolMessage lib w turn turn.toolIndex result.content).1 :=
    append_plain lib w turn _
  unfold toolCompleted
  dsimp only
  split
  · rename_i next err hReply
    rw [hReply] at hAppend
    exact hAppend.trans (Plain.still rfl rfl)
  · rename_i next hReply
    rw [hReply] at hAppend
    have hFire : ∀ fired, Plain next fired →
        Plain turn { fired with toolIndex := fired.toolIndex + 1 } := by
      intro fired hFired
      exact (hAppend.trans hFired).trans (Plain.still rfl rfl)
    apply hFire
    split
    · exact fire_plain w next ⟨rfl, rfl⟩
    · exact Plain.refl next

theorem toolDoneAdvance_plain (turn : AgentTurn) (result : ToolResult) :
    Plain turn (toolDoneAdvance lib w turn result) := by
  have hExec : Plain turn { turn with exec := none } := Plain.still rfl rfl
  unfold toolDoneAdvance
  dsimp only
  split
  · exact hExec
  · exact hExec.trans (toolCompleted_plain lib w _ _)

theorem consultGate_plain (turn : AgentTurn) (tool : ToolDef) (args : CJson) :
    Plain turn (consultGate w turn tool args).1 := by
  unfold consultGate
  split
  · exact Plain.refl turn
  · dsimp only
    split
    · exact fire_plain w turn ⟨rfl, rfl⟩
    · exact fire_plain w turn ⟨rfl, rfl⟩

theorem runTool_plain (turn : AgentTurn) (key : CallKey) (tool : ToolDef) (args : CJson) :
    Plain turn (runTool lib w turn key tool args).1 := by
  have hFire := fire_plain w turn (o := .execute key tool args) ⟨rfl, rfl⟩
  unfold runTool
  dsimp only
  split
  · refine hFire.trans (.trans ?_ (toolDoneAdvance_plain lib w _ _))
    exact Plain.emit _ ⟨rfl, rfl⟩
  · exact hFire.trans (Plain.still rfl rfl)

theorem startTool_plain (turn : AgentTurn) (idx : Nat) :
    Plain turn (startTool lib w turn idx).1 := by
  unfold startTool
  dsimp only
  split
  · exact toolCompleted_plain lib w turn _
  rename_i tool hTool
  split
  · exact toolCompleted_plain lib w turn _
  rename_i args hArgs
  have hGate := consultGate_plain w turn tool args
  split
  · rename_i next refusal hConsult
    rw [hConsult] at hGate
    exact hGate.trans (toolCompleted_plain lib w next _)
  · rename_i next args' hConsult
    rw [hConsult] at hGate
    refine hGate.trans (.trans ?_ (runTool_plain lib w _ _ tool args'))
    split
    · exact fire_plain w next ⟨rfl, rfl⟩
    · exact Plain.refl next

theorem synthesize_plain (turn : AgentTurn) (left : Nat) :
    Plain turn (synthesize lib w turn left) := by
  induction left generalizing turn with
  | zero => exact Plain.refl turn
  | succ left ih =>
    have hAppend : Plain turn
        (appendToolMessage lib w turn turn.toolIndex (ascii "[interrupted]")).1 :=
      append_plain lib w turn _
    unfold synthesize
    split
    · split
      · rename_i next err hReply
        rw [hReply] at hAppend
        exact hAppend
      · rename_i next hReply
        rw [hReply] at hAppend
        refine .trans ?_ (ih _)
        exact hAppend.trans (Plain.still rfl rfl)
    · exact Plain.refl turn

theorem finishWithSynthetics_plain (turn : AgentTurn) :
    Plain turn (finishWithSynthetics lib w turn) :=
  (synthesize_plain lib w turn _).trans (finishTurn_plain _ _ (by decide))

theorem driveLoop_plain (turn : AgentTurn) (left : Nat) :
    Plain turn (driveLoop lib w turn left).1 := by
  induction left generalizing turn with
  | zero => exact Plain.refl turn
  | succ left ih =>
    have hStart := startTool_plain lib w turn turn.toolIndex
    unfold driveLoop
    split
    · generalize startTool lib w turn turn.toolIndex = r at hStart
      obtain ⟨next, key⟩ := r
      cases key with
      | none => exact hStart.trans (ih next)
      | some key => exact hStart.trans (Plain.still rfl rfl)
    · exact Plain.refl turn

/-- A step that ends an unfinished turn's round in `next_step`, or does not reach it. -/
def EndsRound (w : World) (turn turn' : AgentTurn) : Prop :=
  ∃ mid, Plain turn mid ∧ (turn' = mid ∨ mid.finished = false ∧ turn' = nextStep w mid)

theorem Plain.endsRound (h : Plain turn turn') : EndsRound w turn turn' := ⟨turn', h, .inl rfl⟩

theorem EndsRound.after {first : AgentTurn} (h : Plain first turn) (h' : EndsRound w turn turn') :
    EndsRound w first turn' := by
  obtain ⟨mid, hMid, hLast⟩ := h'
  exact ⟨mid, h.trans hMid, hLast⟩

theorem driveTools_rounds {lib : JsonLib} {A : Account lib}
    (h : Working A cap false turn turn.toolIndex) : EndsRound w turn (driveTools lib w turn) := by
  have hDriver : Plain turn { turn with inDriver := true } := Plain.still rfl rfl
  have hLoop := hDriver.trans (driveLoop_plain lib w _ (turn.calls.length - turn.toolIndex))
  have hDriven : Driven A cap (driveLoop lib w { turn with inDriver := true }
      (turn.calls.length - turn.toolIndex)) := by
    apply driveLoop_driven
    · exact { h with inDriver := rfl }
    · show turn.calls.length ≤ turn.toolIndex + (turn.calls.length - turn.toolIndex)
      omega
  unfold driveTools
  generalize driveLoop lib w { turn with inDriver := true }
    (turn.calls.length - turn.toolIndex) = r at hLoop hDriven
  obtain ⟨next, running⟩ := r
  have hNext : Plain turn { next with inDriver := false } := hLoop.trans (Plain.still rfl rfl)
  have hUnfinished : next.finished = false := by
    cases hDriven with
    | async key hTooling hExec => exact hTooling.unfinished
    | stopped hReady hFailing => exact hReady.unfinished
    | between hWorking hStop => exact hWorking.unfinished
  cases running with
  | true => exact hNext.endsRound w
  | false =>
    dsimp only
    split
    · exact (hNext.trans (finishTurn_plain _ _ (by decide))).endsRound w
    split
    · exact (hNext.trans (finishWithSynthetics_plain lib w _)).endsRound w
    · exact ⟨_, hNext, .inr ⟨hUnfinished, rfl⟩⟩

theorem driveTools_plain {lib : JsonLib} (hFailing : turn.failing = true) :
    Plain turn (driveTools lib w turn) := by
  unfold driveTools
  have hStay : driveLoop lib w { turn with inDriver := true } (turn.calls.length - turn.toolIndex) =
      ({ turn with inDriver := true }, false) := driveLoop_failing w _ hFailing
  rw [hStay]
  dsimp only
  rw [if_pos hFailing]
  refine .trans ?_ (finishTurn_plain _ _ (by decide))
  exact Plain.still rfl rfl

theorem agentToolDone_rounds {lib : JsonLib} {A : Account lib} {key : CallKey}
    (h : Tooling A cap false key [] turn) (result : ToolResult) :
    EndsRound w turn (agentToolDone lib w (turn.emit (.toolDone key result)) result) := by
  have hAdvance : Plain turn
      (toolDoneAdvance lib w (turn.emit (.toolDone key result)) result) :=
    (Plain.emit turn ⟨rfl, rfl⟩).trans (toolDoneAdvance_plain lib w _ result)
  have hAdvanced := h.advanced w result
  have hUnfinished : (turn.emit (.toolDone key result)).finished = false := h.unfinished
  unfold agentToolDone
  rw [if_neg (by simp [hUnfinished])]
  dsimp only
  rw [if_neg (by simp [hAdvanced.inDriver])]
  generalize toolDoneAdvance lib w (turn.emit (.toolDone key result)) result = next
    at hAdvance hAdvanced
  cases hAdvanced with
  | answered hWorking hCalls hIndex => exact (driveTools_rounds w hWorking).after w hAdvance
  | stopped hReady hFailing hDriver hExec =>
    exact (hAdvance.trans (driveTools_plain w hFailing)).endsRound w

theorem providerOnText_plain (turn : AgentTurn) (text : Bytes) :
    Plain turn (providerOnText w turn text) := by
  unfold providerOnText
  split
  · exact fire_plain w turn ⟨rfl, rfl⟩
  · exact Plain.refl turn

/-- What `provider_on_done` does first: the tokens are noted, and the warning may be given. -/
def heard (turn : AgentTurn) (usage : Option Usage) : AgentTurn :=
  maybeWarnContext w (noteUsage { turn with stream := none } usage)

theorem providerOnDone_rounds {lib : JsonLib} {A : Account lib}
    (h : Heard A cap { turn with stream := none }) (message : AssistantMessage)
    (usage : Option Usage) :
    EndsRound w (heard w turn usage) (providerOnDone lib w turn message.json usage) := by
  have hHeard : Heard A cap (heard w turn usage) := maybeWarnContext_heard w (noteUsage_heard h usage)
  have hPlain := append_plain lib w (heard w turn usage) message.json
  rw [providerOnDone, ← heard]
  rcases append_message w hHeard message rfl with
    ⟨next, err, hAppend, hReady⟩ | ⟨next, hAppend, hWorking⟩
  · rw [hAppend] at hPlain ⊢
    exact (hPlain.trans (finishTurn_plain _ _ (by decide))).endsRound w
  · rw [hAppend] at hPlain ⊢
    dsimp only
    split
    · exact (hPlain.trans (finishTurn_plain _ _ (by decide))).endsRound w
    split
    · refine (hPlain.trans (.trans ?_ (finishWithSynthetics_plain lib w _))).endsRound w
      exact Plain.still rfl rfl
    · refine (driveTools_rounds w hWorking).after w (hPlain.trans ?_)
      exact Plain.still rfl rfl

theorem issueRequest_plain (turn : AgentTurn) : Plain turn (issueRequest w turn).1 := by
  unfold issueRequest
  dsimp only
  split
  · exact Plain.refl turn
  rename_i tools hTools
  have hRequest : Plain turn (turn.emit (.request (requestOpts turn tools))) :=
    Plain.emit turn ⟨rfl, rfl⟩
  split
  · exact hRequest.trans (Plain.still rfl rfl)
  · rename_i err hReply
    exact (hRequest.trans (providerOnError_plain _ err)).trans (Plain.still rfl rfl)
  · exact hRequest.trans (Plain.still rfl rfl)

theorem stepTimerCb_plain (turn : AgentTurn) : Plain turn (stepTimerCb w turn) := by
  have hRequest := issueRequest_plain w turn
  unfold stepTimerCb
  split
  · exact finishTurn_plain _ _ (by decide)
  · split
    · rename_i next err hReply
      rw [hReply] at hRequest
      exact hRequest.trans (finishTurn_plain _ _ (by decide))
    · rename_i next hReply
      rw [hReply] at hRequest
      exact hRequest

/-- The turn as it is when an input has been heard: a response moves the meter first. -/
def hears (turn : AgentTurn) : TurnInput → AgentTurn
  | .done id _ usage => heard w { turn with streams := turn.streams.erase id } usage
  | _ => turn

theorem Phase.streams {lib : JsonLib} {A : Account lib} (h : Phase A cap turn) {id : Nat}
    (hMem : id ∈ turn.streams) : Streaming A cap id turn := by
  cases h with
  | waiting h =>
    rw [h.streams] at hMem
    cases hMem
  | streaming id' h =>
    rw [h.streams] at hMem
    exact List.mem_singleton.mp hMem ▸ h
  | tooling key h hExec =>
    rw [h.streams] at hMem
    cases hMem
  | finished h =>
    rw [h.streams] at hMem
    cases hMem

theorem Phase.tools {lib : JsonLib} {A : Account lib} (h : Phase A cap turn) {key : CallKey}
    (hMem : key ∈ turn.tools) :
    Tooling A cap false key [] { turn with tools := turn.tools.erase key } := by
  cases h with
  | waiting h =>
    rw [h.tools] at hMem
    cases hMem
  | streaming id h =>
    rw [h.tools] at hMem
    cases hMem
  | tooling key' h hExec =>
    have hErased : turn.tools.erase key = [] := by
      rw [h.tools] at hMem ⊢
      rw [List.mem_singleton.mp hMem]
      exact List.erase_cons_head key' []
    rw [h.tools] at hMem
    obtain rfl := List.mem_singleton.mp hMem
    exact { h with tools := hErased }
  | finished h =>
    rw [h.tools] at hMem
    cases hMem

theorem step_rounds {lib : JsonLib} {A : Account lib} (hPhase : Phase A cap turn)
    {input : TurnInput} (h : step lib w turn input = some turn') :
    EndsRound w (hears w turn input) turn' := by
  unfold step at h
  split at h
  · obtain ⟨-, h⟩ := Option.ite_none_right_eq_some.mp h
    obtain rfl := Option.some.inj h
    refine (Plain.trans ?_ (stepTimerCb_plain w _)).endsRound w
    exact Plain.still rfl rfl
  · obtain ⟨-, h⟩ := Option.ite_none_right_eq_some.mp h
    obtain rfl := Option.some.inj h
    exact (providerOnText_plain w turn _).endsRound w
  · obtain ⟨hMem, h⟩ := Option.ite_none_right_eq_some.mp h
    obtain rfl := Option.some.inj h
    exact providerOnDone_rounds w (hPhase.streams hMem).heard _ _
  · obtain ⟨-, h⟩ := Option.ite_none_right_eq_some.mp h
    obtain rfl := Option.some.inj h
    refine (Plain.trans ?_ (providerOnError_plain _ _)).endsRound w
    exact Plain.still rfl rfl
  · obtain ⟨hMem, h⟩ := Option.ite_none_right_eq_some.mp h
    obtain rfl := Option.some.inj h
    refine (agentToolDone_rounds w (hPhase.tools hMem) _).after w ?_
    exact Plain.still rfl rfl
  · obtain rfl := Option.some.inj h
    exact (agentTurnCancel_plain w turn).endsRound w

end Mua.Agent
