import Mua.AgentSpec

/-! # What a step adds to the history

Requests come from `issue_request` alone and executions from `start_tool` alone;
every other function of the loop adds passive entries. So an invariant of the
history that passive entries keep needs an argument at these two only.
-/

namespace Mua.Agent

open Session Openrouter

variable (lib : JsonLib) (w : World) {P Q : AgentOutput → Prop} {turn turn' : AgentTurn}

def AgentOutput.isExecute : AgentOutput → Bool
  | .execute .. => true
  | _ => false

def AgentOutput.passive (o : AgentOutput) : Prop := o.isExecute = false ∧ o.isRequest = false

/-- A step that adds entries of one kind, and keeps the options of the turn and its calls. -/
structure Adds (P : AgentOutput → Prop) (turn turn' : AgentTurn) : Prop where
  opts : turn'.opts = turn.opts
  calls : turn'.calls = turn.calls
  entries : ∃ new, turn'.out = turn.out ++ new ∧ ∀ o ∈ new, P o

theorem Adds.still (hOpts : turn'.opts = turn.opts) (hCalls : turn'.calls = turn.calls)
    (hOut : turn'.out = turn.out) : Adds P turn turn' :=
  ⟨hOpts, hCalls, [], by rw [hOut, List.append_nil], nofun⟩

theorem Adds.refl (turn : AgentTurn) : Adds P turn turn := .still rfl rfl rfl

theorem Adds.trans {a b c : AgentTurn} (h : Adds P a b) (h' : Adds P b c) : Adds P a c := by
  obtain ⟨new, hNew, hAll⟩ := h.entries
  obtain ⟨new', hNew', hAll'⟩ := h'.entries
  refine ⟨h'.opts.trans h.opts, h'.calls.trans h.calls, new ++ new', ?_, ?_⟩
  · rw [hNew', hNew, List.append_assoc]
  · intro o ho
    rcases List.mem_append.mp ho with ho | ho
    · exact hAll o ho
    · exact hAll' o ho

theorem Adds.mono (h : Adds P turn turn') (hPQ : ∀ o, P o → Q o) : Adds Q turn turn' := by
  obtain ⟨new, hNew, hAll⟩ := h.entries
  exact ⟨h.opts, h.calls, new, hNew, fun o ho => hPQ o (hAll o ho)⟩

theorem Adds.emit (turn : AgentTurn) {o : AgentOutput} (h : P o) : Adds P turn (turn.emit o) := by
  refine ⟨rfl, rfl, [o], rfl, ?_⟩
  intro o' ho'
  exact List.mem_singleton.mp ho' ▸ h

def AgentOutput.control : AgentOutput → Prop
  | .onFinish .. | .cancelStream | .cancelTool => True
  | _ => False

theorem AgentOutput.control.passive {o : AgentOutput} (h : o.control) : o.passive := by
  cases o with
  | onFinish outcome err => exact ⟨rfl, rfl⟩
  | cancelStream => exact ⟨rfl, rfl⟩
  | cancelTool => exact ⟨rfl, rfl⟩
  | _ => cases h

theorem finishTurn_adds (turn : AgentTurn) (outcome : TurnOutcome) (err : Option Error) :
    Adds AgentOutput.control turn (finishTurn turn outcome err) := by
  unfold finishTurn
  split
  · exact Adds.refl turn
  · apply Adds.trans (b := { turn with finished := true }.emit (.onFinish outcome err))
    · refine .trans ?_ (Adds.emit _ trivial)
      exact Adds.still rfl rfl rfl
    · exact Adds.still rfl rfl rfl

theorem providerOnError_adds (turn : AgentTurn) (err : Error) :
    Adds AgentOutput.control turn (providerOnError turn err) := by
  have hStream : Adds AgentOutput.control turn { turn with stream := none } :=
    Adds.still rfl rfl rfl
  unfold providerOnError
  dsimp only
  split
  · exact hStream.trans (finishTurn_adds _ _ _)
  · exact hStream.trans (finishTurn_adds _ _ _)

theorem cancelStream_adds (turn : AgentTurn) (id : Nat) :
    Adds AgentOutput.control turn (cancelStream w turn id) := by
  have hEmit : Adds AgentOutput.control turn (turn.emit .cancelStream) := Adds.emit turn trivial
  unfold cancelStream
  dsimp only
  split
  · refine hEmit.trans (.trans ?_ (providerOnError_adds _ _))
    exact Adds.still rfl rfl rfl
  · exact hEmit

theorem agentTurnCancel_adds (turn : AgentTurn) :
    Adds AgentOutput.control turn (agentTurnCancel w turn) := by
  unfold agentTurnCancel
  split
  · exact Adds.refl turn
  split
  · refine .trans ?_ (cancelStream_adds w _ _)
    exact Adds.still rfl rfl rfl
  · have hCanceling : Adds AgentOutput.control turn { turn with canceling := true } :=
      Adds.still rfl rfl rfl
    dsimp only
    split
    · exact hCanceling.trans (Adds.emit _ trivial)
    · exact hCanceling

theorem fire_adds (turn : AgentTurn) (o : AgentOutput) :
    Adds AgentOutput.control (turn.emit o) (fire w turn o) := by
  unfold fire
  dsimp only
  split
  · exact agentTurnCancel_adds w _
  · exact Adds.refl _

theorem fire_passive (turn : AgentTurn) {o : AgentOutput} (h : o.passive) :
    Adds AgentOutput.passive turn (fire w turn o) :=
  (Adds.emit turn h).trans ((fire_adds w turn o).mono fun _ => AgentOutput.control.passive)

theorem finishTurn_passive (turn : AgentTurn) (outcome : TurnOutcome) (err : Option Error) :
    Adds AgentOutput.passive turn (finishTurn turn outcome err) :=
  (finishTurn_adds turn outcome err).mono fun _ => AgentOutput.control.passive

theorem providerOnError_passive (turn : AgentTurn) (err : Error) :
    Adds AgentOutput.passive turn (providerOnError turn err) :=
  (providerOnError_adds turn err).mono fun _ => AgentOutput.control.passive

theorem agentTurnCancel_passive (turn : AgentTurn) :
    Adds AgentOutput.passive turn (agentTurnCancel w turn) :=
  (agentTurnCancel_adds w turn).mono fun _ => AgentOutput.control.passive

theorem append_passive (turn : AgentTurn) (msg : CJson) :
    Adds AgentOutput.passive turn (append lib w turn msg).1 := by
  unfold append
  refine .trans ?_ (Adds.emit _ ⟨rfl, rfl⟩)
  exact Adds.still rfl rfl rfl

theorem toolCompleted_passive (turn : AgentTurn) (result : ToolResult) :
    Adds AgentOutput.passive turn (toolCompleted lib w turn result) := by
  have hAppend : Adds AgentOutput.passive turn
      (appendToolMessage lib w turn turn.toolIndex result.content).1 := append_passive lib w turn _
  unfold toolCompleted
  dsimp only
  split
  · rename_i next err hReply
    rw [hReply] at hAppend
    exact hAppend.trans (Adds.still rfl rfl rfl)
  · rename_i next hReply
    rw [hReply] at hAppend
    have hFire : ∀ fired, Adds AgentOutput.passive next fired →
        Adds AgentOutput.passive turn { fired with toolIndex := fired.toolIndex + 1 } := by
      intro fired hFired
      exact (hAppend.trans hFired).trans (Adds.still rfl rfl rfl)
    apply hFire
    split
    · exact fire_passive w next ⟨rfl, rfl⟩
    · exact Adds.refl next

theorem toolDoneAdvance_passive (turn : AgentTurn) (result : ToolResult) :
    Adds AgentOutput.passive turn (toolDoneAdvance lib w turn result) := by
  have hExec : Adds AgentOutput.passive turn { turn with exec := none } := Adds.still rfl rfl rfl
  unfold toolDoneAdvance
  dsimp only
  split
  · exact hExec
  · exact hExec.trans (toolCompleted_passive lib w _ _)

theorem consultGate_passive (turn : AgentTurn) (tool : ToolDef) (args : CJson) :
    Adds AgentOutput.passive turn (consultGate w turn tool args).1 := by
  unfold consultGate
  split
  · exact Adds.refl turn
  · dsimp only
    split
    · exact fire_passive w turn ⟨rfl, rfl⟩
    · exact fire_passive w turn ⟨rfl, rfl⟩

theorem synthesize_passive (turn : AgentTurn) (left : Nat) :
    Adds AgentOutput.passive turn (synthesize lib w turn left) := by
  induction left generalizing turn with
  | zero => exact Adds.refl turn
  | succ left ih =>
    have hAppend : Adds AgentOutput.passive turn
        (appendToolMessage lib w turn turn.toolIndex (ascii "[interrupted]")).1 :=
      append_passive lib w turn _
    unfold synthesize
    split
    · split
      · rename_i next err hReply
        rw [hReply] at hAppend
        exact hAppend
      · rename_i next hReply
        rw [hReply] at hAppend
        refine .trans ?_ (ih _)
        exact hAppend.trans (Adds.still rfl rfl rfl)
    · exact Adds.refl turn

theorem finishWithSynthetics_passive (turn : AgentTurn) :
    Adds AgentOutput.passive turn (finishWithSynthetics lib w turn) :=
  (synthesize_passive lib w turn _).trans (finishTurn_passive _ _ _)

theorem nextStep_passive (turn : AgentTurn) :
    Adds AgentOutput.passive turn (nextStep w turn) := by
  have hStep : Adds AgentOutput.passive turn { turn with step := turn.step + 1 } :=
    Adds.still rfl rfl rfl
  unfold nextStep armStepTimer
  dsimp only
  split
  · exact hStep.trans (finishTurn_passive _ _ _)
  split
  · exact hStep.trans (finishTurn_passive _ _ _)
  split
  · exact Adds.still rfl rfl rfl
  · exact hStep.trans (finishTurn_passive _ _ _)

theorem providerOnText_passive (turn : AgentTurn) (text : Bytes) :
    Adds AgentOutput.passive turn (providerOnText w turn text) := by
  unfold providerOnText
  split
  · exact fire_passive w turn ⟨rfl, rfl⟩
  · exact Adds.refl turn

theorem noteUsage_passive (turn : AgentTurn) (usage : Option Usage) :
    Adds AgentOutput.passive turn (noteUsage turn usage) := by
  unfold noteUsage
  split
  · split
    · exact Adds.still rfl rfl rfl
    · exact Adds.refl turn
  · exact Adds.refl turn

theorem maybeWarnContext_passive (turn : AgentTurn) :
    Adds AgentOutput.passive turn (maybeWarnContext w turn) := by
  unfold maybeWarnContext
  split
  · exact Adds.refl turn
  split
  · exact Adds.refl turn
  · refine .trans ?_ (fire_passive w _ ⟨rfl, rfl⟩)
    exact Adds.still rfl rfl rfl

theorem runTool_adds (turn : AgentTurn) (key : CallKey) (tool : ToolDef) (args : CJson) :
    Adds AgentOutput.passive (turn.emit (.execute key tool args))
      (runTool lib w turn key tool args).1 := by
  have hFire := (fire_adds w turn (.execute key tool args)).mono fun _ =>
    AgentOutput.control.passive
  unfold runTool
  dsimp only
  split
  · refine hFire.trans (.trans ?_ (toolDoneAdvance_passive lib w _ _))
    exact Adds.emit _ ⟨rfl, rfl⟩
  · exact hFire.trans (Adds.still rfl rfl rfl)

theorem startTool_adds (turn : AgentTurn) (idx : Nat) :
    Adds (fun o => o.isRequest = false) turn (startTool lib w turn idx).1 := by
  have hQuiet : ∀ {a b}, Adds AgentOutput.passive a b → Adds (fun o => o.isRequest = false) a b :=
    fun h => h.mono fun _ ho => ho.2
  unfold startTool
  dsimp only
  split
  · exact hQuiet (toolCompleted_passive lib w turn _)
  rename_i tool hTool
  split
  · exact hQuiet (toolCompleted_passive lib w turn _)
  rename_i args hArgs
  have hGate := consultGate_passive w turn tool args
  split
  · rename_i next refusal hConsult
    rw [hConsult] at hGate
    exact hQuiet (hGate.trans (toolCompleted_passive lib w next _))
  · rename_i next args' hConsult
    rw [hConsult] at hGate
    refine (hQuiet (hGate.trans ?_)).trans
      (.trans (Adds.emit _ rfl) (hQuiet (runTool_adds lib w _ _ tool args')))
    split
    · exact fire_passive w next ⟨rfl, rfl⟩
    · exact Adds.refl next

def SendsNothing (turn turn' : AgentTurn) : Prop :=
  ∀ opts, .request opts ∈ turn'.out → .request opts ∈ turn.out

theorem Adds.sendsNothing (h : Adds (fun o => o.isRequest = false) turn turn') :
    SendsNothing turn turn' := by
  intro opts hMem
  obtain ⟨new, hNew, hAll⟩ := h.entries
  rw [hNew] at hMem
  rcases List.mem_append.mp hMem with hOld | hAdded
  · exact hOld
  · cases hAll _ hAdded

theorem Adds.passive_sendsNothing (h : Adds AgentOutput.passive turn turn') :
    SendsNothing turn turn' :=
  (h.mono fun _ ho => ho.2).sendsNothing

theorem SendsNothing.trans {a b c : AgentTurn} (h : SendsNothing a b) (h' : SendsNothing b c) :
    SendsNothing a c := fun opts hMem => h opts (h' opts hMem)

theorem driveLoop_sendsNothing (turn : AgentTurn) (left : Nat) :
    SendsNothing turn (driveLoop lib w turn left).1 := by
  induction left generalizing turn with
  | zero => exact fun _ hMem => hMem
  | succ left ih =>
    have hStart := (startTool_adds lib w turn turn.toolIndex).sendsNothing
    unfold driveLoop
    split
    · generalize startTool lib w turn turn.toolIndex = r at hStart
      obtain ⟨next, key⟩ := r
      cases key with
      | none => exact hStart.trans (ih next)
      | some key => exact hStart
    · exact fun _ hMem => hMem

theorem driveTools_sendsNothing (turn : AgentTurn) :
    SendsNothing turn (driveTools lib w turn) := by
  have hLoop : SendsNothing turn
      (driveLoop lib w { turn with inDriver := true } (turn.calls.length - turn.toolIndex)).1 :=
    driveLoop_sendsNothing lib w { turn with inDriver := true } _
  unfold driveTools
  generalize driveLoop lib w { turn with inDriver := true }
    (turn.calls.length - turn.toolIndex) = r at hLoop
  obtain ⟨next, running⟩ := r
  have hNext : SendsNothing turn { next with inDriver := false } := hLoop
  cases running with
  | true => exact hNext
  | false =>
    dsimp only
    split
    · exact hNext.trans (finishTurn_passive _ _ _).passive_sendsNothing
    split
    · exact hNext.trans (finishWithSynthetics_passive lib w _).passive_sendsNothing
    · exact hNext.trans (nextStep_passive w _).passive_sendsNothing

theorem agentToolDone_sendsNothing (turn : AgentTurn) (result : ToolResult) :
    SendsNothing turn (agentToolDone lib w turn result) := by
  have hAdvance := (toolDoneAdvance_passive lib w turn result).passive_sendsNothing
  unfold agentToolDone
  dsimp only
  split
  · exact fun _ hMem => hMem
  split
  · exact hAdvance
  · exact hAdvance.trans (driveTools_sendsNothing lib w _)

theorem providerOnDone_sendsNothing (turn : AgentTurn) (message : CJson) (usage : Option Usage) :
    SendsNothing turn (providerOnDone lib w turn message usage) := by
  have hStream : Adds AgentOutput.passive turn { turn with stream := none } := .still rfl rfl rfl
  have hHeard := (hStream.trans (noteUsage_passive _ usage)).trans (maybeWarnContext_passive w _)
  have hAppend := (hHeard.trans (append_passive lib w _ message)).passive_sendsNothing
  unfold providerOnDone
  dsimp only
  split
  · rename_i next err hReply
    rw [hReply] at hAppend
    exact hAppend.trans (finishTurn_passive _ _ _).passive_sendsNothing
  rename_i next hReply
  rw [hReply] at hAppend
  have hCalls : SendsNothing turn { next with calls := toolCalls message, toolIndex := 0 } :=
    hAppend
  split
  · exact hAppend.trans (finishTurn_passive _ _ _).passive_sendsNothing
  split
  · exact hCalls.trans (finishWithSynthetics_passive lib w _).passive_sendsNothing
  · exact hCalls.trans (driveTools_sendsNothing lib w _)

theorem issueRequest_requests (turn : AgentTurn) {opts : OpenrouterOpts}
    (hMem : .request opts ∈ (issueRequest w turn).1.out) :
    .request opts ∈ turn.out ∨ ∃ tools, opts = requestOpts turn tools := by
  have hSent : ∀ {tools}, .request opts ∈ (turn.emit (.request (requestOpts turn tools))).out →
      .request opts ∈ turn.out ∨ ∃ tools, opts = requestOpts turn tools := by
    intro tools hMem
    rcases List.mem_append.mp hMem with hOld | hNew
    · exact .inl hOld
    · cases List.mem_singleton.mp hNew
      exact .inr ⟨tools, rfl⟩
  unfold issueRequest at hMem
  dsimp only at hMem
  split at hMem
  · exact .inl hMem
  split at hMem
  · exact hSent hMem
  · exact hSent ((providerOnError_passive _ _).passive_sendsNothing opts hMem)
  · exact hSent hMem

theorem stepTimerCb_requests (turn : AgentTurn) {opts : OpenrouterOpts}
    (hMem : .request opts ∈ (stepTimerCb w turn).out) :
    .request opts ∈ turn.out ∨ ∃ tools, opts = requestOpts turn tools := by
  have hIssued : ∀ opts, .request opts ∈ (issueRequest w turn).1.out →
      .request opts ∈ turn.out ∨ ∃ tools, opts = requestOpts turn tools :=
    fun _ => issueRequest_requests w turn
  unfold stepTimerCb at hMem
  split at hMem
  · exact .inl ((finishTurn_passive _ _ _).passive_sendsNothing opts hMem)
  split at hMem
  · rename_i next err hReply
    rw [hReply] at hIssued
    exact hIssued opts ((finishTurn_passive _ _ _).passive_sendsNothing opts hMem)
  · rename_i next hReply
    rw [hReply] at hIssued
    exact hIssued opts hMem

theorem step_requests {input : TurnInput} (hStep : Agent.step lib w turn input = some turn')
    {opts : OpenrouterOpts} (hMem : .request opts ∈ turn'.out) :
    .request opts ∈ turn.out ∨ turn.timer = true ∧ ∃ tools, opts = requestOpts turn tools := by
  have hQuiet : SendsNothing turn turn' → .request opts ∈ turn.out ∨
      turn.timer = true ∧ ∃ tools, opts = requestOpts turn tools := fun h => .inl (h opts hMem)
  unfold Agent.step at hStep
  split at hStep
  · obtain ⟨hTimer, hStep⟩ := Option.ite_none_right_eq_some.mp hStep
    obtain rfl := Option.some.inj hStep
    rcases stepTimerCb_requests w { turn with timer := false } hMem with hOld | ⟨tools, hOpts⟩
    · exact .inl hOld
    · exact .inr ⟨hTimer, tools, hOpts⟩
  · obtain ⟨-, hStep⟩ := Option.ite_none_right_eq_some.mp hStep
    obtain rfl := Option.some.inj hStep
    exact hQuiet (providerOnText_passive w turn _).passive_sendsNothing
  · obtain ⟨-, hStep⟩ := Option.ite_none_right_eq_some.mp hStep
    obtain rfl := Option.some.inj hStep
    exact hQuiet (providerOnDone_sendsNothing lib w _ _ _)
  · obtain ⟨-, hStep⟩ := Option.ite_none_right_eq_some.mp hStep
    obtain rfl := Option.some.inj hStep
    exact hQuiet (providerOnError_passive _ _).passive_sendsNothing
  · rename_i key result
    obtain ⟨-, hStep⟩ := Option.ite_none_right_eq_some.mp hStep
    obtain rfl := Option.some.inj hStep
    have hDone : (AgentOutput.toolDone key result).passive := ⟨rfl, rfl⟩
    exact hQuiet ((Adds.emit turn hDone).passive_sendsNothing.trans
      (agentToolDone_sendsNothing lib w _ _))
  · obtain rfl := Option.some.inj hStep
    exact hQuiet (agentTurnCancel_passive w turn).passive_sendsNothing

/-- An invariant that passive steps, starting a call and issuing a request keep. -/
structure Kept (I : AgentTurn → Prop) : Prop where
  passive : ∀ {turn turn'}, Adds AgentOutput.passive turn turn' → I turn → I turn'
  start : ∀ {turn} idx, I turn → I (startTool lib w turn idx).1
  request : ∀ {turn} tools, I turn → I (turn.emit (.request (requestOpts turn tools)))

variable {lib w} {I : AgentTurn → Prop}

theorem Kept.still (hI : Kept lib w I) (h : I turn) (hOpts : turn'.opts = turn.opts)
    (hCalls : turn'.calls = turn.calls) (hOut : turn'.out = turn.out) : I turn' :=
  hI.passive (Adds.still hOpts hCalls hOut) h

theorem Kept.driveLoop (hI : Kept lib w I) (h : I turn) (left : Nat) :
    I (driveLoop lib w turn left).1 := by
  induction left generalizing turn with
  | zero => exact h
  | succ left ih =>
    have hStart := hI.start turn.toolIndex h
    unfold Agent.driveLoop
    split
    · generalize startTool lib w turn turn.toolIndex = r at hStart
      obtain ⟨next, key⟩ := r
      cases key with
      | none => exact ih hStart
      | some key => exact hI.still hStart rfl rfl rfl
    · exact h

theorem Kept.driveTools (hI : Kept lib w I) (h : I turn) : I (driveTools lib w turn) := by
  have hDriver : I { turn with inDriver := true } := hI.still h rfl rfl rfl
  have hLoop := hI.driveLoop hDriver (turn.calls.length - turn.toolIndex)
  unfold Agent.driveTools
  generalize Agent.driveLoop lib w { turn with inDriver := true }
    (turn.calls.length - turn.toolIndex) = r at hLoop
  obtain ⟨next, running⟩ := r
  have hNext : I { next with inDriver := false } := hI.still hLoop rfl rfl rfl
  cases running with
  | true => exact hNext
  | false =>
    dsimp only
    split
    · exact hI.passive (finishTurn_passive _ _ _) hNext
    split
    · exact hI.passive (finishWithSynthetics_passive lib w _) hNext
    · exact hI.passive (nextStep_passive w _) hNext

theorem Kept.agentToolDone (hI : Kept lib w I) (h : I turn) (result : ToolResult) :
    I (agentToolDone lib w turn result) := by
  have hAdvance := hI.passive (toolDoneAdvance_passive lib w turn result) h
  unfold Agent.agentToolDone
  dsimp only
  split
  · exact hI.still h rfl rfl rfl
  split
  · exact hAdvance
  · exact hI.driveTools hAdvance

theorem Kept.providerOnDone (hI : Kept lib w I) (h : I turn) {message : CJson}
    (hCalls : ∀ {turn}, I turn → I { turn with calls := toolCalls message, toolIndex := 0 })
    (usage : Option Usage) : I (providerOnDone lib w turn message usage) := by
  have hStream : I { turn with stream := none } := hI.still h rfl rfl rfl
  have hHeard := hI.passive (maybeWarnContext_passive w _)
    (hI.passive (noteUsage_passive _ usage) hStream)
  have hAppend := hI.passive (append_passive lib w _ message) hHeard
  unfold Agent.providerOnDone
  dsimp only
  split
  · rename_i next err hReply
    rw [hReply] at hAppend
    exact hI.passive (finishTurn_passive _ _ _) hAppend
  · rename_i next hReply
    rw [hReply] at hAppend
    split
    · exact hI.passive (finishTurn_passive _ _ _) hAppend
    split
    · apply hI.passive (finishWithSynthetics_passive lib w _)
      exact hI.still (hCalls hAppend) rfl rfl rfl
    · exact hI.driveTools (hCalls hAppend)

theorem Kept.issueRequest (hI : Kept lib w I) (h : I turn) : I (issueRequest w turn).1 := by
  unfold Agent.issueRequest
  dsimp only
  split
  · exact h
  rename_i tools hTools
  have hRequest := hI.request tools h
  split
  · exact hI.still hRequest rfl rfl rfl
  · rename_i err hReply
    have hError := hI.passive (providerOnError_passive _ err) hRequest
    exact hI.still hError rfl rfl rfl
  · exact hI.still hRequest rfl rfl rfl

theorem Kept.stepTimerCb (hI : Kept lib w I) (h : I turn) : I (stepTimerCb w turn) := by
  have hRequest := hI.issueRequest h
  unfold Agent.stepTimerCb
  split
  · exact hI.passive (finishTurn_passive _ _ _) h
  · split
    · rename_i next err hReply
      rw [hReply] at hRequest
      exact hI.passive (finishTurn_passive _ _ _) hRequest
    · rename_i next hReply
      rw [hReply] at hRequest
      exact hRequest

/-- Inputs whose assistant messages set calls that the invariant admits. -/
def TurnInput.Admitted (I : AgentTurn → Prop) : TurnInput → Prop
  | .done _ message _ =>
    ∀ {turn}, I turn → I { turn with calls := toolCalls message.json, toolIndex := 0 }
  | _ => True

theorem Kept.step (hI : Kept lib w I) {input : TurnInput} (hInput : input.Admitted I)
    (h : I turn) (hStep : Agent.step lib w turn input = some turn') : I turn' := by
  unfold Agent.step at hStep
  split at hStep
  · obtain ⟨-, hStep⟩ := Option.ite_none_right_eq_some.mp hStep
    refine Option.some.inj hStep ▸ hI.stepTimerCb ?_
    exact hI.still h rfl rfl rfl
  · obtain ⟨-, hStep⟩ := Option.ite_none_right_eq_some.mp hStep
    exact Option.some.inj hStep ▸ hI.passive (providerOnText_passive w turn _) h
  · obtain ⟨-, hStep⟩ := Option.ite_none_right_eq_some.mp hStep
    refine Option.some.inj hStep ▸ hI.providerOnDone ?_ hInput _
    exact hI.still h rfl rfl rfl
  · obtain ⟨-, hStep⟩ := Option.ite_none_right_eq_some.mp hStep
    refine Option.some.inj hStep ▸ hI.passive (providerOnError_passive _ _) ?_
    exact hI.still h rfl rfl rfl
  · obtain ⟨-, hStep⟩ := Option.ite_none_right_eq_some.mp hStep
    refine Option.some.inj hStep ▸ hI.agentToolDone ?_ _
    apply hI.passive (Adds.emit _ ⟨rfl, rfl⟩)
    exact hI.still h rfl rfl rfl
  · exact Option.some.inj hStep ▸ hI.passive (agentTurnCancel_passive w turn) h

theorem Kept.run (hI : Kept lib w I) {inputs : List TurnInput}
    (hInputs : ∀ input ∈ inputs, input.Admitted I) (h : I turn)
    (hRun : Run.run (Agent.step lib w) turn inputs = some turn') : I turn' := by
  have hStep : ∀ s input s', input.Admitted I → I s → Agent.step lib w s input = some s' → I s' :=
    fun _ _ _ => hI.step
  exact Run.run_invariant_of hStep hInputs h hRun

end Mua.Agent
