import Mua.AgentRounds
import Mua.AgentFrame
import Mua.Lib.After

/-! # What follows a cancellation

`agent_turn_cancel` may be called between two events or from inside a callback.
`Stops` says what the history may hold after such a point, and the functions of
the loop are shown to keep it: while nothing was cancelled they may do anything,
and once something was, the flag that the next continuation tests is set.
-/

namespace Mua.Agent

open Session Openrouter After

/-- The callbacks of the turn, from inside which it may be cancelled. -/
def AgentOutput.isCallback : AgentOutput → Bool
  | .onText _ | .gate .. | .onToolStart .. | .execute .. | .onToolResult .. | .onNotice _ => true
  | _ => false

/-- Entries that neither start nor finish anything, and are no text. -/
def AgentOutput.plain : AgentOutput → Bool
  | .request _ | .execute .. | .onFinish .. | .onText _ => false
  | _ => true

/-- The points of a run at which `agent_turn_cancel` is called on the unfinished turn. -/
inductive CancelsAt (lib : JsonLib) (w : World) (turn : AgentTurn) (inputs : List TurnInput) :
    History → Prop
  | loop {before after : List TurnInput} {mid : AgentTurn}
      (hInputs : inputs = before ++ .cancel :: after)
      (hRun : Run.run (step lib w) turn before = some mid) (hLive : mid.finished = false) :
      CancelsAt lib w turn inputs mid.out
  | callback {out : History} {o : AgentOutput} (hCallback : o.isCallback = true)
      (hCancels : w.cancels (out ++ [o]) = true) : CancelsAt lib w turn inputs (out ++ [o])

def CancelsIn (w : World) (out : History) : Prop :=
  ∃ before o, out = before ++ [o] ∧ o.isCallback = true ∧ w.cancels out = true

def Canceled (w : World) (mark : History → Prop) (out : History) : Prop :=
  mark out ∨ CancelsIn w out

/-- The gate or the start of a call of this tool is on the stack. -/
def Opens (tool : ToolDef) (out : History) : Prop :=
  ∃ before args, out = before ++ [.gate tool args] ∨ out = before ++ [.onToolStart tool.name args]

/-- Why a cancelled turn ended as it did, read off what came since. -/
inductive Ends : History → TurnOutcome → Prop
  | interrupted (out : History) : Ends out .interrupted
  | failed (out : History) (sess : SessionState) (msg : CJson) :
      Ends (out ++ [.append sess msg false]) .failed
  | done (out : History) (sess : SessionState) {msg : CJson} (hRole : hasRoleOf "assistant" msg)
      (hCalls : toolCalls msg = []) : Ends (out ++ [.append sess msg true]) .done

/-- What may follow a cancellation: no request, no execution but that of the call on the stack,
and an outcome that says so. -/
structure Stops (before after : History) : Prop where
  requests : ∀ o ∈ after, o.isRequest = false
  executes : ∀ mids key tool args rest, after = mids ++ .execute key tool args :: rest →
    Opens tool before ∧ (∀ o ∈ mids, ∃ args, o = .onToolStart tool.name args) ∧
      ∀ o ∈ rest, o.isExecute = false
  finish : ∀ mids outcome err, after = mids ++ [.onFinish outcome err] → Ends mids outcome

/-- A cancellation from inside `on_text` reaches the stream at once. -/
def StopsStream (before after : History) : Prop :=
  (∃ out text, before = out ++ [.onText text]) → after ≠ [] →
    ∃ rest, after = .cancelStream :: rest

variable {lib : JsonLib} {w : World} {mark : History → Prop} {b : Prop} {turn turn' : AgentTurn}
  {before after out : History} {o : AgentOutput}

theorem Stops.nil (before : History) : Stops before [] where
  requests := List.forall_mem_nil _
  executes := by
    intro mids key tool args rest h
    simp at h
  finish := by
    intro mids outcome err h
    simp at h

theorem Stops.add (h : Stops before after) (hRequest : o.isRequest = false)
    (hExecute : o.isExecute = false)
    (hFinish : ∀ outcome err, o = .onFinish outcome err → Ends after outcome) :
    Stops before (after ++ [o]) where
  requests := by
    intro o' ho'
    rcases List.mem_append.mp ho' with ho' | ho'
    · exact h.requests o' ho'
    · exact List.mem_singleton.mp ho' ▸ hRequest
  executes := by
    intro mids key tool args rest hAfter
    rw [List.append_cons mids] at hAfter
    rcases snoc_eq_append hAfter with ⟨hLast, -⟩ | ⟨rest', rfl, hRest⟩
    · obtain ⟨-, hEq⟩ := List.append_inj' hLast rfl
      rw [← List.singleton_inj.mp hEq] at hExecute
      cases hExecute
    · rw [← List.append_cons] at hRest
      obtain ⟨hOpens, hMids, hNone⟩ := h.executes mids key tool args rest' hRest
      refine ⟨hOpens, hMids, ?_⟩
      intro o' ho'
      rcases List.mem_append.mp ho' with ho' | ho'
      · exact hNone o' ho'
      · exact List.mem_singleton.mp ho' ▸ hExecute
  finish := by
    intro mids outcome err hAfter
    obtain ⟨rfl, hEq⟩ := List.append_inj' hAfter rfl
    exact hFinish outcome err (List.singleton_inj.mp hEq)

theorem Stops.execute {key : CallKey} {tool : ToolDef} {args : CJson} (h : Stops before after)
    (hOpens : Opens tool before) (hAfter : ∀ o ∈ after, ∃ args, o = .onToolStart tool.name args) :
    Stops before (after ++ [.execute key tool args]) where
  requests := by
    intro o ho
    rcases List.mem_append.mp ho with ho | ho
    · exact h.requests o ho
    · exact List.mem_singleton.mp ho ▸ rfl
  executes := by
    intro mids key' tool' args' rest hEq
    rw [List.append_cons mids] at hEq
    rcases snoc_eq_append hEq with ⟨hLast, rfl⟩ | ⟨rest', rfl, hRest⟩
    · obtain ⟨rfl, hSame⟩ := List.append_inj' hLast rfl
      cases List.singleton_inj.mp hSame
      exact ⟨hOpens, hAfter, List.forall_mem_nil _⟩
    · have hMem : .execute key' tool' args' ∈ after := by rw [hRest]; simp
      obtain ⟨args'', hStart⟩ := hAfter _ hMem
      cases hStart
  finish := by
    intro mids outcome err hEq
    obtain ⟨-, hLast⟩ := List.append_inj' hEq rfl
    cases List.singleton_inj.mp hLast

/-- Every cancellation so far is followed by what may follow it. -/
structure Obeys (w : World) (mark : History → Prop) (turn : AgentTurn) : Prop where
  holds : Holds (Canceled w mark) Stops turn.out
  old : ∀ out, mark out → out.length ≤ turn.out.length
  streams : Holds (CancelsIn w) StopsStream turn.out

/-- And the stream that an `on_text` cancels is told so before anything else happens. -/
structure Guarded (w : World) (mark : History → Prop) (turn : AgentTurn) : Prop
    extends Obeys w mark turn where
  settled : ∀ out text, turn.out = out ++ [.onText text] → w.cancels turn.out = false

abbrev Stopped (w : World) (mark : History → Prop) (turn : AgentTurn) : Prop :=
  Reached (Canceled w mark) turn.out

theorem canceled_snoc (hOld : ∀ h, mark h → h.length ≤ out.length)
    (h : Canceled w mark (out ++ [o])) : o.isCallback = true ∧ w.cancels (out ++ [o]) = true := by
  rcases h with hMark | ⟨before, o', hOut, hCallback, hCancels⟩
  · have hLength := hOld _ hMark
    rw [List.length_append, List.length_singleton] at hLength
    omega
  · obtain ⟨-, hLast⟩ := List.append_inj' hOut rfl
    rw [List.singleton_inj.mp hLast]
    exact ⟨hCallback, List.singleton_inj.mp hLast ▸ hCancels⟩

theorem Obeys.congr (h : Obeys w mark turn) (hOut : turn'.out = turn.out) : Obeys w mark turn' :=
  ⟨hOut ▸ h.holds, hOut ▸ h.old, hOut ▸ h.streams⟩

theorem Guarded.congr (h : Guarded w mark turn) (hOut : turn'.out = turn.out) :
    Guarded w mark turn' := ⟨h.toObeys.congr hOut, hOut ▸ h.settled⟩

theorem Obeys.grow (h : Obeys w mark turn) (o : AgentOutput) :
    ∀ out, mark out → out.length ≤ (turn.emit o).out.length := by
  intro out hMark
  have hLength := h.old out hMark
  show out.length ≤ (turn.out ++ [o]).length
  rw [List.length_append]
  exact Nat.le_add_right_of_le hLength

theorem Guarded.streams_emit (h : Guarded w mark turn) (o : AgentOutput) :
    Holds (CancelsIn w) StopsStream (turn.emit o).out := by
  refine h.streams.snoc (fun _ _ hNil => absurd rfl hNil) ?_
  rintro before after hOut ⟨-, -, -, -, hCancels⟩ hStops ⟨init, text, hText⟩ -
  have hSome : after ≠ [] := by
    rintro rfl
    rw [List.append_nil] at hOut
    have hSettled := h.settled init text (hOut.trans hText)
    rw [hOut] at hSettled
    exact absurd (hSettled.symm.trans hCancels) nofun
  obtain ⟨rest, rfl⟩ := hStops ⟨init, text, hText⟩ hSome
  exact ⟨rest ++ [o], rfl⟩

theorem Obeys.holds_emit (h : Obeys w mark turn) (hRequest : o.isRequest = false)
    (hExecute : o.isExecute = false) (hFinish : o.isFinish = false) :
    Holds (Canceled w mark) Stops (turn.emit o).out := by
  refine h.holds.snoc (fun _ => .nil _) ?_
  intro before after _ _ hStops
  refine hStops.add hRequest hExecute ?_
  rintro outcome err rfl
  cases hFinish

theorem settled_emit (turn : AgentTurn) (hText : ∀ text, o ≠ .onText text) :
    ∀ out text, (turn.emit o).out = out ++ [.onText text] → w.cancels (turn.emit o).out = false := by
  intro out text hOut
  obtain ⟨-, hLast⟩ := List.append_inj' hOut rfl
  exact absurd (List.singleton_inj.mp hLast) (hText text)

theorem Guarded.emit (h : Guarded w mark turn) (hPlain : o.plain = true) :
    Guarded w mark (turn.emit o) := by
  refine ⟨⟨h.holds_emit ?_ ?_ ?_, h.grow o, h.streams_emit o⟩, settled_emit turn ?_⟩
  case refine_4 =>
    rintro text rfl
    cases hPlain
  all_goals
    cases o with
    | request opts => cases hPlain
    | execute key tool args => cases hPlain
    | onFinish outcome err => cases hPlain
    | _ => rfl

theorem Stopped.of_emit (hOld : ∀ h, mark h → h.length ≤ turn.out.length)
    (h : Stopped w mark (turn.emit o)) :
    (o.isCallback = true ∧ w.cancels (turn.out ++ [o]) = true) ∨ Stopped w mark turn :=
  h.of_snoc.imp (canceled_snoc hOld) id

theorem Guarded.free (h : Guarded w mark turn) (hFree : ¬Stopped w mark turn)
    (hCallback : o.isCallback = false) :
    Guarded w mark (turn.emit o) ∧ ¬Stopped w mark (turn.emit o) := by
  have hStill : ¬Stopped w mark (turn.emit o) := by
    intro hStopped
    rcases hStopped.of_emit h.old with ⟨hIs, -⟩ | hStopped
    · exact absurd (hCallback.symm.trans hIs) nofun
    · exact hFree hStopped
  refine ⟨⟨⟨.of_not_reached hStill, h.grow o, h.streams_emit o⟩, settled_emit turn ?_⟩, hStill⟩
  rintro text rfl
  cases hCallback

/-- Between two events: an unfinished turn that was cancelled has the flag its state is read by. -/
structure Steady (w : World) (mark : History → Prop) (turn : AgentTurn) : Prop
    extends Guarded w mark turn where
  flag : turn.finished = false → Stopped w mark turn →
    if turn.stream = none then turn.canceling = true else turn.cancelRequested = true

inductive Closes (mark : History → Prop) : History → TurnOutcome → Prop
  | interrupted (out : History) : Closes mark out .interrupted
  | append {init : History} {sess : SessionState} {msg : CJson} {ok : Bool} {outcome : TurnOutcome}
      (hEnds : ∀ out, Ends (out ++ [.append sess msg ok]) outcome)
      (hOld : ∀ h, mark h → h.length ≤ init.length) :
      Closes mark (init ++ [.append sess msg ok]) outcome

theorem Closes.ends {outcome : TurnOutcome} (h : Closes mark out outcome)
    (hOut : out = before ++ after) (hCanceled : Canceled w mark before) : Ends after outcome := by
  cases h with
  | interrupted => exact .interrupted after
  | append hEnds hOld =>
    rcases snoc_eq_append hOut with ⟨rfl, -⟩ | ⟨rest, rfl, -⟩
    · cases (canceled_snoc hOld hCanceled).1
    · exact hEnds rest

theorem finishTurn_steady (h : Guarded w mark turn) {outcome : TurnOutcome}
    (hCloses : Stopped w mark turn → Closes mark turn.out outcome) (err : Option Error) :
    Steady w mark (finishTurn turn outcome err) := by
  unfold finishTurn
  split
  · rename_i hFinished
    exact { h with flag := fun hLive => absurd (hFinished.symm.trans hLive) nofun }
  · have hLast : ∀ text, .onFinish outcome err ≠ AgentOutput.onText text := nofun
    refine ⟨⟨⟨?_, h.grow _, h.streams_emit _⟩, settled_emit turn hLast⟩, nofun⟩
    refine h.holds.snoc (fun _ => .nil _) ?_
    intro before after hOut hCanceled hStops
    refine hStops.add rfl rfl ?_
    rintro outcome' err' hEq
    cases hEq
    exact (hCloses ⟨before, after, hOut, hCanceled⟩).ends hOut hCanceled

theorem finishTurn_finished (turn : AgentTurn) (outcome : TurnOutcome) (err : Option Error) :
    (finishTurn turn outcome err).finished = true := by
  unfold finishTurn
  split
  · rename_i hFinished
    exact hFinished
  · rfl

theorem providerOnError_finished (turn : AgentTurn) (err : Error) :
    (providerOnError turn err).finished = true := by
  unfold providerOnError
  dsimp only
  split
  · exact finishTurn_finished _ _ _
  · exact finishTurn_finished _ _ _

theorem finishTurn_free (h : Guarded w mark turn) (hFree : ¬Stopped w mark turn)
    (outcome : TurnOutcome) (err : Option Error) : Steady w mark (finishTurn turn outcome err) :=
  finishTurn_steady h (fun hStopped => absurd hStopped hFree) err

theorem finishTurn_interrupted (h : Guarded w mark turn) (err : Option Error) :
    Steady w mark (finishTurn turn .interrupted err) :=
  finishTurn_steady h (fun _ => .interrupted _) err

theorem providerOnError_steady (h : Guarded w mark turn)
    (hFlag : Stopped w mark turn → turn.cancelRequested = true) (err : Error) :
    Steady w mark (providerOnError turn err) := by
  have hStream : Guarded w mark { turn with stream := none } := h.congr rfl
  unfold providerOnError
  dsimp only
  split
  · exact finishTurn_interrupted hStream _
  · rename_i hNot
    exact finishTurn_free hStream (fun hStopped => hNot (hFlag hStopped)) _ _

theorem cancelStream_steady (h : Obeys w mark turn) {id : Nat} (hStream : turn.stream = some id) :
    Steady w mark (cancelStream w { turn with cancelRequested := true } id) := by
  have hCancel : Guarded w mark ({ turn with cancelRequested := true }.emit .cancelStream) := by
    have hLast : ∀ text, .cancelStream ≠ AgentOutput.onText text := nofun
    refine ⟨⟨h.holds_emit rfl rfl rfl, h.grow _, ?_⟩, settled_emit turn hLast⟩
    refine h.streams.snoc (fun _ _ hNil => absurd rfl hNil) ?_
    rintro before after - - hStops hText -
    cases after with
    | nil => exact ⟨[], rfl⟩
    | cons o after =>
      obtain ⟨rest, hRest⟩ := hStops hText nofun
      exact ⟨rest ++ [.cancelStream], by rw [hRest]; rfl⟩
  unfold cancelStream
  dsimp only
  split
  · apply providerOnError_steady
    · exact hCancel.congr rfl
    · exact fun _ => rfl
  · refine { hCancel with flag := ?_ }
    intro _ _
    split
    · rename_i hNone
      cases hStream.symm.trans hNone
    · rfl

theorem agentTurnCancel_stream {id : Nat} (hLive : turn.finished = false)
    (hStream : turn.stream = some id) :
    agentTurnCancel w turn = cancelStream w { turn with cancelRequested := true } id := by
  unfold agentTurnCancel
  rw [if_neg (by simp [hLive])]
  split
  · rename_i id' hSome
    obtain rfl : id = id' := Option.some.inj (hStream.symm.trans hSome)
    rfl
  · rename_i hNone
    cases hStream.symm.trans hNone

theorem agentTurnCancel_steady (h : Guarded w mark turn) :
    Steady w mark (agentTurnCancel w turn) := by
  unfold agentTurnCancel
  split
  · rename_i hFinished
    exact { h with flag := fun hLive => absurd (hFinished.symm.trans hLive) nofun }
  split
  · rename_i id hSome
    exact cancelStream_steady h.toObeys hSome
  · rename_i hNone
    have hCanceling : Guarded w mark { turn with canceling := true } := h.congr rfl
    have hFlag : ∀ next : AgentTurn, next.stream = none → next.canceling = true →
        next.finished = false → Stopped w mark next →
        if next.stream = none then next.canceling = true else next.cancelRequested = true := by
      intro next hStream hSet _ _
      rwa [if_pos hStream]
    dsimp only
    split
    · exact { hCanceling.emit rfl with flag := hFlag _ hNone rfl }
    · exact { hCanceling with flag := hFlag _ hNone rfl }

/-- The turn is in the hands of the driver. A cancellation has set `canceling`, or, where `b`
allows, `cancelRequested`. -/
structure Driving (w : World) (mark : History → Prop) (b : Prop) (turn : AgentTurn) : Prop
    extends Guarded w mark turn where
  unfinished : turn.finished = false
  stream : turn.stream = none
  exec : turn.exec = none
  failing : turn.failing = false
  flag : Stopped w mark turn → turn.canceling = true ∨ b ∧ turn.cancelRequested = true

structure Failing (w : World) (mark : History → Prop) (turn : AgentTurn) : Prop
    extends Guarded w mark turn where
  unfinished : turn.finished = false
  failing : turn.failing = true
  refused : Closes mark turn.out .failed

theorem Driving.emit (h : Driving w mark b turn) (hPlain : o.plain = true)
    (hCallback : o.isCallback = false) : Driving w mark b (turn.emit o) := by
  refine { h.toGuarded.emit hPlain with
    unfinished := h.unfinished, stream := h.stream, exec := h.exec, failing := h.failing, flag := ?_ }
  intro hStopped
  rcases hStopped.of_emit h.old with ⟨hIs, -⟩ | hStopped
  · exact absurd (hCallback.symm.trans hIs) nofun
  · exact h.flag hStopped

theorem fire_idle (hUnfinished : turn.finished = false) (hStream : turn.stream = none)
    (hExec : turn.exec = none) (o : AgentOutput) :
    fire w turn o =
      { turn.emit o with canceling := turn.canceling || w.cancels (turn.out ++ [o]) } := by
  have hCancel : agentTurnCancel w (turn.emit o) = { turn.emit o with canceling := true } := by
    unfold agentTurnCancel
    rw [if_neg (by simp [AgentTurn.emit, hUnfinished])]
    simp [AgentTurn.emit, hStream, hExec]
  unfold fire
  dsimp only
  rw [show (turn.emit o).out = turn.out ++ [o] from rfl]
  cases hFires : w.cancels (turn.out ++ [o]) with
  | false =>
    rw [if_neg Bool.false_ne_true, Bool.or_false]
    rfl
  | true =>
    rw [if_pos rfl, hCancel, Bool.or_true]
    rfl

theorem Driving.fire (h : Driving w mark b turn) (hGuarded : Guarded w mark (turn.emit o)) :
    Driving w mark b (fire w turn o) := by
  rw [fire_idle h.unfinished h.stream h.exec o]
  refine { hGuarded.congr rfl with
    unfinished := h.unfinished, stream := h.stream, exec := h.exec, failing := h.failing, flag := ?_ }
  intro hStopped
  rcases Stopped.of_emit h.old hStopped with ⟨-, hCancels⟩ | hStopped
  · left
    show (turn.canceling || w.cancels (turn.out ++ [o])) = true
    rw [hCancels, Bool.or_true]
  · refine (h.flag hStopped).imp_left ?_
    intro hCanceling
    show (turn.canceling || w.cancels (turn.out ++ [o])) = true
    rw [hCanceling, Bool.true_or]

theorem append_driving (h : Driving w mark b turn) (msg : CJson) :
    Driving w mark b (append lib w turn msg).1 ∧
      (append lib w turn msg).1.out =
        turn.out ++ [.append turn.session msg (append lib w turn msg).2.isOk] := by
  unfold append
  generalize sessionAppend lib turn.session msg (w.write turn.out) = r
  obtain ⟨sess, result⟩ := r
  have hSession : Driving w mark b { turn with session := sess } :=
    { h with unfinished := h.unfinished }
  exact ⟨hSession.emit rfl rfl, rfl⟩

theorem append_closes (h : Driving w mark b turn) (msg : CJson) {outcome : TurnOutcome}
    (hEnds : ∀ out, Ends (out ++ [.append turn.session msg (append lib w turn msg).2.isOk]) outcome) :
    Closes mark (append lib w turn msg).1.out outcome := by
  rw [(append_driving h msg).2]
  exact .append hEnds h.old

/-- What a completed call leaves: the driver goes on, or the turn is failing. -/
def Completed (w : World) (mark : History → Prop) (turn : AgentTurn) : Prop :=
  Driving w mark False turn ∨ Failing w mark turn

theorem toolCompleted_completed (h : Driving w mark False turn) (result : ToolResult) :
    Completed w mark (toolCompleted lib w turn result) := by
  have hAppend : ∀ {r}, appendToolMessage lib w turn turn.toolIndex result.content = r →
      Driving w mark False r.1 ∧ (r.2.isOk = false → Closes mark r.1.out .failed) := by
    rintro r rfl
    refine ⟨(append_driving h _).1, ?_⟩
    intro hError
    refine append_closes h _ ?_
    intro out
    rw [show (append lib w turn _).2.isOk = false from hError]
    exact .failed out _ _
  unfold toolCompleted
  dsimp only
  split
  · rename_i next err hReply
    obtain ⟨hNext, hRefused⟩ := hAppend hReply
    right
    exact { hNext.toGuarded.congr rfl with
      unfinished := hNext.unfinished, failing := rfl, refused := hRefused rfl }
  · rename_i next hReply
    obtain ⟨hNext, -⟩ := hAppend hReply
    left
    have hFired : ∀ fired, Driving w mark False fired →
        Driving w mark False { fired with toolIndex := fired.toolIndex + 1 } :=
      fun fired hFired => { hFired with unfinished := hFired.unfinished }
    apply hFired
    split
    · exact hNext.fire (hNext.toGuarded.emit rfl)
    · exact hNext

theorem toolDoneAdvance_completed (h : Driving w mark False { turn with exec := none })
    (result : ToolResult) : Completed w mark (toolDoneAdvance lib w turn result) := by
  have hUnfinished : turn.finished = false := h.unfinished
  unfold toolDoneAdvance
  dsimp only
  rw [if_neg (by simp [hUnfinished])]
  exact toolCompleted_completed h result

/-- A call is being started: whatever cancelled the turn, did so from the call's own gate or
start. -/
structure Starting (w : World) (mark : History → Prop) (tool : ToolDef) (turn : AgentTurn) : Prop
    extends Driving w mark False turn where
  opens : ∀ before after, turn.out = before ++ after → Canceled w mark before →
    Opens tool before ∧ ∀ o ∈ after, ∃ args, o = .onToolStart tool.name args

theorem Driving.starting (h : Driving w mark False turn) (hFree : ¬Stopped w mark turn)
    (tool : ToolDef) : Starting w mark tool turn :=
  { h with opens := fun before after hOut hCanceled => absurd ⟨before, after, hOut, hCanceled⟩ hFree }

theorem Starting.fire {tool : ToolDef} (h : Starting w mark tool turn)
    (hGuarded : Guarded w mark (turn.emit o)) (hOpens : Opens tool (turn.out ++ [o]))
    (hStart : ¬Stopped w mark turn ∨ ∃ args, o = .onToolStart tool.name args) :
    Starting w mark tool (fire w turn o) := by
  refine { h.toDriving.fire hGuarded with opens := ?_ }
  rw [fire_idle h.unfinished h.stream h.exec o]
  intro before after hOut hCanceled
  rcases snoc_eq_append hOut with ⟨rfl, rfl⟩ | ⟨rest, rfl, hRest⟩
  · exact ⟨hOpens, List.forall_mem_nil _⟩
  · obtain ⟨hBefore, hAll⟩ := h.opens before rest hRest hCanceled
    refine ⟨hBefore, ?_⟩
    intro o' ho'
    rcases List.mem_append.mp ho' with ho' | ho'
    · exact hAll o' ho'
    · rw [List.mem_singleton.mp ho']
      exact hStart.resolve_left fun hFree => hFree ⟨before, rest, hRest, hCanceled⟩

theorem consultGate_starting (h : Driving w mark False turn) (hFree : ¬Stopped w mark turn)
    (tool : ToolDef) (args : CJson) : Starting w mark tool (consultGate w turn tool args).1 := by
  have hFired : Starting w mark tool (Agent.fire w turn (.gate tool args)) := by
    apply (h.starting hFree tool).fire
    · exact h.toGuarded.emit rfl
    · exact ⟨turn.out, args, .inl rfl⟩
    · exact .inl hFree
  unfold consultGate
  split
  · exact h.starting hFree tool
  · dsimp only
    split
    · exact hFired
    · exact hFired

theorem Starting.execute {tool : ToolDef} (h : Starting w mark tool turn) (key : CallKey)
    (args : CJson) : Guarded w mark (turn.emit (.execute key tool args)) := by
  have hLast : ∀ text, .execute key tool args ≠ AgentOutput.onText text := nofun
  refine ⟨⟨?_, h.grow _, h.streams_emit _⟩, settled_emit turn hLast⟩
  refine h.holds.snoc (fun _ => .nil _) ?_
  intro before after hOut hCanceled hStops
  obtain ⟨hOpens, hAll⟩ := h.opens before after hOut hCanceled
  exact hStops.execute hOpens hAll

theorem runTool_driving {tool : ToolDef} (h : Starting w mark tool turn) (key : CallKey)
    (args : CJson) :
    (∃ next, runTool lib w turn key tool args = (next, none) ∧ Completed w mark next) ∨
      ∃ next, runTool lib w turn key tool args = (next, some key) ∧ Driving w mark False next := by
  have hFired := h.toDriving.fire (h.execute key args)
  unfold runTool
  dsimp only
  generalize Agent.fire w turn (.execute key tool args) = next at hFired
  split
  · rename_i result hReply
    left
    refine ⟨_, rfl, toolDoneAdvance_completed ?_ result⟩
    have hDone := hFired.emit (o := .toolDone key result) rfl rfl
    exact { hDone with exec := rfl }
  · right
    exact ⟨_, rfl, { hFired with unfinished := hFired.unfinished }⟩

theorem startTool_driving (lib : JsonLib) (h : Driving w mark False turn) (hFree : ¬Stopped w mark turn)
    (idx : Nat) :
    (∃ next, startTool lib w turn idx = (next, none) ∧ Completed w mark next) ∨
      ∃ next key, startTool lib w turn idx = (next, some key) ∧ Driving w mark False next := by
  unfold startTool
  dsimp only
  split
  · exact .inl ⟨_, rfl, toolCompleted_completed h _⟩
  rename_i tool hTool
  split
  · exact .inl ⟨_, rfl, toolCompleted_completed h _⟩
  rename_i args hArgs
  have hGate := consultGate_starting h hFree tool args
  split
  · rename_i next refusal hConsult
    rw [hConsult] at hGate
    exact .inl ⟨_, rfl, toolCompleted_completed hGate.toDriving _⟩
  · rename_i next args' hConsult
    rw [hConsult] at hGate
    have hRun : ∀ {last}, Starting w mark tool last → ∀ key,
        (∃ next, runTool lib w last key tool args' = (next, none) ∧ Completed w mark next) ∨
          ∃ next key', runTool lib w last key tool args' = (next, some key') ∧
            Driving w mark False next := by
      intro last hLast key
      rcases runTool_driving hLast key args' with hDone | ⟨next, hReply, hNext⟩
      · exact .inl hDone
      · exact .inr ⟨next, key, hReply, hNext⟩
    apply hRun
    split
    · apply hGate.fire
      · exact hGate.toGuarded.emit rfl
      · exact ⟨next.out, args', .inr rfl⟩
      · exact .inr ⟨args', rfl⟩
    · exact hGate

theorem Driving.steady (h : Driving w mark False turn) (exec : Option CallKey) (driver : Bool) :
    Steady w mark { turn with exec := exec, inDriver := driver } := by
  refine { h.toGuarded.congr rfl with flag := ?_ }
  intro _ hStopped
  rw [if_pos h.stream]
  exact (h.flag hStopped).resolve_right And.left

theorem driveLoop_driving (lib : JsonLib) (left : Nat) (h : Completed w mark turn) :
    (∃ next, driveLoop lib w turn left = (next, false) ∧ Completed w mark next) ∨
      ∃ next key, driveLoop lib w turn left = ({ next with exec := some key }, true) ∧
        Driving w mark False next := by
  induction left generalizing turn with
  | zero => exact .inl ⟨turn, rfl, h⟩
  | succ left ih =>
    unfold driveLoop
    split
    · rename_i hGo
      rcases h with hDriving | hFailing
      · have hFree : ¬Stopped w mark turn := by
          intro hStopped
          exact hGo.2.1 ((hDriving.flag hStopped).resolve_right And.left)
        rcases startTool_driving lib hDriving hFree turn.toolIndex with
          ⟨next, hReply, hNext⟩ | ⟨next, key, hReply, hNext⟩
        · rw [hReply]
          exact ih hNext
        · rw [hReply]
          exact .inr ⟨next, key, rfl, hNext⟩
      · exact absurd hFailing.failing hGo.2.2
    · exact .inl ⟨turn, rfl, h⟩

theorem synthesize_driving (left : Nat) (h : Driving w mark b turn) :
    Driving w mark b (synthesize lib w turn left) := by
  induction left generalizing turn with
  | zero => exact h
  | succ left ih =>
    have hAppend : ∀ {r}, appendToolMessage lib w turn turn.toolIndex (ascii "[interrupted]") = r →
        Driving w mark b r.1 := by
      rintro r rfl
      exact (append_driving h _).1
    unfold synthesize
    split
    · split
      · rename_i next err hReply
        exact hAppend hReply
      · rename_i next hReply
        have hNext := hAppend hReply
        apply ih
        exact { hNext with unfinished := hNext.unfinished }
    · exact h

theorem finishWithSynthetics_steady (h : Driving w mark b turn) :
    Steady w mark (finishWithSynthetics lib w turn) :=
  finishTurn_interrupted (synthesize_driving _ h).toGuarded _

theorem nextStep_steady (h : Guarded w mark turn) (hFree : ¬Stopped w mark turn) :
    Steady w mark (nextStep w turn) := by
  have hStep : Guarded w mark { turn with step := turn.step + 1 } := h.congr rfl
  unfold nextStep armStepTimer
  dsimp only
  split
  · exact finishTurn_free hStep hFree _ _
  split
  · exact finishTurn_free hStep hFree _ _
  split
  · exact { hStep.congr rfl with flag := fun _ hStopped => absurd hStopped hFree }
  · exact finishTurn_free hStep hFree _ _

theorem driveTools_steady (h : Completed w mark turn) : Steady w mark (driveTools lib w turn) := by
  have hDriver : Completed w mark { turn with inDriver := true } := by
    rcases h with h | h
    · exact .inl { h with unfinished := h.unfinished }
    · exact .inr { h with unfinished := h.unfinished }
  unfold driveTools
  rcases driveLoop_driving lib (turn.calls.length - turn.toolIndex) hDriver with
    ⟨next, hReply, hNext⟩ | ⟨next, key, hReply, hNext⟩
  · rw [hReply]
    dsimp only
    rcases hNext with hNext | hNext
    · rw [if_neg (by simp [hNext.failing])]
      have hBetween : Driving w mark False { next with inDriver := false } :=
        { hNext with unfinished := hNext.unfinished }
      split
      · exact finishWithSynthetics_steady hBetween
      · rename_i hGoes
        apply nextStep_steady hBetween.toGuarded
        exact fun hStopped => hGoes ((hNext.flag hStopped).resolve_right And.left)
    · rw [if_pos hNext.failing]
      have hStill : Guarded w mark { next with inDriver := false } := hNext.toGuarded.congr rfl
      exact finishTurn_steady hStill (fun _ => hNext.refused) _
  · rw [hReply]
    exact hNext.steady (some key) false

theorem agentToolDone_steady (h : Driving w mark False { turn with exec := none })
    (result : ToolResult) (hDriver : (toolDoneAdvance lib w turn result).inDriver = false) :
    Steady w mark (agentToolDone lib w turn result) := by
  have hUnfinished : turn.finished = false := h.unfinished
  unfold agentToolDone
  rw [if_neg (by simp [hUnfinished])]
  dsimp only
  rw [if_neg (by simp [hDriver])]
  exact driveTools_steady (toolDoneAdvance_completed h result)

theorem providerOnText_steady {id : Nat} (h : Steady w mark turn) (hLive : turn.finished = false)
    (hStream : turn.stream = some id) (text : Bytes) :
    Steady w mark (providerOnText w turn text) := by
  have hText : Obeys w mark (turn.emit (.onText text)) :=
    ⟨h.holds_emit rfl rfl rfl, h.grow _, h.streams_emit _⟩
  unfold providerOnText fire
  dsimp only
  split
  · split
    · have hCancel : agentTurnCancel w (turn.emit (.onText text)) = _ :=
        agentTurnCancel_stream hLive hStream
      rw [hCancel]
      exact cancelStream_steady hText hStream
    · rename_i hNot
      have hQuiet : w.cancels (turn.emit (.onText text)).out = false := Bool.eq_false_iff.mpr hNot
      refine { hText with settled := fun _ _ _ => hQuiet, flag := ?_ }
      intro hLive hStopped
      rcases hStopped.of_emit h.old with ⟨-, hCancels⟩ | hStopped
      · exact absurd hCancels hNot
      · exact h.flag hLive hStopped
  · exact h

theorem maybeWarnContext_driving (h : Driving w mark b turn) :
    Driving w mark b (maybeWarnContext w turn) := by
  unfold maybeWarnContext
  split
  · exact h
  split
  · exact h
  · have hWarned : Driving w mark b { turn with contextWarned := true } :=
      { h with unfinished := h.unfinished }
    exact hWarned.fire (hWarned.toGuarded.emit rfl)

theorem noteUsage_driving (h : Driving w mark b turn) (usage : Option Usage) :
    Driving w mark b (noteUsage turn usage) := by
  unfold noteUsage
  split
  · split
    · exact { h with unfinished := h.unfinished }
    · exact h
  · exact h

theorem providerOnDone_steady (h : Driving w mark True { turn with stream := none })
    (message : AssistantMessage) (usage : Option Usage) :
    Steady w mark (providerOnDone lib w turn message.json usage) := by
  have hHeard := maybeWarnContext_driving (noteUsage_driving h usage)
  unfold providerOnDone
  dsimp only
  generalize maybeWarnContext w (noteUsage { turn with stream := none } usage) = heard at hHeard
  have hAppend : ∀ {r}, append lib w heard message.json = r →
      Driving w mark True r.1 ∧ ∀ outcome,
        (∀ out, Ends (out ++ [.append heard.session message.json r.2.isOk]) outcome) →
          Closes mark r.1.out outcome := by
    rintro r rfl
    exact ⟨(append_driving hHeard _).1, fun outcome => append_closes hHeard _⟩
  split
  · rename_i next err hReply
    obtain ⟨hNext, hCloses⟩ := hAppend hReply
    have hRefused := hCloses .failed fun out => .failed out _ _
    exact finishTurn_steady hNext.toGuarded (fun _ => hRefused) _
  · rename_i next hReply
    obtain ⟨hNext, hCloses⟩ := hAppend hReply
    split
    · rename_i hNone
      have hLanded := hCloses .done fun out => .done out _ message.role hNone
      exact finishTurn_steady hNext.toGuarded (fun _ => hLanded) _
    split
    · apply finishWithSynthetics_steady (b := True)
      exact { hNext with unfinished := hNext.unfinished, flag := fun _ => .inl rfl }
    · rename_i hNot
      apply driveTools_steady
      left
      refine { hNext with unfinished := hNext.unfinished, flag := ?_ }
      intro hStopped
      exact .inl ((hNext.flag hStopped).resolve_right fun hRequested => hNot hRequested.2)

theorem issueRequest_free (h : Guarded w mark turn) (hFree : ¬Stopped w mark turn) :
    Steady w mark (issueRequest w turn).1 ∧
      ∀ err, (issueRequest w turn).2 = .error err →
        Guarded w mark (issueRequest w turn).1 ∧ ¬Stopped w mark (issueRequest w turn).1 := by
  have hSteady : ∀ {next : AgentTurn}, Guarded w mark next → ¬Stopped w mark next →
      Steady w mark next :=
    fun hNext hNone => { hNext with flag := fun _ hStopped => absurd hStopped hNone }
  unfold issueRequest
  dsimp only
  split
  · exact ⟨hSteady h hFree, fun _ _ => ⟨h, hFree⟩⟩
  rename_i tools hTools
  obtain ⟨hRequest, hStill⟩ :=
    h.free (o := .request (requestOpts turn tools)) hFree rfl
  split
  · rename_i err hReply
    have hClosed : Guarded w mark
        { turn.emit (.request (requestOpts turn tools)) with stream := none } := hRequest.congr rfl
    exact ⟨hSteady hClosed hStill, fun _ _ => ⟨hClosed, hStill⟩⟩
  · rename_i err hReply
    have hError := providerOnError_steady hRequest (fun hStopped => absurd hStopped hStill) err
    have hFinished : (providerOnError (turn.emit (.request (requestOpts turn tools))) err).finished =
        true := providerOnError_finished _ _
    refine ⟨{ hError.toGuarded.congr rfl with flag := ?_ }, nofun⟩
    exact fun hLive => absurd (hFinished.symm.trans hLive) nofun
  · rename_i hReply
    exact ⟨hSteady (hRequest.congr rfl) hStill, nofun⟩

theorem stepTimerCb_steady (h : Steady w mark turn) (hLive : turn.finished = false)
    (hStream : turn.stream = none) : Steady w mark (stepTimerCb w turn) := by
  unfold stepTimerCb
  split
  · exact finishTurn_interrupted h.toGuarded _
  · rename_i hNot
    have hFree : ¬Stopped w mark turn := by
      intro hStopped
      have hFlag := h.flag hLive hStopped
      rw [if_pos hStream] at hFlag
      exact hNot (.inl hFlag)
    obtain ⟨hIssued, hRefused⟩ := issueRequest_free h.toGuarded hFree
    split
    · rename_i next err hReply
      rw [hReply] at hRefused
      obtain ⟨hNext, hStill⟩ := hRefused err rfl
      exact finishTurn_free hNext hStill _ _
    · rename_i next hReply
      rw [hReply] at hIssued
      exact hIssued

variable {A : Account lib} {cap : Int}

theorem Steady.congr (h : Steady w mark turn) (hOut : turn'.out = turn.out)
    (hFinished : turn'.finished = turn.finished) (hStream : turn'.stream = turn.stream)
    (hCanceling : turn'.canceling = turn.canceling)
    (hRequested : turn'.cancelRequested = turn.cancelRequested) : Steady w mark turn' := by
  refine { h.toGuarded.congr hOut with flag := ?_ }
  rw [hFinished, hStream, hCanceling, hRequested]
  intro hLive hStopped
  unfold Stopped at hStopped
  rw [hOut] at hStopped
  exact h.flag hLive hStopped

theorem Waiting.steady (hPhase : Waiting A cap turn) (h : Steady w mark turn) {input : TurnInput}
    (hStep : Agent.step lib w turn input = some turn') : Steady w mark turn' := by
  unfold Agent.step at hStep
  split at hStep
  · rw [if_pos hPhase.timer] at hStep
    refine Option.some.inj hStep ▸ stepTimerCb_steady ?_ hPhase.unfinished hPhase.stream
    exact h.congr rfl rfl rfl rfl rfl
  · simp [hPhase.streams] at hStep
  · simp [hPhase.streams] at hStep
  · simp [hPhase.streams] at hStep
  · simp [hPhase.tools] at hStep
  · exact Option.some.inj hStep ▸ agentTurnCancel_steady h.toGuarded

theorem Streaming.steady {id : Nat} (hPhase : Streaming A cap id turn) (h : Steady w mark turn)
    {input : TurnInput} (hStep : Agent.step lib w turn input = some turn') : Steady w mark turn' := by
  have hFlag : Stopped w mark turn → turn.cancelRequested = true := by
    intro hStopped
    have hSet := h.flag hPhase.unfinished hStopped
    rwa [hPhase.stream, if_neg nofun] at hSet
  unfold Agent.step at hStep
  split at hStep
  · simp [hPhase.timer] at hStep
  · obtain ⟨-, hStep⟩ := Option.ite_none_right_eq_some.mp hStep
    exact Option.some.inj hStep ▸ providerOnText_steady h hPhase.unfinished hPhase.stream _
  · obtain ⟨-, hStep⟩ := Option.ite_none_right_eq_some.mp hStep
    refine Option.some.inj hStep ▸ providerOnDone_steady ?_ _ _
    exact { h.toGuarded.congr rfl with
      unfinished := hPhase.unfinished, stream := rfl, exec := hPhase.exec
      failing := hPhase.failing, flag := fun hStopped => .inr ⟨trivial, hFlag hStopped⟩ }
  · obtain ⟨-, hStep⟩ := Option.ite_none_right_eq_some.mp hStep
    refine Option.some.inj hStep ▸ providerOnError_steady ?_ ?_ _
    · exact h.toGuarded.congr rfl
    · exact hFlag
  · simp [hPhase.tools] at hStep
  · exact Option.some.inj hStep ▸ agentTurnCancel_steady h.toGuarded

theorem Tooling.steady {key : CallKey} (hPhase : Tooling A cap false key [key] turn)
    (h : Steady w mark turn) {input : TurnInput}
    (hStep : Agent.step lib w turn input = some turn') : Steady w mark turn' := by
  have hFlag : Stopped w mark turn → turn.canceling = true := by
    intro hStopped
    have hSet := h.flag hPhase.unfinished hStopped
    rwa [if_pos hPhase.stream] at hSet
  unfold Agent.step at hStep
  split at hStep
  · simp [hPhase.timer] at hStep
  · simp [hPhase.streams] at hStep
  · simp [hPhase.streams] at hStep
  · simp [hPhase.streams] at hStep
  · rename_i key' result
    obtain ⟨hMem, hStep⟩ := Option.ite_none_right_eq_some.mp hStep
    rw [hPhase.tools] at hMem
    obtain rfl := List.mem_singleton.mp hMem
    have hErased : turn.tools.erase key' = [] := by
      rw [hPhase.tools]
      exact List.erase_cons_head key' []
    have hDone : Tooling A cap false key' [] { turn with tools := turn.tools.erase key' } :=
      { hPhase with tools := hErased }
    refine Option.some.inj hStep ▸ agentToolDone_steady ?_ result (hDone.advanced w result).inDriver
    have hFree : Driving w mark False { turn with tools := turn.tools.erase key', exec := none } :=
      { h.toGuarded.congr rfl with
        unfinished := hPhase.unfinished, stream := hPhase.stream, exec := rfl
        failing := hPhase.failing, flag := fun hStopped => .inl (hFlag hStopped) }
    exact hFree.emit rfl rfl
  · exact Option.some.inj hStep ▸ agentTurnCancel_steady h.toGuarded

theorem step_steady {input : TurnInput} (hPhase : Phase A cap turn) (h : Steady w mark turn)
    (hStep : step lib w turn input = some turn') : Steady w mark turn' := by
  cases hPhase with
  | waiting hPhase => exact hPhase.steady h hStep
  | streaming id hPhase => exact hPhase.steady h hStep
  | tooling key hPhase hExec => exact hPhase.steady h hStep
  | finished hPhase => exact hPhase.step w hStep ▸ h

theorem run_steady {inputs : List TurnInput} (hPhase : Phase A cap turn) (h : Steady w mark turn)
    (hRun : Run.run (step lib w) turn inputs = some turn') : Steady w mark turn' := by
  have hBoth : Phase A cap turn' ∧ Steady w mark turn' := by
    refine Run.run_invariant (I := fun t => Phase A cap t ∧ Steady w mark t) ?_ ⟨hPhase, h⟩ hRun
    rintro s input s' ⟨hPhase, h⟩ hStep
    exact ⟨step_phase w hPhase hStep, step_steady hPhase h hStep⟩
  exact hBoth.2

theorem Steady.marked (h : Steady w (fun _ => False) turn) : Guarded w (· = turn.out) turn := by
  refine ⟨⟨?_, fun out hOut => hOut ▸ le_rfl, h.streams⟩, h.settled⟩
  rintro before after hOut (hMark | hCancels)
  · have hNil : after = [] := by
      rw [hMark] at hOut
      exact List.self_eq_append_right.mp hOut
    exact hNil ▸ .nil before
  · exact h.holds before after hOut (.inr hCancels)

end Mua.Agent
