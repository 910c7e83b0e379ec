import Mua.AgentCancel
import Mua.OpenrouterCancel

/-! # A cancelled turn

The turn and its stream together: the turn issues no request, starts no tool
and tells the stream at once; and the stream, once told, starts no attempt.
-/

namespace Mua.Agent

open Session Openrouter After Rounds

variable {lib : JsonLib} {w : World} {turn turn' : AgentTurn} {before after : History}

theorem run_prefix {inputs : List TurnInput}
    (hRun : Run.run (step lib w) turn inputs = some turn') : turn.out <+: turn'.out := by
  have hAdds : ∀ {a b : AgentTurn} {P : AgentOutput → Prop}, Adds P a b → turn.out <+: a.out →
      turn.out <+: b.out := by
    intro a b P hAdds hPrefix
    obtain ⟨new, hNew, -⟩ := hAdds.entries
    rw [hNew]
    exact hPrefix.trans (List.prefix_append _ _)
  have hKept : Kept lib w fun t => turn.out <+: t.out := by
    constructor
    · exact hAdds
    · exact fun idx hPrefix => hAdds (startTool_adds lib w _ idx) hPrefix
    · exact fun tools hPrefix => hPrefix.trans (List.prefix_append _ _)
  refine hKept.run ?_ List.prefix_rfl hRun
  intro input _
  cases input with
  | done id message usage => exact fun h => h
  | _ => trivial

/-- The points of cancellation at which the turn has a stream. -/
def StreamsAt (lib : JsonLib) (w : World) (turn : AgentTurn) (inputs : List TurnInput)
    (out : History) : Prop :=
  (∃ init text, out = init ++ [.onText text] ∧ w.cancels out = true) ∨
    ∃ pre post mid id, inputs = pre ++ .cancel :: post ∧
      Run.run (step lib w) turn pre = some mid ∧ mid.finished = false ∧ mid.stream = some id ∧
        out = mid.out

theorem cancelStream_out (w : World) (turn : AgentTurn) (id : Nat) :
    ∃ rest, (cancelStream w turn id).out = turn.out ++ .cancelStream :: rest := by
  obtain ⟨new, hNew, -⟩ : ∃ new, (cancelStream w turn id).out =
      (turn.emit .cancelStream).out ++ new ∧ ∀ o ∈ new, AgentOutput.control o := by
    unfold cancelStream
    dsimp only
    split
    · exact (providerOnError_adds _ _).entries
    · exact (Adds.refl _).entries
  refine ⟨new, ?_⟩
  rw [hNew]
  exact List.append_assoc turn.out [.cancelStream] new

theorem agentTurnStart_steady {opts : AgentOpts} {session : SessionState} {store : OptionStore}
    {env : Env} {userText : Bytes} {timerInits : Bool}
    (hStart : agentTurnStart lib w opts session store env userText timerInits = (turn, .ok ())) :
    Steady w (fun _ => False) turn := by
  obtain ⟨sess, -, rfl⟩ := agentTurnStart_ok w hStart
  have hNone : ∀ point : History → Prop, (∀ out, point out → CancelsIn w out) →
      ¬Reached point [.append session (userMessage userText) true] := by
    rintro point hIn ⟨before, after, hOut, hAt⟩
    obtain ⟨init, o, rfl, hCallback, -⟩ := hIn before hAt
    have hMem : o ∈ [AgentOutput.append session (userMessage userText) true] := by
      rw [hOut]
      simp
    rw [List.mem_singleton.mp hMem] at hCallback
    cases hCallback
  have hFree : ¬Reached (Canceled w fun _ => False) _ := hNone _ fun out hCanceled =>
    hCanceled.resolve_left id
  refine ⟨⟨⟨.of_not_reached hFree, nofun, .of_not_reached (hNone _ fun _ h => h)⟩, ?_⟩, ?_⟩
  · intro out text hOut
    have hSplit : [] ++ [.append session (userMessage userText) true] = out ++ [.onText text] := hOut
    obtain ⟨-, hLast⟩ := List.append_inj' hSplit rfl
    cases List.singleton_inj.mp hLast
  · exact fun _ hStopped => absurd hStopped hFree

/-- Wherever a run cancels its turn, only what may follow a cancellation follows, and a stream
that was open there is told at once. -/
theorem cancelsAt_stops {opts : AgentOpts} {session : SessionState} {store : OptionStore}
    {env : Env} {userText : Bytes} {timerInits : Bool} {inputs : List TurnInput}
    (hStart : agentTurnStart lib w opts session store env userText timerInits = (turn, .ok ()))
    (hRun : Run.run (step lib w) turn inputs = some turn') (hOut : turn'.out = before ++ after)
    (hCancel : CancelsAt lib w turn inputs before) :
    Stops before after ∧
      (StreamsAt lib w turn inputs before → ∃ rest, after = .cancelStream :: rest) := by
  have hPhase := Phase.waiting (agentTurnStart_rounds hStart)
  have hSteady := run_steady hPhase (agentTurnStart_steady hStart) hRun
  constructor
  · cases hCancel with
    | callback hCallback hCancels =>
      exact hSteady.holds _ after hOut (.inr ⟨_, _, rfl, hCallback, hCancels⟩)
    | loop hInputs hMid hLive =>
      rename_i pre post mid
      rw [hInputs] at hRun
      obtain ⟨mid', hFirst, hRest⟩ := Run.run_append_eq_some.mp hRun
      obtain rfl : mid = mid' := Option.some.inj (hMid.symm.trans hFirst)
      obtain ⟨next, hStep, hLast⟩ := Run.run_cons_eq_some.mp hRest
      have hNextPhase := step_phase w (run_phase w hPhase hFirst) hStep
      cases hStep
      have hMarked := (run_steady hPhase (agentTurnStart_steady hStart) hFirst).marked
      have hNext := run_steady hNextPhase (agentTurnCancel_steady hMarked) hLast
      exact hNext.holds _ after hOut (.inl rfl)
  · rintro (⟨init, text, rfl, hCancels⟩ | ⟨pre, post, mid, id, hInputs, hMid, hLive, hStream, rfl⟩)
    · apply hSteady.streams _ after hOut ⟨init, _, rfl, rfl, hCancels⟩ ⟨init, text, rfl⟩
      rintro rfl
      rw [List.append_nil] at hOut
      have hSettled := hSteady.settled init text hOut
      rw [hOut] at hSettled
      exact absurd (hSettled.symm.trans hCancels) nofun
    · rw [hInputs] at hRun
      obtain ⟨mid', hFirst, hRest⟩ := Run.run_append_eq_some.mp hRun
      obtain rfl : mid = mid' := Option.some.inj (hMid.symm.trans hFirst)
      obtain ⟨next, hStep, hLast⟩ := Run.run_cons_eq_some.mp hRest
      cases hStep
      obtain ⟨later, hLater⟩ := run_prefix hLast
      rw [agentTurnCancel_stream hLive hStream] at hLater
      obtain ⟨rest, hTold⟩ := cancelStream_out w { mid with cancelRequested := true } id
      rw [hTold, hOut, List.append_assoc] at hLater
      exact ⟨rest ++ later, (List.append_cancel_left hLater).symm⟩

theorem finish_last {opts : AgentOpts} {session : SessionState} {store : OptionStore}
    {env : Env} {userText : Bytes} {timerInits : Bool} {inputs : List TurnInput}
    (hStart : agentTurnStart lib w opts session store env userText timerInits = (turn, .ok ()))
    (hRun : Run.run (step lib w) turn inputs = some turn') (hOut : turn'.out = before ++ after)
    {outcome : TurnOutcome} {err : Option Error} (hFinish : .onFinish outcome err ∈ after) :
    ∃ mids, after = mids ++ [.onFinish outcome err] := by
  have hPhase := run_phase w (.waiting (agentTurnStart_rounds hStart)) hRun
  have hMem : .onFinish outcome err ∈ turn'.out := hOut ▸ List.mem_append_right before hFinish
  rcases hPhase.finish with hNone | hOver
  · exact absurd hNone (finishes_pos hMem).ne'
  obtain ⟨init, outcome', err', hLast, hFirst⟩ := hOver.last
  rcases snoc_eq_append (hLast.symm.trans hOut) with ⟨-, rfl⟩ | ⟨rest, rfl, rfl⟩
  · cases hFinish
  refine ⟨rest, ?_⟩
  rcases List.mem_append.mp hFinish with hEarlier | hHere
  · exact absurd hFirst (finishes_pos (List.mem_append_right before hEarlier)).ne'
  · rw [List.mem_singleton.mp hHere]

/-- After `agent_turn_cancel` on the unfinished turn: no request and no retry attempt is started,
no tool executed but that of the call on the stack, and the outcome says that the turn was
interrupted, that an append failed, or that the response that landed had no calls. While every
append succeeds, the finished turn has answered all its calls. -/
theorem agentTurnCancel_stops {opts : AgentOpts} {session : SessionState} {store : OptionStore}
    {env : Env} {userText : Bytes} {timerInits : Bool} {inputs : List TurnInput}
    (hStart : agentTurnStart lib w opts session store env userText timerInits = (turn, .ok ()))
    (hRun : Run.run (step lib w) turn inputs = some turn') (hOut : turn'.out = before ++ after)
    (hCancel : CancelsAt lib w turn inputs before) :
    Stops before after ∧
      (∀ outcome err, .onFinish outcome err ∈ after →
        ∃ mids, after = mids ++ [.onFinish outcome err] ∧ Ends mids outcome) ∧
      (StreamsAt lib w turn inputs before → ∃ rest, after = .cancelStream :: rest) ∧
      (∀ cancels opts hrtime timerInits start inputs s₀ s sent later,
        openrouterStream lib opts hrtime timerInits start = .ok s₀ →
        Run.run (Openrouter.step lib cancels) s₀ inputs = some s → s.stream.out = sent ++ later →
        StopsAt lib cancels s₀ inputs sent → ∀ o ∈ later, o.isRequest = false) ∧
      (AllAppended turn'.out → ∀ outcome err, .onFinish outcome err ∈ turn'.out →
        ∃ rounds, turn'.session.messages = session.messages ++ userMessage userText :: rounds ∧
          Complete turnRounds rounds) := by
  obtain ⟨hStops, hStreams⟩ := cancelsAt_stops hStart hRun hOut hCancel
  refine ⟨hStops, ?_, hStreams, ?_, ?_⟩
  · intro outcome err hFinish
    obtain ⟨mids, hAfter⟩ := finish_last hStart hRun hOut hFinish
    exact ⟨mids, hAfter, hStops.finish mids outcome err hAfter⟩
  · intro cancels opts hrtime timerInits start inputs s₀ s sent later hOpen hRun hSent hStop
    exact stopsAt_noRequest hOpen hRun hSent hStop
  · intro hAll outcome err hFinish
    exact finished_rounds hStart hRun hAll hFinish

/-! The gate of the first of two calls cancels, and approves: that call is still executed, and the
other one answered without being run. -/

def gateWorld : World :=
  { toolWorld with
    gate := some fun _ _ _ => ⟨.approve, none, none⟩
    cancels := fun out => out.getLast?.any fun o => o matches .gate .. }

theorem agentTurnCancel_stops_sample :
    ∃ turn before after, Run.run (step emptyLib gateWorld) toolTurn
        [.stepTimer, .done 1 twoCalls none] = some turn ∧
      turn.out = before ++ after ∧ Stops before after ∧
        after.countP AgentOutput.isExecute = 1 := by
  have hStart : agentTurnStart emptyLib gateWorld ⟨none, none, 0⟩ sampleSession .empty sampleEnv
      (ascii "hi") true = (toolTurn, .ok ()) := rfl
  obtain ⟨turn, hRun, ⟨tool, args, hGate⟩, hCancels, hCount⟩ : ∃ turn,
      Run.run (step emptyLib gateWorld) toolTurn [.stepTimer, .done 1 twoCalls none] = some turn ∧
      (∃ tool args, turn.out.take 4 = turn.out.take 3 ++ [.gate tool args]) ∧
        gateWorld.cancels (turn.out.take 4) = true ∧
        (turn.out.drop 4).countP AgentOutput.isExecute = 1 :=
    ⟨_, rfl, ⟨_, _, rfl⟩, rfl, rfl⟩
  have hCancel : CancelsAt emptyLib gateWorld toolTurn [.stepTimer, .done 1 twoCalls none]
      (turn.out.take 4) := by
    rw [hGate] at hCancels ⊢
    exact .callback rfl hCancels
  have hOut := (List.take_append_drop 4 turn.out).symm
  exact ⟨turn, _, _, hRun, hOut, (agentTurnCancel_stops hStart hRun hOut hCancel).1, hCount⟩

end Mua.Agent
