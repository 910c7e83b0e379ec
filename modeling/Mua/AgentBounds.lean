import Mua.AgentRun
import Mua.SessionLoad

/-! # Bounds of a turn

Whatever the provider, the tools, the timer and the user do, in whatever order:
the requests of a turn stay within its step cap, and `on_finish` is fired once,
as the last thing the turn does.
-/

namespace Mua.Agent

open Session Openrouter

variable {lib : JsonLib} {w : World} {turn turn' : AgentTurn}

/-- The account that keeps nothing: what is left are the counts. -/
def noAccount (lib : JsonLib) : Account lib where
  Owes _ _ _ := True
  Broken _ _ := True
  owes_quiet _ h := h
  broken_quiet _ h := h
  message _ _ _ := trivial
  answered _ _ _ _ _ := trivial
  unanswered _ _ _ _ _ := trivial

theorem Over.nothing_after {A : Account lib} {cap : Int} (h : Over A cap turn)
    {before after : History} {outcome : TurnOutcome} {err : Option Error}
    (hOut : turn.out = before ++ .onFinish outcome err :: after) : after = [] := by
  obtain ⟨first, outcome', err', hLast, hNone⟩ := h.last
  -- the history has one `onFinish`, so the two splittings agree
  rw [hLast] at hOut
  rcases List.append_eq_append_iff.mp hOut with ⟨mid, hBefore, hRest⟩ | ⟨mid, hFirst, hRest⟩
  · cases mid with
    | nil => exact (List.cons.inj hRest).2.symm
    | cons o mid =>
      have hTail := (List.cons.inj hRest).2
      simp at hTail
  · cases mid with
    | nil => exact (List.cons.inj hRest).2
    | cons o mid =>
      obtain ⟨rfl, -⟩ := List.cons.inj hRest
      rw [hFirst] at hNone
      simp [AgentOutput.isFinish, finishes] at hNone

theorem agentTurn_bounded {opts : AgentOpts} {session : SessionState} {store : OptionStore}
    {env : Env} {userText : Bytes} {timerInits : Bool} {inputs : List TurnInput}
    (hStart : agentTurnStart lib w opts session store env userText timerInits = (turn, .ok ()))
    (hRun : Run.run (step lib w) turn inputs = some turn') :
    (1 ≤ turn'.stepCap ∧ turn'.stepCap ≤ 50) ∧
      (requests turn'.out : Int) ≤ turn'.stepCap ∧
      finishes turn'.out ≤ 1 ∧
      ∀ before outcome err after, turn'.out = before ++ .onFinish outcome err :: after →
        after = [] := by
  have hWaiting : Waiting (noAccount lib) (resolveStepCap store env) turn :=
    agentTurnStart_waiting w hStart trivial
  have hPhase := run_phase w (.waiting hWaiting) hRun
  refine ⟨?_, ?_, ?_, ?_⟩
  · rw [hPhase.capped]
    exact resolveStepCap_range store env
  · rw [hPhase.capped]
    exact hPhase.withinCap
  · rcases hPhase.finish with hNone | hOver
    · omega
    · obtain ⟨before, outcome, err, hLast, hNone⟩ := hOver.last
      simp [hLast, hNone, AgentOutput.isFinish]
  · intro before outcome err after hOut
    rcases hPhase.finish with hNone | hOver
    · simp [hOut, finishes, AgentOutput.isFinish] at hNone
    · exact hOver.nothing_after hOut

/-! A turn whose provider asks for nothing, with a cap of 2 from the environment. -/

def sampleWorld : World where
  hasText := true
  hasToolStart := true
  hasToolResult := true
  hasNotice := false
  gate := none
  lookup _ _ := none
  execute _ _ _ := .async
  cancels _ := false
  inRetryWait _ := false
  write _ := sampleWrites
  buildTools _ := .ok (.array [])
  openStream _ _ := .opened
  timerStarts _ := true
  overflow _ := 0

def sampleEnv : Env := ⟨none, some (ascii "2"), none, none⟩

def sampleTurn : AgentTurn :=
  (agentTurnStart sampleLib sampleWorld ⟨none, none, 0⟩ sampleSession .empty sampleEnv
    (ascii "hi") true).1

def sampleInputs : List TurnInput :=
  [.stepTimer, .text 1 (ascii "a"), .error 1 ⟨.exception, ascii "reset"⟩, .cancel]

theorem agentTurn_bounded_sample :
    ∃ turn, Run.run (step sampleLib sampleWorld) sampleTurn sampleInputs = some turn ∧
      turn.stepCap = 2 ∧ requests turn.out = 1 ∧ finishes turn.out ≤ 1 := by
  have hStart : agentTurnStart sampleLib sampleWorld ⟨none, none, 0⟩ sampleSession .empty sampleEnv
      (ascii "hi") true = (sampleTurn, .ok ()) := rfl
  obtain ⟨turn, hRun, hCap, hRequests⟩ : ∃ turn,
      Run.run (step sampleLib sampleWorld) sampleTurn sampleInputs = some turn ∧
        turn.stepCap = 2 ∧ requests turn.out = 1 := ⟨_, rfl, rfl, rfl⟩
  exact ⟨turn, hRun, hCap, hRequests, (agentTurn_bounded hStart hRun).2.2.1⟩

end Mua.Agent
