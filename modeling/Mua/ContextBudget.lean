import Mua.ContextFrame

/-! # The budget of the context window

The percentages of the window are exact integers here: a budget is the floor of
a product over 100. They are what the turn computes as long as the products fit
the types it computes them in.
-/

namespace Mua.Agent

open Session Openrouter

variable {lib : JsonLib} (w : World) {A : Account lib} {cap : Int} {turn turn' : AgentTurn}

def InInt64 (n : Int) : Prop := -2 ^ 63 ≤ n ∧ n < 2 ^ 63

/-- `length * pct / 100`, rounded down. -/
def windowShare (length pct : Int) : Int := length * pct / 100

/-- The tokens that the last response with a positive count has reported. -/
def latestTokens (tokens : Int) : TurnInput → Int
  | .done _ _ (some usage) => if 0 < usage.totalTokens then usage.totalTokens else tokens
  | _ => tokens

def tokensAfter (inputs : List TurnInput) : Int := inputs.foldl latestTokens 0

def notices (out : History) : List Bytes := out.filterMap AgentOutput.notice

def contextLimits (out : History) : Nat := out.countP AgentOutput.isContextLimit

def noticeText (length tokens : Int) : Bytes :=
  (ascii "context window " ++ decimalInt (100 * tokens / length) ++ ascii "% full (" ++
    decimalInt tokens ++ ascii "/" ++ decimalInt length ++ ascii " tokens)").take 127

/-- The budget is spent: the window is known, and the tokens reach their share of it. -/
def Meter.Spent (m : Meter) : Prop :=
  0 < m.opts.contextLength ∧ 0 < m.lastTotalTokens ∧
    windowShare m.opts.contextLength m.contextPct ≤ m.lastTotalTokens

def Meter.Warns (m : Meter) (hasNotice : Bool) (tokens : Int) : Prop :=
  0 < m.opts.contextLength ∧ m.contextWarned = false ∧ 0 < m.contextWarnPct ∧ hasNotice = true ∧
    0 < tokens ∧ windowShare m.opts.contextLength m.contextWarnPct ≤ tokens

instance (m : Meter) (hasNotice : Bool) (tokens : Int) : Decidable (m.Warns hasNotice tokens) :=
  inferInstanceAs (Decidable (_ ∧ _ ∧ _ ∧ _ ∧ _ ∧ _))

@[simp] theorem notices_append (out new : History) : notices (out ++ new) = notices out ++ notices new :=
  List.filterMap_append

@[simp] theorem contextLimits_append (out new : History) :
    contextLimits (out ++ new) = contextLimits out + contextLimits new := List.countP_append

theorem Plain.notices (h : Plain turn turn') : notices turn'.out = notices turn.out := by
  obtain ⟨new, hNew, hAll⟩ := h.entries
  have hNone : Agent.notices new = [] := List.filterMap_eq_nil_iff.mpr fun o ho => (hAll o ho).1
  rw [hNew, notices_append, hNone, List.append_nil]

theorem Plain.contextLimits (h : Plain turn turn') :
    contextLimits turn'.out = contextLimits turn.out := by
  obtain ⟨new, hNew, hAll⟩ := h.entries
  have hNone : Agent.contextLimits new = 0 :=
    List.countP_eq_zero.mpr fun o ho => by simp [(hAll o ho).2]
  rw [hNew, contextLimits_append, hNone, Nat.add_zero]

theorem toInt64_eq {n : Int} (h : InInt64 n) : toInt64 w n = n := if_pos h

theorem share_eq {length pct : Int} (hLength : 0 < length) (hPct : 0 ≤ pct)
    (h : InInt64 (length * pct)) :
    (toInt64 w (length * pct)).tdiv 100 = windowShare length pct := by
  rw [toInt64_eq w h, windowShare]
  exact Int.tdiv_eq_ediv_of_nonneg (Int.mul_nonneg (by omega) hPct)

theorem contextBudgetSpent_iff (hPct : 0 ≤ turn.contextPct)
    (hFits : 0 < turn.opts.contextLength → 0 < turn.lastTotalTokens →
      InInt64 (turn.opts.contextLength * turn.contextPct)) :
    contextBudgetSpent w turn = true ↔ turn.meter.Spent := by
  rw [contextBudgetSpent, Bool.and_eq_true, Bool.and_eq_true, decide_eq_true_eq, decide_eq_true_eq,
    decide_eq_true_eq, and_assoc]
  apply and_congr_right
  intro hLength
  apply and_congr_right
  intro hTokens
  rw [share_eq w hLength hPct (hFits hLength hTokens)]
  rfl

theorem contextNotice_eq (hLength : 0 < turn.opts.contextLength) (hTokens : 0 < turn.lastTotalTokens)
    (hFits : InInt64 (turn.lastTotalTokens * 100))
    (hPct : turn.lastTotalTokens * 100 / turn.opts.contextLength < 2 ^ 31) :
    contextNotice w turn = noticeText turn.opts.contextLength turn.lastTotalTokens := by
  have hNonneg : 0 ≤ turn.lastTotalTokens * 100 := by omega
  have hQuot : 0 ≤ turn.lastTotalTokens * 100 / turn.opts.contextLength :=
    Int.ediv_nonneg hNonneg (by omega)
  have hNarrow : (turn.lastTotalTokens * 100 / turn.opts.contextLength).bmod (2 ^ 32) =
      turn.lastTotalTokens * 100 / turn.opts.contextLength := by
    apply Int.bmod_eq_of_le <;> omega
  rw [contextNotice, toInt64_eq w hFits, Int.tdiv_eq_ediv_of_nonneg hNonneg]
  rw [hNarrow, noticeText, Int.mul_comm 100]

theorem finishTurn_meter (turn : AgentTurn) (outcome : TurnOutcome) (err : Option Error) :
    (finishTurn turn outcome err).meter = turn.meter := by
  unfold finishTurn
  split <;> rfl

theorem armStepTimer_plain (turn : AgentTurn) : Plain turn (armStepTimer w turn) := by
  unfold armStepTimer
  split
  · exact Plain.still rfl rfl
  · exact finishTurn_plain _ _ (by decide)

theorem nextStep_meter (turn : AgentTurn) :
    (nextStep w turn).meter = { turn.meter with step := turn.step + 1 } := by
  unfold nextStep
  dsimp only
  split
  · exact finishTurn_meter _ _ _
  split
  · exact finishTurn_meter _ _ _
  · exact (armStepTimer_plain w _).meter

/-- What an unfinished turn reports at the end of a round, when the product fits. -/
theorem nextStep_exact (hUnfinished : turn.finished = false) (hPct : 0 ≤ turn.contextPct)
    (hFits : (turn.step : Int) + 1 < turn.stepCap → 0 < turn.opts.contextLength →
      0 < turn.lastTotalTokens → InInt64 (turn.opts.contextLength * turn.contextPct)) :
    notices (nextStep w turn).out = notices turn.out ∧
      (contextLimits (nextStep w turn).out = contextLimits turn.out + 1 ↔
        (turn.step : Int) + 1 < turn.stepCap ∧ turn.meter.Spent) := by
  have hStep : ∀ {turn'}, Plain { turn with step := turn.step + 1 } turn' →
      notices turn'.out = notices turn.out ∧ contextLimits turn'.out = contextLimits turn.out :=
    fun hPlain => ⟨hPlain.notices, hPlain.contextLimits⟩
  have hCast : ((turn.step + 1 : Nat) : Int) = (turn.step : Int) + 1 := rfl
  unfold nextStep
  dsimp only
  rw [hCast]
  split
  · rename_i hCap
    have hFinish : Plain { turn with step := turn.step + 1 }
        (finishTurn { turn with step := turn.step + 1 } .stepCap none) :=
      finishTurn_plain _ _ (by decide)
    obtain ⟨hNotices, hLimits⟩ := hStep hFinish
    refine ⟨hNotices, ?_⟩
    rw [hLimits]
    exact iff_of_false (by omega) fun h => by omega
  rename_i hCap
  have hSpent : contextBudgetSpent w { turn with step := turn.step + 1 } = true ↔
      turn.meter.Spent := contextBudgetSpent_iff w hPct (hFits (by omega))
  split
  · rename_i hLimit
    have hFinish : finishTurn { turn with step := turn.step + 1 } .contextLimit none =
        { { turn with step := turn.step + 1, finished := true }.emit
          (.onFinish .contextLimit none) with timer := false } := by
      rw [finishTurn, if_neg (by simp [hUnfinished])]
    rw [hFinish]
    refine ⟨?_, iff_of_true ?_ ⟨by omega, hSpent.mp hLimit⟩⟩
    · simp [AgentTurn.emit, notices, AgentOutput.notice]
    · simp [AgentTurn.emit, contextLimits, AgentOutput.isContextLimit]
  · rename_i hLimit
    obtain ⟨hNotices, hLimits⟩ := hStep (armStepTimer_plain w _)
    refine ⟨hNotices, ?_⟩
    rw [hLimits]
    exact iff_of_false (by omega) fun h => hLimit (hSpent.mpr h.2)

/-- The products that hearing an input computes fit, and so does the percentage it prints. -/
def WarnFits (w : World) (turn : AgentTurn) (input : TurnInput) : Prop :=
  match input with
  | .done .. =>
    let length := turn.opts.contextLength
    let tokens := latestTokens turn.lastTotalTokens input
    0 < length → turn.contextWarned = false → 0 < turn.contextWarnPct → w.hasNotice = true →
      0 < tokens → InInt64 (length * turn.contextWarnPct) ∧
        (windowShare length turn.contextWarnPct ≤ tokens →
          InInt64 (tokens * 100) ∧ tokens * 100 / length < 2 ^ 31)
  | _ => True

def warned (w : World) (turn : AgentTurn) : TurnInput → Bool
  | .done id message usage => decide (turn.meter.Warns w.hasNotice
      (latestTokens turn.lastTotalTokens (.done id message usage)))
  | _ => false

theorem noteUsage_meter (turn : AgentTurn) (id : Nat) (message : AssistantMessage)
    (usage : Option Usage) :
    (noteUsage turn usage).meter = { turn.meter with
      lastTotalTokens := latestTokens turn.lastTotalTokens (.done id message usage) } ∧
      (noteUsage turn usage).out = turn.out := by
  unfold noteUsage latestTokens
  cases usage with
  | none => exact ⟨rfl, rfl⟩
  | some usage =>
    dsimp only
    split <;> exact ⟨rfl, rfl⟩

/-- `maybe_warn_context` gives the warning of its tokens, or does nothing. -/
theorem maybeWarnContext_exact (turn : AgentTurn)
    (hFits : 0 < turn.opts.contextLength → turn.contextWarned = false → 0 < turn.contextWarnPct →
      w.hasNotice = true → 0 < turn.lastTotalTokens →
      InInt64 (turn.opts.contextLength * turn.contextWarnPct) ∧
        (windowShare turn.opts.contextLength turn.contextWarnPct ≤ turn.lastTotalTokens →
          InInt64 (turn.lastTotalTokens * 100) ∧
            turn.lastTotalTokens * 100 / turn.opts.contextLength < 2 ^ 31)) :
    (turn.meter.Warns w.hasNotice turn.lastTotalTokens ∧
        (maybeWarnContext w turn).meter = { turn.meter with contextWarned := true } ∧
        notices (maybeWarnContext w turn).out =
          notices turn.out ++ [noticeText turn.opts.contextLength turn.lastTotalTokens] ∧
        contextLimits (maybeWarnContext w turn).out = contextLimits turn.out) ∨
      ¬turn.meter.Warns w.hasNotice turn.lastTotalTokens ∧ maybeWarnContext w turn = turn := by
  unfold maybeWarnContext
  split
  · rename_i hGuard
    refine .inr ⟨?_, rfl⟩
    rintro ⟨hLength, hWarned, hPct, hNotice, hTokens, -⟩
    rcases hGuard with h | h | h | h | h
    · exact absurd hLength (Int.not_lt.mpr h)
    · exact Bool.false_ne_true (hWarned.symm.trans h)
    · exact absurd hPct (Int.not_lt.mpr h)
    · exact h hNotice
    · exact absurd hTokens (Int.not_lt.mpr h)
  rename_i hGuard
  simp only [not_or, Int.not_le, Bool.not_eq_true, Bool.not_eq_false] at hGuard
  obtain ⟨hLength, hWarned, hPct, hNotice, hTokens⟩ := hGuard
  obtain ⟨hWarnAt, hPrint⟩ := hFits hLength hWarned hPct hNotice hTokens
  rw [share_eq w hLength (Int.le_of_lt hPct) hWarnAt]
  split
  · rename_i hBelow
    refine .inr ⟨?_, rfl⟩
    rintro ⟨-, -, -, -, -, hReached⟩
    exact absurd hReached (Int.not_le.mpr hBelow)
  · rename_i hReached
    obtain ⟨hHundred, hQuot⟩ := hPrint (Int.not_lt.mp hReached)
    have hText := contextNotice_eq w hLength hTokens hHundred hQuot
    have hAfter := fire_after w { turn with contextWarned := true } (.onNotice (contextNotice w turn))
    left
    refine ⟨⟨hLength, hWarned, hPct, hNotice, hTokens, Int.not_lt.mp hReached⟩, hAfter.meter, ?_, ?_⟩
    · rw [hAfter.notices, hText]
      simp [AgentTurn.emit, notices, AgentOutput.notice]
    · rw [hAfter.contextLimits]
      simp [AgentTurn.emit, contextLimits, AgentOutput.isContextLimit]

/-- Hearing an input: the tokens are the latest, and the warning is given once. -/
theorem hears_exact (turn : AgentTurn) (input : TurnInput) (hFits : WarnFits w turn input) :
    (hears w turn input).meter = { turn.meter with
        lastTotalTokens := latestTokens turn.lastTotalTokens input
        contextWarned := turn.contextWarned || warned w turn input } ∧
      notices (hears w turn input).out = notices turn.out ++
        (if warned w turn input then
          [noticeText turn.opts.contextLength (latestTokens turn.lastTotalTokens input)] else []) ∧
      contextLimits (hears w turn input).out = contextLimits turn.out := by
  have hQuiet : warned w turn input = false → latestTokens turn.lastTotalTokens input =
      turn.lastTotalTokens → hears w turn input = turn →
      (hears w turn input).meter = { turn.meter with
          lastTotalTokens := latestTokens turn.lastTotalTokens input
          contextWarned := turn.contextWarned || warned w turn input } ∧
        notices (hears w turn input).out = notices turn.out ++
          (if warned w turn input then
            [noticeText turn.opts.contextLength (latestTokens turn.lastTotalTokens input)] else []) ∧
        contextLimits (hears w turn input).out = contextLimits turn.out := by
    intro hWarned hTokens hSame
    rw [hWarned, hTokens, hSame, Bool.or_false]
    exact ⟨rfl, (List.append_nil _).symm, rfl⟩
  cases input with
  | done id message usage =>
    have hNoted := noteUsage_meter
      { turn with streams := turn.streams.erase id, stream := none } id message usage
    have hHears : hears w turn (.done id message usage) = maybeWarnContext w
        (noteUsage { turn with streams := turn.streams.erase id, stream := none } usage) := rfl
    rw [hHears]
    generalize noteUsage { turn with streams := turn.streams.erase id, stream := none } usage =
      noted at hNoted
    obtain ⟨hMeter, hOut⟩ := hNoted
    have hOpts : noted.opts = turn.opts := congrArg Meter.opts hMeter
    have hPct : noted.contextWarnPct = turn.contextWarnPct := congrArg Meter.contextWarnPct hMeter
    have hLatch : noted.contextWarned = turn.contextWarned := congrArg Meter.contextWarned hMeter
    have hTokens : noted.lastTotalTokens =
        latestTokens turn.lastTotalTokens (.done id message usage) :=
      congrArg Meter.lastTotalTokens hMeter
    have hWarns : noted.meter.Warns w.hasNotice noted.lastTotalTokens ↔
        turn.meter.Warns w.hasNotice
          (latestTokens turn.lastTotalTokens (.done id message usage)) := by
      rw [hMeter, hTokens]
      rfl
    have hExact := maybeWarnContext_exact w noted (by
      rw [hOpts, hPct, hLatch, hTokens]
      exact hFits)
    rw [hWarns, hOpts, hTokens, hOut] at hExact
    rcases hExact with ⟨hGives, hAfter, hNotices, hLimits⟩ | ⟨hNot, hSame⟩
    · have hWarned : warned w turn (.done id message usage) = true := decide_eq_true hGives
      rw [hWarned, Bool.or_true, if_pos rfl]
      refine ⟨?_, hNotices, hLimits⟩
      rw [hAfter, hMeter]
      rfl
    · have hWarned : warned w turn (.done id message usage) = false := decide_eq_false hNot
      rw [hWarned, Bool.or_false, hSame, hOut]
      refine ⟨hMeter, ?_, rfl⟩
      simp
  | _ => exact hQuiet rfl rfl rfl

/-- What a step computes fits: the products of hearing its input, and the budget when it ends a
round below the cap. -/
structure StepFits (w : World) (turn turn' : AgentTurn) (input : TurnInput) : Prop where
  warn : WarnFits w turn input
  budget : turn'.step = turn.step + 1 → (turn'.step : Int) < turn.stepCap →
    0 < turn.opts.contextLength → 0 < latestTokens turn.lastTotalTokens input →
      InInt64 (turn.opts.contextLength * turn.contextPct)

/-- The meter after a step, the notice it adds, and when it reports a spent budget. -/
structure Exact (w : World) (turn turn' : AgentTurn) (input : TurnInput) : Prop where
  meter : turn'.meter = { turn.meter with
    step := turn'.step
    lastTotalTokens := latestTokens turn.lastTotalTokens input
    contextWarned := turn.contextWarned || warned w turn input }
  notices : notices turn'.out = notices turn.out ++ (if warned w turn input then
    [noticeText turn.opts.contextLength (latestTokens turn.lastTotalTokens input)] else [])
  limits : contextLimits turn'.out = contextLimits turn.out + 1 ↔
    turn'.step = turn.step + 1 ∧ (turn'.step : Int) < turn.stepCap ∧
      Meter.Spent { turn.meter with
        lastTotalTokens := latestTokens turn.lastTotalTokens input }

theorem step_exact (hPhase : Phase A cap turn) (hPct : 0 ≤ turn.contextPct) {input : TurnInput}
    (hStep : step lib w turn input = some turn') (hFits : StepFits w turn turn' input) :
    Exact w turn turn' input := by
  obtain ⟨mid, hPlain, hLast⟩ := step_rounds w hPhase hStep
  obtain ⟨hMeter, hNotices, hLimits⟩ := hears_exact w turn input hFits.warn
  have hMid := hPlain.meter.trans hMeter
  have hMidStep : mid.step = turn.step := congrArg Meter.step hMid
  rcases hLast with rfl | ⟨hUnfinished, rfl⟩
  · refine ⟨?_, hPlain.notices.trans hNotices, ?_⟩
    · rw [hMid, hMidStep]
      rfl
    · rw [hPlain.contextLimits, hLimits]
      exact iff_of_false (by omega) fun h => by omega
  · have hAfter := nextStep_meter w mid
    have hNext : (nextStep w mid).step = turn.step + 1 :=
      (congrArg Meter.step hAfter).trans (congrArg (· + 1) hMidStep)
    have hCap : mid.stepCap = turn.stepCap := congrArg Meter.stepCap hMid
    have hOpts : mid.opts = turn.opts := congrArg Meter.opts hMid
    have hMidPct : mid.contextPct = turn.contextPct := congrArg Meter.contextPct hMid
    have hTokens : mid.lastTotalTokens = latestTokens turn.lastTotalTokens input :=
      congrArg Meter.lastTotalTokens hMid
    obtain ⟨hSame, hLimit⟩ := nextStep_exact w hUnfinished (hMidPct ▸ hPct) (by
      intro hBelow hLength hPos
      rw [hMidPct, hOpts]
      rw [hOpts] at hLength
      rw [hTokens] at hPos
      apply hFits.budget hNext _ hLength hPos
      rw [hNext]
      omega)
    have hSpent : mid.meter.Spent ↔ Meter.Spent { turn.meter with
        lastTotalTokens := latestTokens turn.lastTotalTokens input } := by
      rw [hMid]
      rfl
    refine ⟨?_, ?_, ?_⟩
    · rw [hAfter, hMid, hNext, hMidStep]
    · rw [hSame, hPlain.notices, hNotices]
    · rw [← hLimits, ← hPlain.contextLimits, hLimit, hSpent, hCap, hMidStep, hNext]
      exact ⟨fun h => ⟨rfl, h⟩, fun h => h.2⟩

def RunFits (lib : JsonLib) (w : World) (turn : AgentTurn) (inputs : List TurnInput) : Prop :=
  ∀ before input after s s', inputs = before ++ input :: after →
    Run.run (step lib w) turn before = some s → step lib w s input = some s' → StepFits w s s' input

theorem RunFits.cons {input : TurnInput} {rest : List TurnInput} {mid : AgentTurn}
    (h : RunFits lib w turn (input :: rest)) (hStep : step lib w turn input = some mid) :
    StepFits w turn mid input ∧ RunFits lib w mid rest := by
  refine ⟨h [] input rest turn mid rfl rfl hStep, ?_⟩
  rintro before next after s s' rfl hRun hNext
  exact h (input :: before) next after s s' rfl (Run.run_cons_eq_some.mpr ⟨mid, hStep, hRun⟩) hNext

/-- What a run leaves of the meter: its settings, and the tokens of the last response. -/
structure Settings (turn turn' : AgentTurn) (inputs : List TurnInput) : Prop where
  opts : turn'.opts = turn.opts
  stepCap : turn'.stepCap = turn.stepCap
  contextPct : turn'.contextPct = turn.contextPct
  contextWarnPct : turn'.contextWarnPct = turn.contextWarnPct
  tokens : turn'.lastTotalTokens = inputs.foldl latestTokens turn.lastTotalTokens

theorem maybeWarnContext_meter (turn : AgentTurn) :
    ∃ latch, (maybeWarnContext w turn).meter = { turn.meter with contextWarned := latch } := by
  unfold maybeWarnContext
  split
  · exact ⟨turn.contextWarned, rfl⟩
  split
  · exact ⟨turn.contextWarned, rfl⟩
  · exact ⟨true, (fire_after w _ _).meter⟩

theorem hears_settings (turn : AgentTurn) (input : TurnInput) :
    Settings turn (hears w turn input) [input] := by
  cases input with
  | done id message usage =>
    have hNoted := (noteUsage_meter
      { turn with streams := turn.streams.erase id, stream := none } id message usage).1
    obtain ⟨latch, hMeter⟩ := maybeWarnContext_meter w (noteUsage
      { turn with streams := turn.streams.erase id, stream := none } usage)
    rw [hNoted] at hMeter
    exact ⟨congrArg Meter.opts hMeter, congrArg Meter.stepCap hMeter,
      congrArg Meter.contextPct hMeter, congrArg Meter.contextWarnPct hMeter,
      congrArg Meter.lastTotalTokens hMeter⟩
  | _ => exact ⟨rfl, rfl, rfl, rfl, rfl⟩

theorem Settings.congr {mid : AgentTurn} {inputs : List TurnInput} (h : Settings turn mid inputs)
    {n : Nat} (hMeter : turn'.meter = { mid.meter with step := n }) : Settings turn turn' inputs :=
  ⟨(congrArg Meter.opts hMeter).trans h.opts, (congrArg Meter.stepCap hMeter).trans h.stepCap,
    (congrArg Meter.contextPct hMeter).trans h.contextPct,
    (congrArg Meter.contextWarnPct hMeter).trans h.contextWarnPct,
    (congrArg Meter.lastTotalTokens hMeter).trans h.tokens⟩

theorem step_settings (hPhase : Phase A cap turn) {input : TurnInput}
    (hStep : step lib w turn input = some turn') : Settings turn turn' [input] := by
  obtain ⟨mid, hPlain, hLast⟩ := step_rounds w hPhase hStep
  have hMid : Settings turn mid [input] :=
    (hears_settings w turn input).congr (n := (hears w turn input).step) hPlain.meter
  rcases hLast with rfl | ⟨-, rfl⟩
  · exact hMid
  · exact hMid.congr (nextStep_meter w mid)

theorem run_settings {inputs : List TurnInput} (hPhase : Phase A cap turn)
    (hRun : Run.run (step lib w) turn inputs = some turn') : Settings turn turn' inputs := by
  induction inputs generalizing turn with
  | nil =>
    cases hRun
    exact ⟨rfl, rfl, rfl, rfl, rfl⟩
  | cons input rest ih =>
    obtain ⟨mid, hStep, hRest⟩ := Run.run_cons_eq_some.mp hRun
    have hFirst := step_settings w hPhase hStep
    have h := ih (step_phase w hPhase hStep) hRest
    refine ⟨h.opts.trans hFirst.opts, h.stepCap.trans hFirst.stepCap,
      h.contextPct.trans hFirst.contextPct, h.contextWarnPct.trans hFirst.contextWarnPct, ?_⟩
    rw [h.tokens, hFirst.tokens]
    rfl

def TurnInput.isResponse : TurnInput → Bool
  | .done .. => true
  | _ => false

/-- The tokens at the first response that reaches the share of the window. -/
def firstWarning (length pct : Int) : (tokens : Int) → List TurnInput → Option Int
  | _, [] => none
  | tokens, input :: rest =>
    if input.isResponse ∧ 0 < latestTokens tokens input ∧
        windowShare length pct ≤ latestTokens tokens input then some (latestTokens tokens input)
    else firstWarning length pct (latestTokens tokens input) rest

/-- The notices of a run whose window and percentage are these. -/
def warnings (length pct : Int) (hasNotice : Bool) (tokens : Int) (inputs : List TurnInput) :
    List Bytes :=
  if 0 < length ∧ 0 < pct ∧ hasNotice then
    ((firstWarning length pct tokens inputs).map (noticeText length)).toList
  else []

theorem warned_iff (turn : AgentTurn) (input : TurnInput) :
    warned w turn input = true ↔ turn.contextWarned = false ∧
      (0 < turn.opts.contextLength ∧ 0 < turn.contextWarnPct ∧ w.hasNotice = true) ∧
      input.isResponse = true ∧ 0 < latestTokens turn.lastTotalTokens input ∧
        windowShare turn.opts.contextLength turn.contextWarnPct ≤
          latestTokens turn.lastTotalTokens input := by
  cases input with
  | done id message usage =>
    rw [warned, decide_eq_true_eq]
    constructor
    · rintro ⟨hLength, hWarned, hPct, hNotice, hTokens, hShare⟩
      exact ⟨hWarned, ⟨hLength, hPct, hNotice⟩, rfl, hTokens, hShare⟩
    · rintro ⟨hWarned, ⟨hLength, hPct, hNotice⟩, -, hTokens, hShare⟩
      exact ⟨hLength, hWarned, hPct, hNotice, hTokens, hShare⟩
  | _ => exact iff_of_false nofun fun h => by cases h.2.2.1

/-- The notices of a run: none once the turn is warned, else that of its first warning. -/
theorem run_notices {inputs : List TurnInput} (hPhase : Phase A cap turn)
    (hPct : 0 ≤ turn.contextPct) (hFits : RunFits lib w turn inputs)
    (hRun : Run.run (step lib w) turn inputs = some turn') :
    notices turn'.out = notices turn.out ++ (if turn.contextWarned then []
      else warnings turn.opts.contextLength turn.contextWarnPct w.hasNotice turn.lastTotalTokens
        inputs) := by
  induction inputs generalizing turn with
  | nil =>
    cases hRun
    simp [warnings, firstWarning]
  | cons input rest ih =>
    obtain ⟨mid, hStep, hRest⟩ := Run.run_cons_eq_some.mp hRun
    obtain ⟨hFirst, hLater⟩ := hFits.cons w hStep
    have hExact := step_exact w hPhase hPct hStep hFirst
    have hMidPct : mid.contextPct = turn.contextPct := congrArg Meter.contextPct hExact.meter
    have hOpts : mid.opts = turn.opts := congrArg Meter.opts hExact.meter
    have hWarnPct : mid.contextWarnPct = turn.contextWarnPct :=
      congrArg Meter.contextWarnPct hExact.meter
    have hLatch : mid.contextWarned = (turn.contextWarned || warned w turn input) :=
      congrArg Meter.contextWarned hExact.meter
    have hTokens : mid.lastTotalTokens = latestTokens turn.lastTotalTokens input :=
      congrArg Meter.lastTotalTokens hExact.meter
    have hLast := ih (step_phase w hPhase hStep) (hMidPct ▸ hPct) hLater hRest
    rw [hLast, hExact.notices, hLatch, hOpts, hWarnPct, hTokens, List.append_assoc]
    apply congrArg
    have hWarned := warned_iff w turn input
    cases hDone : turn.contextWarned with
    | true =>
      have hNot : warned w turn input = false := by
        rw [Bool.eq_false_iff, Ne, hWarned, hDone]
        exact fun h => by cases h.1
      rw [hNot]
      rfl
    | false =>
      rw [hDone] at hWarned
      by_cases hOn : 0 < turn.opts.contextLength ∧ 0 < turn.contextWarnPct ∧ w.hasNotice = true
      · by_cases hReached : input.isResponse = true ∧ 0 < latestTokens turn.lastTotalTokens input ∧
            windowShare turn.opts.contextLength turn.contextWarnPct ≤
              latestTokens turn.lastTotalTokens input
        · have hNow : warned w turn input = true := hWarned.mpr ⟨rfl, hOn, hReached⟩
          have hHit : warnings turn.opts.contextLength turn.contextWarnPct w.hasNotice
              turn.lastTotalTokens (input :: rest) = [noticeText turn.opts.contextLength
                (latestTokens turn.lastTotalTokens input)] := by
            rw [warnings, if_pos hOn, firstWarning, if_pos hReached]
            rfl
          rw [hNow, hHit]
          rfl
        · have hNot : warned w turn input = false := by
            rw [Bool.eq_false_iff, Ne, hWarned]
            exact fun h => hReached h.2.2
          have hSkip : firstWarning turn.opts.contextLength turn.contextWarnPct turn.lastTotalTokens
              (input :: rest) = firstWarning turn.opts.contextLength turn.contextWarnPct
                (latestTokens turn.lastTotalTokens input) rest := if_neg hReached
          rw [hNot, warnings, warnings, if_pos hOn, if_pos hOn, hSkip]
          rfl
      · have hNot : warned w turn input = false := by
          rw [Bool.eq_false_iff, Ne, hWarned]
          exact fun h => hOn h.2.1
        rw [hNot, warnings, warnings, if_neg hOn, if_neg hOn]
        rfl

theorem resolveContextPct_range (store : OptionStore) (env : Env) :
    contextPctMin ≤ resolveContextPct store env ∧ resolveContextPct store env ≤ contextPctMax := by
  unfold resolveContextPct
  cases h : envInt env.contextPct contextPctMin contextPctMax with
  | none => exact optionsInt_range store .contextPct (by decide)
  | some value => exact envInt_range h

theorem resolveContextWarnPct_range (store : OptionStore) (env : Env) :
    contextWarnPctMin ≤ resolveContextWarnPct store env ∧
      resolveContextWarnPct store env ≤ contextWarnPctMax := by
  unfold resolveContextWarnPct
  cases h : envInt env.contextWarnPct contextWarnPctMin contextWarnPctMax with
  | none => exact optionsInt_range store .contextWarnPct (by decide)
  | some value => exact envInt_range h

/-- A turn whose computed products all fit. It gives one notice at most, at the first response
whose tokens reach the warning's share of the window; and a round that ends below the step cap
ends the turn for its context if and only if the tokens reach the share of the budget. -/
theorem turn_contextBudget {opts : AgentOpts} {session : SessionState} {store : OptionStore}
    {env : Env} {userText : Bytes} {timerInits : Bool} {inputs : List TurnInput}
    (hStart : agentTurnStart lib w opts session store env userText timerInits = (turn, .ok ()))
    (hRun : Run.run (step lib w) turn inputs = some turn') (hFits : RunFits lib w turn inputs) :
    notices turn'.out = warnings opts.contextLength (resolveContextWarnPct store env) w.hasNotice 0
        inputs ∧
      ∀ before input after s s', inputs = before ++ input :: after →
        Run.run (step lib w) turn before = some s → step lib w s input = some s' →
        (contextLimits s'.out = contextLimits s.out + 1 ↔
          s'.step = s.step + 1 ∧ (s'.step : Int) < resolveStepCap store env ∧
            0 < opts.contextLength ∧ 0 < tokensAfter (before ++ [input]) ∧
            windowShare opts.contextLength (resolveContextPct store env) ≤
              tokensAfter (before ++ [input])) := by
  have hPhase := Phase.waiting (agentTurnStart_rounds hStart)
  obtain ⟨sess, -, rfl⟩ := agentTurnStart_ok w hStart
  have hPct : 0 ≤ resolveContextPct store env :=
    Int.le_trans (by decide) (resolveContextPct_range store env).1
  constructor
  · rw [run_notices w hPhase hPct hFits hRun]
    rfl
  · rintro before input after s s' rfl hBefore hStep
    have hSettings := run_settings w hPhase hBefore
    have hFit := hFits before input after s s' rfl hBefore hStep
    have hExact := step_exact w (run_phase w hPhase hBefore) (hSettings.contextPct.symm ▸ hPct)
      hStep hFit
    have hTokens : tokensAfter (before ++ [input]) = latestTokens s.lastTotalTokens input := by
      rw [tokensAfter, List.foldl_append, hSettings.tokens]
      rfl
    rw [hExact.limits, hTokens, hSettings.stepCap]
    have hSpent : Meter.Spent { s.meter with
        lastTotalTokens := latestTokens s.lastTotalTokens input } ↔ 0 < s.opts.contextLength ∧
          0 < latestTokens s.lastTotalTokens input ∧
          windowShare s.opts.contextLength s.contextPct ≤ latestTokens s.lastTotalTokens input :=
      Iff.rfl
    rw [hSpent, hSettings.opts, hSettings.contextPct]
    rfl

/-- The tokens that an input reports are at most `bound`. -/
def TurnInput.Below (bound : Int) : TurnInput → Prop
  | .done _ _ (some usage) => usage.totalTokens ≤ bound
  | _ => True

theorem foldl_latest {bound : Int} {inputs : List TurnInput} {tokens : Int}
    (hInputs : ∀ input ∈ inputs, input.Below bound) (h : tokens ≤ bound) :
    inputs.foldl latestTokens tokens ≤ bound := by
  induction inputs generalizing tokens with
  | nil => exact h
  | cons input rest ih =>
    apply ih fun i hi => hInputs i (List.mem_cons_of_mem _ hi)
    have hInput := hInputs input List.mem_cons_self
    unfold latestTokens
    split
    · split
      · exact hInput
      · exact h
    · exact h

/-- Everything fits while the window is below 2^56 and no response reports over 2^24 tokens. -/
theorem runFits_of_bounds {opts : AgentOpts} {session : SessionState} {store : OptionStore}
    {env : Env} {userText : Bytes} {timerInits : Bool} {inputs : List TurnInput}
    (hStart : agentTurnStart lib w opts session store env userText timerInits = (turn, .ok ()))
    (hLength : opts.contextLength < 2 ^ 56) (hInputs : ∀ input ∈ inputs, input.Below (2 ^ 24)) :
    RunFits lib w turn inputs := by
  have hPhase := Phase.waiting (agentTurnStart_rounds hStart)
  obtain ⟨sess, -, rfl⟩ := agentTurnStart_ok w hStart
  have hShare : ∀ pct : Int, 0 ≤ pct → pct ≤ 100 → 0 < opts.contextLength →
      InInt64 (opts.contextLength * pct) := by
    intro pct hLow hHigh hPos
    have hLower : 0 ≤ opts.contextLength * pct := Int.mul_nonneg (Int.le_of_lt hPos) hLow
    have hUpper : opts.contextLength * pct ≤ opts.contextLength * 100 :=
      Int.mul_le_mul_of_nonneg_left hHigh (Int.le_of_lt hPos)
    constructor <;> omega
  rintro before input after s s' rfl hBefore hStep
  have hSettings := run_settings w hPhase hBefore
  have hLater := step_settings w (run_phase w hPhase hBefore) hStep
  have hPct := resolveContextPct_range store env
  have hTokens : latestTokens s.lastTotalTokens input ≤ 2 ^ 24 := by
    have hFold : latestTokens s.lastTotalTokens input =
        (before ++ [input]).foldl latestTokens 0 := by
      rw [List.foldl_append, hSettings.tokens]
      rfl
    rw [hFold]
    apply foldl_latest _ (by decide)
    intro i hi
    apply hInputs
    rw [List.append_cons]
    exact List.mem_append_left _ hi
  refine ⟨?_, ?_⟩
  · unfold WarnFits
    split
    · dsimp only
      rw [hSettings.opts, hSettings.contextWarnPct]
      intro hPos _ hWarnPos _ hTokensPos
      refine ⟨hShare _ (Int.le_of_lt hWarnPos) (resolveContextWarnPct_range store env).2 hPos, ?_⟩
      intro _
      refine ⟨⟨by omega, by omega⟩, ?_⟩
      apply Int.ediv_lt_of_lt_mul hPos
      have hOne : (2 : Int) ^ 31 * 1 ≤ 2 ^ 31 * opts.contextLength :=
        Int.mul_le_mul_of_nonneg_left hPos (by decide)
      have hMine : (newTurn opts session store env).opts.contextLength = opts.contextLength := rfl
      rw [hMine]
      omega
    · trivial
  · rw [hSettings.opts, hSettings.contextPct]
    intro _ _ hPos _
    exact hShare _ (Int.le_trans (by decide) hPct.1) hPct.2 hPos

/-! A round whose response fills nine tenths of a window of a thousand tokens. -/

def noticeWorld : World := { toolWorld with hasNotice := true }

def windowTurn (length : Int) : AgentTurn :=
  (agentTurnStart emptyLib noticeWorld ⟨none, none, length⟩ sampleSession .empty sampleEnv
    (ascii "hi") true).1

def windowInputs (tokens : Int) : List TurnInput :=
  [.stepTimer, .done 1 twoCalls (some ⟨0, 0, tokens⟩), .toolDone (0, 1) ⟨ascii "ok", false⟩]

theorem turn_contextBudget_sample : ∃ turn,
    Run.run (step emptyLib noticeWorld) (windowTurn 1000) (windowInputs 900) = some turn ∧
      notices turn.out = [noticeText 1000 900] := by
  have hStart : agentTurnStart emptyLib noticeWorld ⟨none, none, 1000⟩ sampleSession .empty sampleEnv
      (ascii "hi") true = (windowTurn 1000, .ok ()) := rfl
  have hFits : RunFits emptyLib noticeWorld (windowTurn 1000) (windowInputs 900) := by
    apply runFits_of_bounds noticeWorld hStart (by decide)
    intro input hInput
    simp only [windowInputs, List.mem_cons, List.not_mem_nil, or_false] at hInput
    rcases hInput with rfl | rfl | rfl
    · trivial
    · show (900 : Int) ≤ 2 ^ 24
      decide
    · trivial
  obtain ⟨turn, hRun⟩ : ∃ turn,
      Run.run (step emptyLib noticeWorld) (windowTurn 1000) (windowInputs 900) = some turn := ⟨_, rfl⟩
  exact ⟨turn, hRun, (turn_contextBudget noticeWorld hStart hRun hFits).1⟩

/-! A window of 2^62 tokens, with products that wrap around. -/

def wrapWorld : World := { toolWorld with overflow := Int64.ofInt }

/-- One token of 2^62 spends the budget of nine tenths. -/
theorem huge_window_spent : ∃ turn,
    Run.run (step emptyLib wrapWorld) (windowTurn (2 ^ 62)) (windowInputs 1) = some turn ∧
      contextLimits turn.out = 1 ∧ 1 < windowShare (2 ^ 62) 90 ∧ ¬InInt64 (2 ^ 62 * 90) := by
  have hShare : 1 < windowShare (2 ^ 62) 90 ∧ ¬InInt64 (2 ^ 62 * 90) := by
    unfold windowShare InInt64
    omega
  obtain ⟨turn, hRun, hLimits⟩ : ∃ turn,
      Run.run (step emptyLib wrapWorld) (windowTurn (2 ^ 62)) (windowInputs 1) = some turn ∧
        contextLimits turn.out = 1 := ⟨_, rfl, by decide +kernel⟩
  exact ⟨turn, hRun, hLimits, hShare⟩

end Mua.Agent
