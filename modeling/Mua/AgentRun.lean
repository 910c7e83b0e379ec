import Mua.AgentSpec

/-! # The phases of a turn

Between two events a turn waits for its timer, streams, runs one tool, or is
over. Each function of the loop is shown to lead from phase to phase, so every
run stays within them: the requests never pass the cap, the tools run one at a
time, and `on_finish` is the last entry of the history.
-/

namespace Mua.Agent

open Session Openrouter Serial

variable {lib : JsonLib} (w : World) {A : Account lib} {cap : Int} {turn turn' : AgentTurn}

/-- What holds while a turn is unfinished: the counts of its history, and what is owed. -/
structure Books (A : Account lib) (out : History) (sess : SessionState) (issued : Nat)
    (pending : List CJson) : Prop where
  issued : requests out = issued
  finishes : finishes out = 0
  owes : A.Owes out sess pending

/-- The state between two calls of a round, whose executions are all below `bound`. -/
structure Working (A : Account lib) (cap : Int) (driver : Bool) (turn : AgentTurn)
    (bound : Nat) : Prop where
  unfinished : turn.finished = false
  books : Books A turn.out turn.session (turn.step + 1) (turn.calls.drop turn.toolIndex)
  capped : turn.stepCap = cap
  belowCap : (turn.step : Int) < cap
  timer : turn.timer = false
  stream : turn.stream = none
  streams : turn.streams = []
  exec : turn.exec = none
  tools : turn.tools = []
  inDriver : turn.inDriver = driver
  failing : turn.failing = false
  ids : ∀ call ∈ turn.calls, (callId call).isSome
  idle : Idle Before (toolMarks turn.out) (turn.step, bound)

/-- A turn that may finish: nothing runs, and its account is settled or broken. -/
structure Ready (A : Account lib) (cap : Int) (turn : AgentTurn) : Prop where
  unfinished : turn.finished = false
  withinCap : (requests turn.out : Int) ≤ cap
  finishes : finishes turn.out = 0
  streams : turn.streams = []
  tools : turn.tools = []
  capped : turn.stepCap = cap
  ordered : Ordered Before (toolMarks turn.out)
  settled : A.Owes turn.out turn.session [] ∨ A.Broken turn.out turn.session

structure Waiting (A : Account lib) (cap : Int) (turn : AgentTurn) : Prop where
  unfinished : turn.finished = false
  books : Books A turn.out turn.session turn.step []
  capped : turn.stepCap = cap
  belowCap : (turn.step : Int) < cap
  timer : turn.timer = true
  stream : turn.stream = none
  streams : turn.streams = []
  exec : turn.exec = none
  tools : turn.tools = []
  inDriver : turn.inDriver = false
  failing : turn.failing = false
  idle : Idle Before (toolMarks turn.out) (turn.step, 0)

structure Streaming (A : Account lib) (cap : Int) (id : Nat) (turn : AgentTurn) : Prop where
  unfinished : turn.finished = false
  books : Books A turn.out turn.session (turn.step + 1) []
  capped : turn.stepCap = cap
  belowCap : (turn.step : Int) < cap
  timer : turn.timer = false
  stream : turn.stream = some id
  streams : turn.streams = [id]
  exec : turn.exec = none
  tools : turn.tools = []
  inDriver : turn.inDriver = false
  failing : turn.failing = false
  idle : Idle Before (toolMarks turn.out) (turn.step, 0)

/-- A call is being executed; `running` are the tools that will call back on their own. -/
structure Tooling (A : Account lib) (cap : Int) (driver : Bool) (key : CallKey)
    (running : List CallKey) (turn : AgentTurn) : Prop where
  unfinished : turn.finished = false
  books : Books A turn.out turn.session (turn.step + 1) (turn.calls.drop turn.toolIndex)
  capped : turn.stepCap = cap
  belowCap : (turn.step : Int) < cap
  timer : turn.timer = false
  stream : turn.stream = none
  streams : turn.streams = []
  tools : turn.tools = running
  atCall : key = (turn.step, turn.toolIndex)
  inside : turn.toolIndex < turn.calls.length
  inDriver : turn.inDriver = driver
  failing : turn.failing = false
  ids : ∀ call ∈ turn.calls, (callId call).isSome
  busy : Busy Before (toolMarks turn.out) key

/-- The turn has fired `on_finish`, and nothing after it. -/
structure Over (A : Account lib) (cap : Int) (turn : AgentTurn) : Prop where
  finished : turn.finished = true
  timer : turn.timer = false
  streams : turn.streams = []
  tools : turn.tools = []
  capped : turn.stepCap = cap
  last : ∃ before outcome err, turn.out = before ++ [.onFinish outcome err] ∧ finishes before = 0
  withinCap : (requests turn.out : Int) ≤ cap
  ordered : Ordered Before (toolMarks turn.out)
  settled : A.Owes turn.out turn.session [] ∨ A.Broken turn.out turn.session

inductive Phase (A : Account lib) (cap : Int) (turn : AgentTurn) : Prop
  | waiting (h : Waiting A cap turn)
  | streaming (id : Nat) (h : Streaming A cap id turn)
  | tooling (key : CallKey) (h : Tooling A cap false key [key] turn) (hExec : turn.exec = some key)
  | finished (h : Over A cap turn)

theorem Account.owes_append (A : Account lib) {out new : History} {sess : SessionState}
    {pending : List CJson} (hQuiet : ∀ o ∈ new, o.quiet) (h : A.Owes out sess pending) :
    A.Owes (out ++ new) sess pending := by
  induction new generalizing out with
  | nil => rwa [List.append_nil]
  | cons o new ih =>
    have hFirst := A.owes_quiet (hQuiet o List.mem_cons_self).1 h
    have hRest := ih (fun o' ho' => hQuiet o' (List.mem_cons_of_mem _ ho')) hFirst
    rwa [List.append_assoc] at hRest

theorem Calm.setIndex (h : Calm turn turn') (n : Nat) :
    Calm { turn with toolIndex := n } { turn' with toolIndex := n } := by
  have hQuiet := h.quiet
  rw [h.frame] at hQuiet ⊢
  exact ⟨rfl, hQuiet⟩

theorem Calm.setCalls (h : Calm turn turn') (calls : List CJson) (n : Nat) :
    Calm { turn with calls := calls, toolIndex := n }
      { turn' with calls := calls, toolIndex := n } := by
  have hQuiet := h.quiet
  rw [h.frame] at hQuiet ⊢
  exact ⟨rfl, hQuiet⟩

theorem Calm.owes (h : Calm turn turn') {pending : List CJson}
    (hOwes : A.Owes turn.out turn.session pending) :
    A.Owes turn'.out turn'.session pending := by
  obtain ⟨new, hNew, hQuiet⟩ := h.quiet
  have hSession : turn'.session = turn.session := by rw [h.frame]
  rw [hNew, hSession]
  exact A.owes_append hQuiet hOwes

theorem Books.calm {issued : Nat} {pending : List CJson}
    (h : Books A turn.out turn.session issued pending) (hCalm : Calm turn turn') :
    Books A turn'.out turn'.session issued pending := by
  obtain ⟨hRequests, hFinishes, -⟩ := hCalm.counts
  exact ⟨hRequests.trans h.issued, hFinishes.trans h.finishes, hCalm.owes h.owes⟩

theorem Working.calm {driver : Bool} {bound : Nat} (h : Working A cap driver turn bound)
    (hCalm : Calm turn turn') :
    Working A cap driver turn' bound ∧ turn'.calls = turn.calls ∧
      turn'.toolIndex = turn.toolIndex ∧ turn'.step = turn.step := by
  have hBooks := h.books.calm hCalm
  have hMarks := hCalm.counts.2.2
  rw [hCalm.frame] at hBooks hMarks ⊢
  exact ⟨{ h with books := hBooks, idle := hMarks ▸ h.idle }, rfl, rfl, rfl⟩

theorem Tooling.calm {driver : Bool} {key : CallKey} {running : List CallKey}
    (h : Tooling A cap driver key running turn) (hCalm : Calm turn turn') :
    Tooling A cap driver key running turn' ∧ turn'.calls = turn.calls ∧
      turn'.toolIndex = turn.toolIndex ∧ turn'.exec = turn.exec := by
  have hBooks := h.books.calm hCalm
  have hMarks := hCalm.counts.2.2
  rw [hCalm.frame] at hBooks hMarks ⊢
  exact ⟨{ h with books := hBooks, busy := hMarks ▸ h.busy }, rfl, rfl, rfl⟩

/-- What a completed call leaves: the next call, or a turn that stops for a failed append. -/
inductive Advanced (A : Account lib) (cap : Int) (driver : Bool) (turn : AgentTurn) :
    AgentTurn → Prop
  | answered {turn' : AgentTurn} (h : Working A cap driver turn' turn'.toolIndex)
      (hCalls : turn'.calls = turn.calls) (hIndex : turn'.toolIndex = turn.toolIndex + 1) :
      Advanced A cap driver turn turn'
  | stopped {turn' : AgentTurn} (h : Ready A cap turn') (hFailing : turn'.failing = true)
      (hDriver : turn'.inDriver = driver) (hExec : turn'.exec = none) :
      Advanced A cap driver turn turn'

theorem Working.pending {driver : Bool} {bound : Nat} (h : Working A cap driver turn bound)
    (hInside : turn.toolIndex < turn.calls.length) :
    ∃ call id, turn.calls[turn.toolIndex]? = some call ∧ callId call = some id ∧
      A.Owes turn.out turn.session (call :: turn.calls.drop (turn.toolIndex + 1)) := by
  have hCall := List.getElem?_eq_getElem hInside
  obtain ⟨id, hId⟩ := Option.isSome_iff_exists.mp (h.ids _ (List.getElem_mem hInside))
  have hOwes := h.books.owes
  rw [List.drop_eq_getElem_cons hInside] at hOwes
  exact ⟨_, id, hCall, hId, hOwes⟩

/-- What appending an answer leaves: the session settled up to the next call, or an account
that is broken. -/
inductive Answer (A : Account lib) (cap : Int) (driver : Bool) (turn : AgentTurn) :
    AgentTurn × Except Error Unit → Prop
  | ok {next : AgentTurn}
      (h : Working A cap driver { next with toolIndex := turn.toolIndex + 1 } (turn.toolIndex + 1))
      (hCalls : next.calls = turn.calls) (hIndex : next.toolIndex = turn.toolIndex) :
      Answer A cap driver turn (next, .ok ())
  | failed {next : AgentTurn} (err : Error) (h : Ready A cap next) (hDriver : next.inDriver = driver)
      (hExec : next.exec = none) : Answer A cap driver turn (next, .error err)

theorem appendToolMessage_answer {driver : Bool}
    (h : Working A cap driver turn (turn.toolIndex + 1))
    (hInside : turn.toolIndex < turn.calls.length) (content : Bytes) :
    Answer A cap driver turn (appendToolMessage lib w turn turn.toolIndex content) := by
  obtain ⟨call, id, hCall, hId, hOwes⟩ := h.pending hInside
  have hAnswered := A.answered content (w.write turn.out) hId hOwes
  have hUnanswered := A.unanswered content (w.write turn.out) hId hOwes
  unfold appendToolMessage append
  rw [hCall, Option.bind_some, hId, Option.getD_some]
  generalize sessionAppend lib turn.session (toolMessage id content) (w.write turn.out) = r
    at hAnswered hUnanswered
  obtain ⟨sess, result⟩ := r
  have hBooks : ∀ ok, requests (turn.out ++ [.append turn.session (toolMessage id content) ok]) =
        turn.step + 1 ∧
      finishes (turn.out ++ [.append turn.session (toolMessage id content) ok]) = 0 ∧
      toolMarks (turn.out ++ [.append turn.session (toolMessage id content) ok]) =
        toolMarks turn.out := by
    intro ok
    simp [h.books.issued, h.books.finishes, AgentOutput.isRequest, AgentOutput.isFinish,
      AgentOutput.toolMark]
  cases result with
  | ok u =>
    obtain ⟨hIssued, hFinishes, hMarks⟩ := hBooks true
    refine .ok ?_ rfl rfl
    exact { h with books := ⟨hIssued, hFinishes, hAnswered rfl⟩, idle := hMarks ▸ h.idle }
  | error err =>
    obtain ⟨hIssued, hFinishes, hMarks⟩ := hBooks false
    refine .failed err ?_ h.inDriver h.exec
    refine ⟨h.unfinished, ?_, hFinishes, h.streams, h.tools, h.capped, ?_,
      .inr (hUnanswered rfl)⟩
    · have := h.belowCap
      show (requests (turn.out ++ [.append turn.session _ false]) : Int) ≤ cap
      rw [hIssued]
      omega
    · exact hMarks ▸ h.idle.ordered

theorem toolCompleted_advanced {driver : Bool}
    (h : Working A cap driver turn (turn.toolIndex + 1))
    (hInside : turn.toolIndex < turn.calls.length) (result : ToolResult) :
    Advanced A cap driver turn (toolCompleted lib w turn result) := by
  have hAnswer := appendToolMessage_answer w h hInside result.content
  unfold toolCompleted
  dsimp only
  generalize appendToolMessage lib w turn turn.toolIndex result.content = r at hAnswer
  cases hAnswer with
  | failed err hReady hDriver hExec =>
    exact .stopped { hReady with } rfl hDriver hExec
  | @ok next hWorking hCalls hIndex =>
    have hNext : ∀ fired, Calm next fired →
        Advanced A cap driver turn { fired with toolIndex := fired.toolIndex + 1 } := by
      intro fired hCalm
      have hFired : fired.toolIndex = turn.toolIndex := by rw [hCalm.frame]; exact hIndex
      obtain ⟨hLater, hSame, -, -⟩ := hWorking.calm (hCalm.setIndex (turn.toolIndex + 1))
      rw [hFired]
      exact .answered hLater (hSame.trans hCalls) rfl
    dsimp only
    split
    · apply hNext
      apply fire_quiet
      · exact hWorking.stream
      · exact ⟨rfl, rfl, rfl, rfl⟩
    · apply hNext
      apply Calm.refl

theorem Working.weaken {driver : Bool} {bound : Nat} (h : Working A cap driver turn bound) :
    Working A cap driver turn (bound + 1) := by
  refine { h with idle := h.idle.mono ?_ }
  rintro k (hRound | ⟨hRound, hIndex⟩)
  · exact .inl hRound
  · exact .inr ⟨hRound, Nat.lt_succ_of_lt hIndex⟩

theorem consultGate_calm {driver : Bool} {bound : Nat} (h : Working A cap driver turn bound)
    (tool : ToolDef) (args : CJson) : Calm turn (consultGate w turn tool args).1 := by
  unfold consultGate
  split
  · exact Calm.refl turn
  · dsimp only
    split
    · exact fire_quiet w h.stream ⟨rfl, rfl, rfl, rfl⟩
    · exact fire_quiet w h.stream ⟨rfl, rfl, rfl, rfl⟩

/-- What starting a call leaves: the call answered inline, or its tool running. -/
inductive Started (A : Account lib) (cap : Int) (driver : Bool) (turn : AgentTurn) :
    AgentTurn × Option CallKey → Prop
  | inline {turn' : AgentTurn} (h : Advanced A cap driver turn turn') :
      Started A cap driver turn (turn', none)
  | async {turn' : AgentTurn} {key : CallKey} (h : Tooling A cap driver key [key] turn')
      (hExec : turn'.exec = none) : Started A cap driver turn (turn', some key)

theorem Advanced.congr {driver : Bool} {other : AgentTurn} (h : Advanced A cap driver turn turn')
    (hCalls : turn.calls = other.calls) (hIndex : turn.toolIndex = other.toolIndex) :
    Advanced A cap driver other turn' := by
  cases h with
  | answered h hCalls' hIndex' =>
    exact .answered h (hCalls'.trans hCalls) (by rw [hIndex', hIndex])
  | stopped h hFailing hDriver hExec => exact .stopped h hFailing hDriver hExec

theorem Started.congr {driver : Bool} {other : AgentTurn} {r : AgentTurn × Option CallKey}
    (h : Started A cap driver turn r) (hCalls : turn.calls = other.calls)
    (hIndex : turn.toolIndex = other.toolIndex) : Started A cap driver other r := by
  cases h with
  | inline h => exact .inline (h.congr hCalls hIndex)
  | async h hExec => exact .async h hExec

theorem Books.add {out : History} {sess : SessionState} {issued : Nat} {pending : List CJson}
    (h : Books A out sess issued pending) {o : AgentOutput} (hAppend : o.isAppend = false)
    (hRequest : o.isRequest = false) (hFinish : o.isFinish = false) :
    Books A (out ++ [o]) sess issued pending := by
  refine ⟨?_, ?_, A.owes_quiet hAppend h.owes⟩
  · simp [hRequest, h.issued]
  · simp [hFinish, h.finishes]

theorem Working.execute {driver : Bool} (h : Working A cap driver turn turn.toolIndex)
    (hInside : turn.toolIndex < turn.calls.length) (tool : ToolDef) (args : CJson) :
    Tooling A cap driver (turn.step, turn.toolIndex) []
      (turn.emit (.execute (turn.step, turn.toolIndex) tool args)) := by
  refine { h with
    books := h.books.add rfl rfl rfl, atCall := rfl, inside := hInside, busy := ?_ }
  have hBusy := h.idle.start
  simpa [AgentTurn.emit, AgentOutput.toolMark] using hBusy

theorem Tooling.done {driver : Bool} {key : CallKey}
    (h : Tooling A cap driver key [] turn) (hExec : turn.exec = none) (result : ToolResult) :
    Working A cap driver (turn.emit (.toolDone key result)) (turn.toolIndex + 1) := by
  refine { h with books := h.books.add rfl rfl rfl, exec := hExec, idle := ?_ }
  have hAt := h.atCall
  have hIdle : Idle Before (toolMarks turn.out ++ [.stop key]) (turn.step, turn.toolIndex + 1) := by
    refine h.busy.stop ?_ ?_
    · rw [hAt]
      exact .inr ⟨rfl, Nat.lt_succ_self _⟩
    · rw [hAt]
      rintro k (hRound | ⟨hRound, hIndex⟩)
      · exact .inl hRound
      · exact .inr ⟨hRound, Nat.lt_succ_of_lt hIndex⟩
  simpa [AgentTurn.emit, AgentOutput.toolMark] using hIdle

theorem toolDoneAdvance_advanced {driver : Bool}
    (h : Working A cap driver { turn with exec := none } (turn.toolIndex + 1))
    (hInside : turn.toolIndex < turn.calls.length) (result : ToolResult) :
    Advanced A cap driver turn (toolDoneAdvance lib w turn result) := by
  have hAdvanced := toolCompleted_advanced w h hInside result
  have hUnfinished : turn.finished = false := h.unfinished
  unfold toolDoneAdvance
  dsimp only
  rw [if_neg (by simp [hUnfinished])]
  exact hAdvanced.congr rfl rfl

theorem runTool_started {driver : Bool} (h : Working A cap driver turn turn.toolIndex)
    (hInside : turn.toolIndex < turn.calls.length) (tool : ToolDef) (args : CJson) :
    Started A cap driver turn (runTool lib w turn (turn.step, turn.toolIndex) tool args) := by
  have hCalm := fire_calm w h.stream (.execute (turn.step, turn.toolIndex) tool args)
  obtain ⟨hTooling, hCalls, hIndex, hExec⟩ := (h.execute hInside tool args).calm hCalm
  replace hExec := hExec.trans h.exec
  unfold runTool
  dsimp only
  generalize fire w turn (.execute (turn.step, turn.toolIndex) tool args) = next at *
  split
  · rename_i result hReply
    have hWorking := hTooling.done hExec result
    have hHandle : Working A cap driver
        { next.emit (.toolDone (turn.step, turn.toolIndex) result) with exec := none }
        (next.toolIndex + 1) := { hWorking with exec := rfl }
    have hAdvanced := toolDoneAdvance_advanced w hHandle hTooling.inside result
    exact .inline (hAdvanced.congr hCalls hIndex)
  · refine .async { hTooling with tools := ?_ } hExec
    show _ :: next.tools = _
    rw [hTooling.tools]

theorem startTool_started {driver : Bool} (h : Working A cap driver turn turn.toolIndex)
    (hInside : turn.toolIndex < turn.calls.length) :
    Started A cap driver turn (startTool lib w turn turn.toolIndex) := by
  have hSynthetic : ∀ content next, Calm turn next →
      Started A cap driver turn (syntheticResult lib w next content, none) := by
    intro content next hCalm
    obtain ⟨hWorking, hCalls, hIndex, -⟩ := h.calm hCalm
    rw [← hIndex] at hWorking
    rw [← hIndex, ← hCalls] at hInside
    have hAdvanced := toolCompleted_advanced w hWorking.weaken hInside ⟨content, true⟩
    exact .inline (hAdvanced.congr hCalls hIndex)
  unfold startTool
  dsimp only
  split
  · exact hSynthetic _ _ (Calm.refl turn)
  rename_i tool hTool
  split
  · exact hSynthetic _ _ (Calm.refl turn)
  rename_i args hArgs
  have hGate := consultGate_calm w h tool args
  split
  · rename_i next refusal hConsult
    rw [hConsult] at hGate
    exact hSynthetic _ _ hGate
  · rename_i next args' hConsult
    rw [hConsult] at hGate
    have hRun : ∀ last, Calm turn last →
        Started A cap driver turn (runTool lib w last (last.step, turn.toolIndex) tool args') := by
      intro last hCalm
      obtain ⟨hWorking, hCalls, hIndex, -⟩ := h.calm hCalm
      rw [← hIndex] at hWorking ⊢
      rw [← hIndex, ← hCalls] at hInside
      exact (runTool_started w hWorking hInside tool args').congr hCalls hIndex
    apply hRun
    split
    · refine hGate.trans (fire_quiet w ?_ ⟨rfl, rfl, rfl, rfl⟩)
      rw [hGate.frame]
      exact h.stream
    · exact hGate

theorem Working.ready {driver : Bool} {bound : Nat} (h : Working A cap driver turn bound)
    (hAll : turn.calls.length ≤ turn.toolIndex) : Ready A cap turn := by
  have hOwes := h.books.owes
  rw [List.drop_of_length_le hAll] at hOwes
  refine ⟨h.unfinished, ?_, h.books.finishes, h.streams, h.tools, h.capped, h.idle.ordered,
    .inl hOwes⟩
  have := h.belowCap
  rw [h.books.issued]
  omega

theorem finishTurn_over (h : Ready A cap turn) (outcome : TurnOutcome) (err : Option Error) :
    Over A cap (finishTurn turn outcome err) := by
  unfold finishTurn
  rw [if_neg (by simp [h.unfinished])]
  refine ⟨rfl, rfl, h.streams, h.tools, h.capped, ⟨turn.out, outcome, err, rfl, h.finishes⟩,
    ?_, ?_, ?_⟩
  · simpa [AgentTurn.emit, AgentOutput.isRequest] using h.withinCap
  · simpa [AgentTurn.emit, AgentOutput.toolMark] using h.ordered
  · exact h.settled.imp (A.owes_quiet rfl) (A.broken_quiet rfl)

theorem synthesize_ready {driver : Bool} (left : Nat)
    (h : Working A cap driver turn turn.toolIndex)
    (hLeft : turn.calls.length ≤ turn.toolIndex + left) :
    Ready A cap (synthesize lib w turn left) := by
  induction left generalizing turn with
  | zero => exact h.ready hLeft
  | succ left ih =>
    unfold synthesize
    split
    · rename_i hInside
      have hAnswer := appendToolMessage_answer w h.weaken hInside (ascii "[interrupted]")
      generalize appendToolMessage lib w turn turn.toolIndex (ascii "[interrupted]") = r at hAnswer
      cases hAnswer with
      | failed err hReady _ _ => exact hReady
      | @ok next hWorking hCalls hIndex =>
        dsimp only
        rw [hIndex]
        apply ih hWorking
        show next.calls.length ≤ turn.toolIndex + 1 + left
        rw [hCalls]
        omega
    · rename_i hAll
      exact h.ready (Nat.not_lt.mp hAll)

theorem finishWithSynthetics_over {driver : Bool}
    (h : Working A cap driver turn turn.toolIndex) :
    Over A cap (finishWithSynthetics lib w turn) :=
  finishTurn_over (synthesize_ready w _ h (by omega)) _ _

theorem nextStep_phase (h : Working A cap false turn turn.toolIndex)
    (hAll : turn.calls.length ≤ turn.toolIndex) : Phase A cap (nextStep w turn) := by
  have hReady : Ready A cap { turn with step := turn.step + 1 } := { h.ready hAll with }
  unfold nextStep armStepTimer
  dsimp only
  split
  · exact .finished (finishTurn_over hReady _ _)
  rename_i hBelow
  split
  · exact .finished (finishTurn_over hReady _ _)
  split
  · refine .waiting ?_
    have hOwes := h.books.owes
    rw [List.drop_of_length_le hAll] at hOwes
    have hIdle : Idle Before (toolMarks turn.out) (turn.step + 1, 0) := by
      refine h.idle.mono ?_
      rintro k (hRound | ⟨hRound, -⟩)
      · exact .inl (Nat.lt_succ_of_lt hRound)
      · exact .inl (hRound ▸ Nat.lt_succ_self _)
    have hCap := h.capped
    have hBelowCap : ((turn.step + 1 : Nat) : Int) < cap := by omega
    have hBooks : Books A turn.out turn.session (turn.step + 1) [] :=
      ⟨h.books.issued, h.books.finishes, hOwes⟩
    exact { h with books := hBooks, belowCap := hBelowCap, timer := rfl, idle := hIdle }
  · exact .finished (finishTurn_over hReady _ _)

/-- Where the trampoline stops: at an async tool, at a failed append, or between two calls. -/
inductive Driven (A : Account lib) (cap : Int) : AgentTurn × Bool → Prop
  | async {turn : AgentTurn} (key : CallKey) (h : Tooling A cap true key [key] turn)
      (hExec : turn.exec = some key) : Driven A cap (turn, true)
  | stopped {turn : AgentTurn} (h : Ready A cap turn) (hFailing : turn.failing = true) :
      Driven A cap (turn, false)
  | between {turn : AgentTurn} (h : Working A cap true turn turn.toolIndex)
      (hStop : turn.canceling = true ∨ turn.calls.length ≤ turn.toolIndex) :
      Driven A cap (turn, false)

theorem driveLoop_failing (left : Nat) (h : turn.failing = true) :
    driveLoop lib w turn left = (turn, false) := by
  cases left with
  | zero => rfl
  | succ left =>
    unfold driveLoop
    rw [if_neg (by simp [h])]

theorem driveLoop_driven (left : Nat) (h : Working A cap true turn turn.toolIndex)
    (hLeft : turn.calls.length ≤ turn.toolIndex + left) :
    Driven A cap (driveLoop lib w turn left) := by
  induction left generalizing turn with
  | zero => exact .between h (.inr hLeft)
  | succ left ih =>
    unfold driveLoop
    split
    · rename_i hGo
      have hStarted := startTool_started w h hGo.1
      generalize startTool lib w turn turn.toolIndex = r at hStarted
      cases hStarted with
      | @async next key hTooling hExec => exact .async key { hTooling with } rfl
      | @inline next hAdvanced =>
        cases hAdvanced with
        | answered hWorking hCalls hIndex =>
          apply ih hWorking
          rw [hCalls, hIndex]
          omega
        | stopped hReady hFailing hDriver hExec =>
          dsimp only
          rw [driveLoop_failing w left hFailing]
          exact .stopped hReady hFailing
    · rename_i hStop
      refine .between h ?_
      by_cases hCancel : turn.canceling = true
      · exact .inl hCancel
      · right
        have hFailing := h.failing
        by_contra hInside
        exact hStop ⟨Nat.not_le.mp hInside, hCancel, by simp [hFailing]⟩

theorem Ready.setDriver (h : Ready A cap turn) (driver : Bool) :
    Ready A cap { turn with inDriver := driver } :=
  { h with unfinished := h.unfinished }

theorem driveTools_failing (hReady : Ready A cap turn) (hFailing : turn.failing = true) :
    Over A cap (driveTools lib w turn) := by
  unfold driveTools
  have hStay : driveLoop lib w { turn with inDriver := true } (turn.calls.length - turn.toolIndex) =
      ({ turn with inDriver := true }, false) := driveLoop_failing w _ hFailing
  rw [hStay]
  dsimp only
  rw [if_pos hFailing]
  exact finishTurn_over (hReady.setDriver false) _ _

theorem driveTools_phase (h : Working A cap false turn turn.toolIndex) :
    Phase A cap (driveTools lib w turn) := by
  have hDriven : Driven A cap (driveLoop lib w { turn with inDriver := true }
      (turn.calls.length - turn.toolIndex)) := by
    apply driveLoop_driven
    · exact { h with inDriver := rfl }
    · show turn.calls.length ≤ turn.toolIndex + (turn.calls.length - turn.toolIndex)
      omega
  unfold driveTools
  generalize driveLoop lib w { turn with inDriver := true }
    (turn.calls.length - turn.toolIndex) = r at hDriven
  cases hDriven with
  | async key hTooling hExec => exact .tooling key { hTooling with inDriver := rfl } hExec
  | stopped hReady hFailing =>
    dsimp only
    rw [if_pos hFailing]
    exact .finished (finishTurn_over (hReady.setDriver false) _ _)
  | @between next hWorking hStop =>
    have hNext : Working A cap false { next with inDriver := false } next.toolIndex :=
      { hWorking with inDriver := rfl }
    dsimp only
    rw [if_neg (by simp [hWorking.failing])]
    split
    · exact .finished (finishWithSynthetics_over w hNext)
    · rename_i hCancel
      exact nextStep_phase w hNext (hStop.resolve_left hCancel)

theorem Tooling.advanced {key : CallKey} (h : Tooling A cap false key [] turn)
    (result : ToolResult) : Advanced A cap false (turn.emit (.toolDone key result))
      (toolDoneAdvance lib w (turn.emit (.toolDone key result)) result) := by
  have hFree : Tooling A cap false key [] { turn with exec := none } :=
    { h with unfinished := h.unfinished }
  apply toolDoneAdvance_advanced
  · exact hFree.done rfl result
  · exact h.inside

theorem Advanced.inDriver {driver : Bool} (h : Advanced A cap driver turn turn') :
    turn'.inDriver = driver := by
  cases h with
  | answered h hCalls hIndex => exact h.inDriver
  | stopped h hFailing hDriver hExec => exact hDriver

theorem agentToolDone_phase {key : CallKey} (h : Tooling A cap false key [] turn)
    (result : ToolResult) :
    Phase A cap (agentToolDone lib w (turn.emit (.toolDone key result)) result) := by
  have hAdvanced := h.advanced w result
  have hUnfinished : (turn.emit (.toolDone key result)).finished = false := h.unfinished
  unfold agentToolDone
  rw [if_neg (by simp [hUnfinished])]
  dsimp only
  rw [if_neg (by simp [hAdvanced.inDriver])]
  generalize toolDoneAdvance lib w (turn.emit (.toolDone key result)) result = next at hAdvanced
  cases hAdvanced with
  | answered hWorking hCalls hIndex => exact driveTools_phase w hWorking
  | stopped hReady hFailing hDriver hExec => exact .finished (driveTools_failing w hReady hFailing)

/-- With the stream over and no calls at hand, a turn is between two rounds. -/
abbrev Heard (A : Account lib) (cap : Int) (turn : AgentTurn) : Prop :=
  Working A cap false { turn with calls := [], toolIndex := 0 } 0

theorem Heard.setUsage (h : Heard A cap turn) (tokens : Int) (warned : Bool) :
    Heard A cap { turn with lastTotalTokens := tokens, contextWarned := warned } :=
  { h with unfinished := h.unfinished }

theorem Heard.calm (h : Heard A cap turn) (hCalm : Calm turn turn') : Heard A cap turn' :=
  (Working.calm h (hCalm.setCalls [] 0)).1

theorem noteUsage_heard (h : Heard A cap turn) (usage : Option Usage) :
    Heard A cap (noteUsage turn usage) := by
  unfold noteUsage
  split
  · split
    · exact h.setUsage _ turn.contextWarned
    · exact h
  · exact h

theorem maybeWarnContext_heard (h : Heard A cap turn) : Heard A cap (maybeWarnContext w turn) := by
  unfold maybeWarnContext
  split
  · exact h
  split
  · exact h
  · refine (h.setUsage turn.lastTotalTokens true).calm ?_
    apply fire_quiet
    · exact h.stream
    · exact ⟨rfl, rfl, rfl, rfl⟩

theorem append_message {r : AgentTurn × Except Error Unit} (h : Heard A cap turn)
    (message : AssistantMessage) (hAppend : append lib w turn message.json = r) :
    (∃ next err, r = (next, .error err) ∧ Ready A cap next) ∨
      ∃ next, r = (next, .ok ()) ∧
        Working A cap false { next with calls := toolCalls message.json, toolIndex := 0 } 0 := by
  have hMessage := A.message message (w.write turn.out) h.books.owes
  rw [← hAppend]
  unfold append
  change A.Owes (turn.out ++ [.append turn.session _ _])
    (sessionAppend lib turn.session message.json (w.write turn.out)).1 _ at hMessage
  generalize sessionAppend lib turn.session message.json (w.write turn.out) = r at hMessage
  obtain ⟨sess, result⟩ := r
  have hIssued : requests turn.out = turn.step + 1 := h.books.issued
  have hFinishes : finishes turn.out = 0 := h.books.finishes
  have hIdle : Idle Before (toolMarks turn.out) (turn.step, 0) := h.idle
  have hCap : (turn.step : Int) < cap := h.belowCap
  cases result with
  | error err =>
    refine .inl ⟨_, err, rfl, h.unfinished, ?_, ?_, h.streams, h.tools, h.capped, ?_,
      .inl hMessage⟩
    · simp [AgentTurn.emit, AgentOutput.isRequest, hIssued]
      omega
    · simp [AgentTurn.emit, AgentOutput.isFinish, hFinishes]
    · simpa [AgentTurn.emit, AgentOutput.toolMark] using hIdle.ordered
  | ok u =>
    refine .inr ⟨_, rfl, ?_⟩
    refine { h with books := ⟨?_, ?_, hMessage⟩, ids := message.ids, idle := ?_ }
    · simp [AgentTurn.emit, AgentOutput.isRequest, hIssued]
    · simp [AgentTurn.emit, AgentOutput.isFinish, hFinishes]
    · simpa [AgentTurn.emit, AgentOutput.toolMark] using hIdle

theorem providerOnDone_phase (h : Heard A cap { turn with stream := none })
    (message : AssistantMessage) (usage : Option Usage) :
    Phase A cap (providerOnDone lib w turn message.json usage) := by
  have hHeard := maybeWarnContext_heard w (noteUsage_heard h usage)
  unfold providerOnDone
  dsimp only
  generalize maybeWarnContext w (noteUsage { turn with stream := none } usage) = heard at hHeard
  rcases append_message w hHeard message rfl with
    ⟨next, err, hAppend, hReady⟩ | ⟨next, hAppend, hWorking⟩
  · rw [hAppend]
    exact .finished (finishTurn_over hReady _ _)
  · rw [hAppend]
    dsimp only
    split
    · rename_i hNone
      have hSettled := hWorking.ready (by simp [hNone])
      have hReady : Ready A cap next := { hSettled with unfinished := hSettled.unfinished }
      exact .finished (finishTurn_over hReady _ _)
    split
    · have hCanceling : Working A cap false
          { next with calls := toolCalls message.json, toolIndex := 0, canceling := true } 0 :=
        { hWorking with unfinished := hWorking.unfinished }
      exact .finished (finishWithSynthetics_over w hCanceling)
    · exact driveTools_phase w hWorking

theorem Streaming.ready {id : Nat} (h : Streaming A cap id turn) :
    Ready A cap { turn with streams := turn.streams.erase id } := by
  refine ⟨h.unfinished, ?_, h.books.finishes, ?_, h.tools, h.capped, h.idle.ordered,
    .inl h.books.owes⟩
  · have := h.belowCap
    show (requests turn.out : Int) ≤ cap
    rw [h.books.issued]
    omega
  · show turn.streams.erase id = []
    rw [h.streams]
    exact List.erase_cons_head id []

theorem providerOnError_over (h : Ready A cap turn) (err : Error) :
    Over A cap (providerOnError turn err) := by
  have hReady : Ready A cap { turn with stream := none } :=
    { h with unfinished := h.unfinished }
  unfold providerOnError
  dsimp only
  split
  · exact finishTurn_over hReady _ _
  · exact finishTurn_over hReady _ _

theorem Over.setStream (h : Over A cap turn) (stream : Option Nat) :
    Over A cap { turn with stream := stream } :=
  { h with finished := h.finished }

theorem Streaming.add {id : Nat} (h : Streaming A cap id turn) {o : AgentOutput}
    (hQuiet : o.quiet) : Streaming A cap id (turn.emit o) := by
  obtain ⟨hAppend, hRequest, hFinish, hMark⟩ := hQuiet
  refine { h with books := h.books.add hAppend hRequest hFinish, idle := ?_ }
  simpa [AgentTurn.emit, hMark] using h.idle

theorem cancelStream_phase {id : Nat} (h : Streaming A cap id turn) :
    Phase A cap (cancelStream w turn id) := by
  have hCancel : Streaming A cap id (turn.emit .cancelStream) := h.add ⟨rfl, rfl, rfl, rfl⟩
  unfold cancelStream
  dsimp only
  split
  · exact .finished (providerOnError_over hCancel.ready _)
  · exact .streaming id hCancel

theorem agentTurnCancel_phase {id : Nat} (h : Streaming A cap id turn) :
    Phase A cap (agentTurnCancel w turn) := by
  unfold agentTurnCancel
  rw [if_neg (by simp [h.unfinished])]
  split
  · rename_i id' hSome
    obtain rfl : id = id' := Option.some.inj (h.stream.symm.trans hSome)
    exact cancelStream_phase w { h with unfinished := h.unfinished }
  · rename_i hNone
    rw [h.stream] at hNone
    cases hNone

theorem providerOnText_phase {id : Nat} (h : Streaming A cap id turn) (text : Bytes) :
    Phase A cap (providerOnText w turn text) := by
  have hText : Streaming A cap id (turn.emit (.onText text)) := h.add ⟨rfl, rfl, rfl, rfl⟩
  unfold providerOnText fire
  dsimp only
  split
  · split
    · exact agentTurnCancel_phase w hText
    · exact .streaming id hText
  · exact .streaming id h

theorem Waiting.ready (h : Waiting A cap turn) : Ready A cap { turn with timer := false } := by
  refine ⟨h.unfinished, ?_, h.books.finishes, h.streams, h.tools, h.capped, h.idle.ordered,
    .inl h.books.owes⟩
  have := h.belowCap
  show (requests turn.out : Int) ≤ cap
  rw [h.books.issued]
  omega

theorem Waiting.request (h : Waiting A cap turn) (opts : OpenrouterOpts) (id : Nat) :
    Streaming A cap id
      { turn.emit (.request opts) with timer := false, stream := some id, streams := [id] } := by
  refine { h with books := ⟨?_, ?_, A.owes_quiet rfl h.books.owes⟩, timer := rfl, stream := rfl,
                  streams := rfl, idle := ?_ }
  · simp [AgentTurn.emit, AgentOutput.isRequest, h.books.issued]
  · simp [AgentTurn.emit, AgentOutput.isFinish, h.books.finishes]
  · simpa [AgentTurn.emit, AgentOutput.toolMark] using h.idle

/-- What issuing a request leaves: no stream, a stream already over, or one that is open. -/
inductive Issued (A : Account lib) (cap : Int) : AgentTurn × Except Error Unit → Prop
  | refused {turn : AgentTurn} (err : Error) (h : Ready A cap turn) :
      Issued A cap (turn, .error err)
  | failed {turn : AgentTurn} (h : Over A cap turn) : Issued A cap (turn, .ok ())
  | opened {turn : AgentTurn} (id : Nat) (h : Streaming A cap id turn) :
      Issued A cap (turn, .ok ())

theorem issueRequest_issued (h : Waiting A cap turn) :
    Issued A cap (issueRequest w { turn with timer := false }) := by
  have hStreaming := fun opts => h.request opts turn.out.length
  have hReady : ∀ opts stream, Ready A cap
      { turn.emit (.request opts) with timer := false, stream := stream } := by
    intro opts stream
    exact { (hStreaming opts).ready with streams := h.streams }
  unfold issueRequest
  dsimp only
  split
  · exact .refused _ h.ready
  split
  · exact .refused _ (hReady _ none)
  · apply Issued.failed
    apply Over.setStream
    apply providerOnError_over
    exact hReady _ turn.stream
  · rw [h.streams]
    exact .opened _ (hStreaming _)

theorem stepTimerCb_ends (h : Waiting A cap turn) :
    Over A cap (stepTimerCb w { turn with timer := false }) ∨
      ∃ id, Streaming A cap id (stepTimerCb w { turn with timer := false }) := by
  have hIssued := issueRequest_issued w h
  unfold stepTimerCb
  split
  · exact .inl (finishTurn_over h.ready _ _)
  generalize issueRequest w { turn with timer := false } = r at hIssued
  cases hIssued with
  | refused err hReady => exact .inl (finishTurn_over hReady _ _)
  | failed hOver => exact .inl hOver
  | opened id hStreaming => exact .inr ⟨id, hStreaming⟩

theorem stepTimerCb_phase (h : Waiting A cap turn) :
    Phase A cap (stepTimerCb w { turn with timer := false }) := by
  rcases stepTimerCb_ends w h with hOver | ⟨id, hStreaming⟩
  · exact .finished hOver
  · exact .streaming id hStreaming

theorem agentTurnCancel_waiting (h : Waiting A cap turn) :
    Waiting A cap (agentTurnCancel w turn) := by
  have hCalm := agentTurnCancel_calm w h.stream
  have hBooks := h.books.calm hCalm
  have hMarks := hCalm.counts.2.2
  rw [hCalm.frame] at hBooks hMarks ⊢
  exact { h with books := hBooks, idle := hMarks ▸ h.idle }

theorem agentTurnCancel_over (h : turn.finished = true) : agentTurnCancel w turn = turn := by
  unfold agentTurnCancel
  rw [if_pos h]

theorem Streaming.heard {id : Nat} (h : Streaming A cap id turn) :
    Heard A cap { turn with streams := turn.streams.erase id, stream := none } := by
  refine { h with books := h.books, stream := rfl, streams := ?_, ids := nofun }
  show turn.streams.erase id = []
  rw [h.streams]
  exact List.erase_cons_head id []

theorem Waiting.step (h : Waiting A cap turn) {input : TurnInput}
    (hStep : step lib w turn input = some turn') : Phase A cap turn' := by
  unfold Agent.step at hStep
  split at hStep
  · rw [if_pos h.timer] at hStep
    exact Option.some.inj hStep ▸ stepTimerCb_phase w h
  · simp [h.streams] at hStep
  · simp [h.streams] at hStep
  · simp [h.streams] at hStep
  · simp [h.tools] at hStep
  · exact Option.some.inj hStep ▸ .waiting (agentTurnCancel_waiting w h)

theorem Streaming.step {id : Nat} (h : Streaming A cap id turn) {input : TurnInput}
    (hStep : step lib w turn input = some turn') : Phase A cap turn' := by
  unfold Agent.step at hStep
  have hId : ∀ id', id' ∈ turn.streams → id' = id := by
    intro id' hMem
    rw [h.streams] at hMem
    exact List.mem_singleton.mp hMem
  split at hStep
  · simp [h.timer] at hStep
  · obtain ⟨hMem, hStep⟩ := Option.ite_none_right_eq_some.mp hStep
    exact Option.some.inj hStep ▸ providerOnText_phase w h _
  · obtain ⟨hMem, hStep⟩ := Option.ite_none_right_eq_some.mp hStep
    obtain rfl := hId _ hMem
    exact Option.some.inj hStep ▸ providerOnDone_phase w h.heard _ _
  · obtain ⟨hMem, hStep⟩ := Option.ite_none_right_eq_some.mp hStep
    obtain rfl := hId _ hMem
    exact Option.some.inj hStep ▸ .finished (providerOnError_over h.ready _)
  · simp [h.tools] at hStep
  · exact Option.some.inj hStep ▸ agentTurnCancel_phase w h

theorem Tooling.step {key : CallKey} (h : Tooling A cap false key [key] turn)
    (hExec : turn.exec = some key) {input : TurnInput}
    (hStep : step lib w turn input = some turn') : Phase A cap turn' := by
  unfold Agent.step at hStep
  split at hStep
  · simp [h.timer] at hStep
  · simp [h.streams] at hStep
  · simp [h.streams] at hStep
  · simp [h.streams] at hStep
  · rename_i key' result
    obtain ⟨hMem, hStep⟩ := Option.ite_none_right_eq_some.mp hStep
    have hErased : turn.tools.erase key' = [] := by
      rw [h.tools] at hMem ⊢
      rw [List.mem_singleton.mp hMem]
      exact List.erase_cons_head key []
    rw [h.tools] at hMem
    obtain rfl := List.mem_singleton.mp hMem
    have hDone : Tooling A cap false key' [] { turn with tools := turn.tools.erase key' } :=
      { h with tools := hErased }
    exact Option.some.inj hStep ▸ agentToolDone_phase w hDone result
  · obtain ⟨hTooling, -, -, hSame⟩ := h.calm (agentTurnCancel_calm w h.stream)
    exact Option.some.inj hStep ▸ .tooling key hTooling (hSame.trans hExec)

theorem Over.step (h : Over A cap turn) {input : TurnInput}
    (hStep : step lib w turn input = some turn') : turn' = turn := by
  unfold Agent.step at hStep
  split at hStep
  · simp [h.timer] at hStep
  · simp [h.streams] at hStep
  · simp [h.streams] at hStep
  · simp [h.streams] at hStep
  · simp [h.tools] at hStep
  · rw [agentTurnCancel_over w h.finished] at hStep
    exact (Option.some.inj hStep).symm

theorem step_phase {input : TurnInput} (h : Phase A cap turn)
    (hStep : step lib w turn input = some turn') : Phase A cap turn' := by
  cases h with
  | waiting h => exact h.step w hStep
  | streaming id h => exact h.step w hStep
  | tooling key h hExec => exact h.step w hExec hStep
  | finished h => exact h.step w hStep ▸ .finished h

theorem run_phase {inputs : List TurnInput} (h : Phase A cap turn)
    (hRun : Run.run (step lib w) turn inputs = some turn') : Phase A cap turn' :=
  Run.run_invariant (fun _ _ _ => step_phase w) h hRun

theorem agentTurnStart_ok {opts : AgentOpts} {session : SessionState} {store : OptionStore}
    {env : Env} {userText : Bytes} {timerInits : Bool}
    (h : agentTurnStart lib w opts session store env userText timerInits = (turn, .ok ())) :
    ∃ sess, sessionAppend lib session (userMessage userText) (w.write []) = (sess, .ok ()) ∧
      turn = { newTurn opts session store env with
        session := sess, timer := true, out := [.append session (userMessage userText) true] } := by
  unfold agentTurnStart append at h
  dsimp only at h
  split at h
  · cases h
  rcases hAppend : sessionAppend lib session (userMessage userText) (w.write []) with ⟨sess, r⟩
  rw [show (newTurn opts session store env).session = session from rfl,
    show (newTurn opts session store env).out = [] from rfl, hAppend] at h
  cases r with
  | error err => cases h
  | ok u =>
    dsimp only at h
    split at h
    · cases h
    split at h
    · cases h
      exact ⟨sess, rfl, rfl⟩
    · cases h

theorem agentTurnStart_waiting {opts : AgentOpts} {session : SessionState} {store : OptionStore}
    {env : Env} {userText : Bytes} {timerInits : Bool}
    (h : agentTurnStart lib w opts session store env userText timerInits = (turn, .ok ()))
    (hOwes : A.Owes turn.out turn.session []) : Waiting A (resolveStepCap store env) turn := by
  obtain ⟨sess, -, rfl⟩ := agentTurnStart_ok w h
  have hRange := resolveStepCap_range store env
  refine ⟨rfl, ⟨rfl, rfl, hOwes⟩, rfl, ?_, rfl, rfl, rfl, rfl, rfl, rfl, rfl, Idle.nil _⟩
  show ((0 : Nat) : Int) < resolveStepCap store env
  have : stepCapMin = 1 := rfl
  omega

theorem Phase.withinCap (h : Phase A cap turn) : (requests turn.out : Int) ≤ cap := by
  cases h with
  | waiting h =>
    have := h.belowCap
    rw [h.books.issued]
    omega
  | streaming id h =>
    have := h.belowCap
    rw [h.books.issued]
    omega
  | tooling key h hExec =>
    have := h.belowCap
    rw [h.books.issued]
    omega
  | finished h => exact h.withinCap

theorem Phase.capped (h : Phase A cap turn) : turn.stepCap = cap := by
  cases h with
  | waiting h => exact h.capped
  | streaming id h => exact h.capped
  | tooling key h hExec => exact h.capped
  | finished h => exact h.capped

theorem Phase.ordered (h : Phase A cap turn) : Ordered Before (toolMarks turn.out) := by
  cases h with
  | waiting h => exact h.idle.ordered
  | streaming id h => exact h.idle.ordered
  | tooling key h hExec => exact h.busy.ordered
  | finished h => exact h.ordered

theorem Phase.finish (h : Phase A cap turn) : finishes turn.out = 0 ∨ Over A cap turn := by
  cases h with
  | waiting h => exact .inl h.books.finishes
  | streaming id h => exact .inl h.books.finishes
  | tooling key h hExec => exact .inl h.books.finishes
  | finished h => exact .inr h

end Mua.Agent
