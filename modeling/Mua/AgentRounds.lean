import Mua.AgentBounds
import Mua.Lib.Rounds

/-! # The conversation a turn leaves

An assistant message asks for its tool calls, and a tool message answers the
call whose id it carries. When every append succeeds, a finished turn has added
the user message and whole rounds to the session, nothing else.
-/

namespace Mua.Agent

open Session Openrouter Rounds Serial

variable {lib : JsonLib} {w : World} {turn turn' : AgentTurn}

def hasRoleOf (role : String) (msg : CJson) : Prop :=
  jsonGetCstr msg (ascii "role") = some (ascii role)

instance (role : String) (msg : CJson) : Decidable (hasRoleOf role msg) :=
  inferInstanceAs (Decidable (jsonGetCstr msg (ascii "role") = some (ascii role)))

/-- The tool calls an assistant message makes, and their answers; `heads` opens a round. -/
def conversation (heads : CJson → Prop) : Grammar CJson CJson where
  asks msg := if hasRoleOf "assistant" msg then toolCalls msg else []
  Answers call msg := hasRoleOf "tool" msg ∧ jsonGetCstr msg (ascii "tool_call_id") = callId call
  Heads := heads

theorem toolMessage_role (id content : Bytes) : hasRoleOf "tool" (toolMessage id content) := rfl

theorem asks_assistant {heads : CJson → Prop} (message : AssistantMessage) :
    (conversation heads).asks message.json = toolCalls message.json :=
  if_pos message.role

theorem toolMessage_answers {heads : CJson → Prop} {call : CJson} {id : Bytes}
    (hId : callId call = some id) (content : Bytes) :
    (conversation heads).Answers call (toolMessage id content) := by
  refine ⟨toolMessage_role id content, ?_⟩
  have hStored : jsonGetCstr (toolMessage id content) (ascii "tool_call_id") =
      some (cstr (cstr id)) := rfl
  rw [hStored, cstr_cstr, cstr_of_nulFree (nulFree_jsonGetCstr hId), hId]

def AgentOutput.appendFailed : AgentOutput → Bool
  | .append _ _ ok => !ok
  | _ => false

def AllAppended (out : History) : Prop := ∀ o ∈ out, o.appendFailed = false

instance (out : History) : Decidable (AllAppended out) :=
  inferInstanceAs (Decidable (∀ o ∈ out, o.appendFailed = false))

theorem AllAppended.left {out new : History} (h : AllAppended (out ++ new)) : AllAppended out :=
  fun o hMem => h o (List.mem_append_left new hMem)

theorem AllAppended.last {out : History} {sess : SessionState} {msg : CJson} {ok : Bool}
    (h : AllAppended (out ++ [.append sess msg ok])) : ok = true := by
  have := h _ (List.mem_append_right out (List.mem_singleton_self _))
  simpa [AgentOutput.appendFailed] using this

theorem sessionAppend_messages {sess : SessionState} {msg : CJson} {os : Nat → WriteResult}
    (h : (sessionAppend lib sess msg os).2.isOk = true) :
    (sessionAppend lib sess msg os).1.messages = sess.messages ++ [msg] := by
  have hCase := sessionAppend_cases lib sess msg os
  generalize sessionAppend lib sess msg os = r at h hCase
  cases hCase with
  | refused err => cases h
  | torn torn err _ _ _ => cases h
  | written _ _ _ _ => rfl

/-- The rounds of one turn: each headed by an assistant message. -/
abbrev turnRounds : Grammar CJson CJson := conversation (hasRoleOf "assistant")

/-- While every append succeeds, the session owes the tool messages of its last round. -/
def roundsAccount (lib : JsonLib) (initial : List CJson) : Account lib where
  Owes out sess pending := AllAppended out →
    ∃ rounds, sess.messages = initial ++ rounds ∧ Owes turnRounds rounds pending
  Broken out _ := ¬ AllAppended out
  owes_quiet _ h hAll := h hAll.left
  broken_quiet _ h hAll := h hAll.left
  message message os h := by
    intro hAll
    obtain ⟨rounds, hMessages, hOwes⟩ := h hAll.left
    have hOk := hAll.last
    refine ⟨rounds ++ [message.json], ?_, ?_⟩
    · rw [sessionAppend_messages hOk, hMessages, List.append_assoc]
    · rw [if_pos hOk, ← asks_assistant message]
      exact hOwes.head message.role
  answered content os hId h hOk := by
    intro hAll
    obtain ⟨rounds, hMessages, hOwes⟩ := h hAll.left
    refine ⟨rounds ++ [_], ?_, hOwes.reply (toolMessage_answers hId content)⟩
    rw [sessionAppend_messages hOk, hMessages, List.append_assoc]
  unanswered content os hId h hFailed hAll := by
    have := hAll.last
    cases this

theorem agentTurnStart_rounds {opts : AgentOpts} {session : SessionState} {store : OptionStore}
    {env : Env} {userText : Bytes} {timerInits : Bool}
    (hStart : agentTurnStart lib w opts session store env userText timerInits = (turn, .ok ())) :
    Waiting (roundsAccount lib (session.messages ++ [userMessage userText]))
      (resolveStepCap store env) turn := by
  apply agentTurnStart_waiting w hStart
  obtain ⟨sess, hAppend, rfl⟩ := agentTurnStart_ok w hStart
  intro _
  have hOk : (sessionAppend lib session (userMessage userText) (w.write [])).2.isOk = true := by
    rw [hAppend]
    rfl
  have hMessages := sessionAppend_messages hOk
  rw [hAppend] at hMessages
  exact ⟨[], hMessages.trans (List.append_nil _).symm, .settled .nil⟩

theorem finished_rounds {opts : AgentOpts} {session : SessionState} {store : OptionStore}
    {env : Env} {userText : Bytes} {timerInits : Bool} {inputs : List TurnInput}
    (hStart : agentTurnStart lib w opts session store env userText timerInits = (turn, .ok ()))
    (hRun : Run.run (step lib w) turn inputs = some turn') (hAll : AllAppended turn'.out)
    {outcome : TurnOutcome} {err : Option Error} (hFinish : .onFinish outcome err ∈ turn'.out) :
    ∃ rounds, turn'.session.messages = session.messages ++ userMessage userText :: rounds ∧
      Complete turnRounds rounds := by
  have hPhase := run_phase w (.waiting (agentTurnStart_rounds hStart)) hRun
  rcases hPhase.finish with hNone | hOver
  · exact absurd hNone (finishes_pos hFinish).ne'
  rcases hOver.settled with hSettled | hBroken
  · obtain ⟨rounds, hMessages, hOwed⟩ := hSettled hAll
    refine ⟨rounds, ?_, hOwed.complete⟩
    rw [hMessages, List.append_assoc]
    rfl
  · exact absurd hAll hBroken

/-- Tools run one at a time in call order, each at most once; and a finished turn whose appends
all succeeded has added its user message and complete rounds. -/
theorem agentTurn_rounds {opts : AgentOpts} {session : SessionState} {store : OptionStore}
    {env : Env} {userText : Bytes} {timerInits : Bool} {inputs : List TurnInput}
    (hStart : agentTurnStart lib w opts session store env userText timerInits = (turn, .ok ()))
    (hRun : Run.run (step lib w) turn inputs = some turn') (hAll : AllAppended turn'.out) :
    Ordered Before (toolMarks turn'.out) ∧
      ∀ outcome err, .onFinish outcome err ∈ turn'.out → outcome ≠ .failed →
        ∃ rounds, turn'.session.messages = session.messages ++ userMessage userText :: rounds ∧
          Complete turnRounds rounds := by
  have hPhase := run_phase w (.waiting (agentTurnStart_rounds hStart)) hRun
  refine ⟨hPhase.ordered, ?_⟩
  intro outcome err hFinish _
  exact finished_rounds hStart hRun hAll hFinish

/-! A round of two calls, the first answered at once and the second later. -/

def callOf (id : String) : CJson :=
  jsonAddCstr (CJson.addItem jsonNewObj (ascii "function")
    (jsonAddCstr jsonNewObj (ascii "name") (ascii id))) (ascii "id") (ascii id)

def twoCalls : AssistantMessage where
  json := CJson.addItem (jsonAddCstr jsonNewObj (ascii "role") (ascii "assistant"))
    (ascii "tool_calls") (.array [callOf "now", callOf "later"])
  role := rfl
  ids := by decide

def noCalls : AssistantMessage where
  json := jsonAddCstr jsonNewObj (ascii "role") (ascii "assistant")
  role := rfl
  ids := by decide

def emptyLib : JsonLib := { sampleLib with parse := fun doc => .ok (jsonNewObj, doc.length) }

def toolWorld : World :=
  { sampleWorld with
    lookup := fun _ name => some ⟨name, false⟩
    execute := fun _ tool _ =>
      if tool.name = ascii "now" then .inline ⟨ascii "ok", false⟩ else .async }

def toolTurn : AgentTurn :=
  (agentTurnStart emptyLib toolWorld ⟨none, none, 0⟩ sampleSession .empty sampleEnv
    (ascii "hi") true).1

def toolInputs : List TurnInput :=
  [.stepTimer, .done 1 twoCalls none, .toolDone (0, 1) ⟨ascii "ok", false⟩, .stepTimer,
    .done 13 noCalls none]

theorem agentTurn_rounds_sample :
    ∃ turn, Run.run (step emptyLib toolWorld) toolTurn toolInputs = some turn ∧
      Ordered Before (toolMarks turn.out) ∧
      ∃ rounds, turn.session.messages = userMessage (ascii "hi") :: rounds ∧
        Complete turnRounds rounds := by
  have hStart : agentTurnStart emptyLib toolWorld ⟨none, none, 0⟩ sampleSession .empty sampleEnv
      (ascii "hi") true = (toolTurn, .ok ()) := rfl
  obtain ⟨turn, hRun, hAll, hFinish⟩ : ∃ turn,
      Run.run (step emptyLib toolWorld) toolTurn toolInputs = some turn ∧ AllAppended turn.out ∧
        turn.out[15]? = some (.onFinish .done none) := ⟨_, rfl, by decide, rfl⟩
  obtain ⟨hOrdered, hRounds⟩ := agentTurn_rounds hStart hRun hAll
  obtain ⟨rounds, hMessages, hComplete⟩ :=
    hRounds .done none (List.mem_of_getElem? hFinish) (by decide)
  exact ⟨turn, hRun, hOrdered, rounds, hMessages, hComplete⟩

end Mua.Agent
