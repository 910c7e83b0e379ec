import Mua.AgentFrame
import Mua.AgentRepair
import Mua.SessionLog

/-! # The life of a session

A session outlives its turns and the processes that run them. Between two
processes it is its file; a process loads the file, repairs the last round and
runs turns, and may end in the middle of anything. Every request of such a life
carries complete rounds, unless a turn starts after a tool message was too long
to store, or a repair meets an open call whose id another call has.
-/

namespace Mua.Agent

open Session Openrouter Rounds Serial

/-- A session is open between turns, in a turn, or on disk. `past` is what the earlier turns of the
process did. -/
inductive Life
  | idle (sess : SessionState) (past : History)
  | turning (past : History) (w : World) (turn : AgentTurn)
  | down (path file : Bytes)

/-- `exit` may come at any moment: the disk then holds what was written up to some byte. -/
inductive LifeEvent
  | start (w : World) (opts : AgentOpts) (store : OptionStore) (env : Env) (userText : Bytes)
      (timerInits : Bool)
  | input (input : TurnInput)
  | finish
  | exit (cut : Nat)
  | resume (reads : Nat → ReadResult) (os : Nat → Nat → WriteResult)

variable (lib : JsonLib)

/-- What the process has done with the session since it opened it. -/
def Life.history : Life → History
  | .idle _ past => past
  | .turning past _ turn => past ++ turn.out
  | .down _ _ => []

def beginTurn (past : History) (w : World) : AgentTurn × Except Error Unit → Life
  | (turn, .ok ()) => .turning past w turn
  | (turn, .error _) => .idle turn.session (past ++ turn.out)

/-- `setup_session` for a session to resume; a repair that fails has still written to the file. -/
def resumeSession (path file : Bytes) (reads : Nat → ReadResult) (os : Nat → Nat → WriteResult) :
    Life :=
  match sessionLoad lib path (.opened true file.length) file reads with
  | .error _ => .down path file
  | .ok sess =>
    match agentRepairSession lib sess os with
    | (sess, .error _) => .down path sess.file
    | (sess, .ok ()) => .idle sess []

def lifeStep : Life → LifeEvent → Option Life
  | .idle sess past, .start w opts store env userText timerInits =>
    some (beginTurn past w (agentTurnStart lib w opts sess store env userText timerInits))
  | .idle sess _, .exit cut => some (.down sess.path (sess.file.take cut))
  | .turning past w turn, .input input => (step lib w turn input).map (.turning past w)
  | .turning past _ turn, .finish =>
    if turn.finished then some (.idle turn.session (past ++ turn.out)) else none
  | .turning _ _ turn, .exit cut => some (.down turn.session.path (turn.session.file.take cut))
  | .down path file, .resume reads os => some (resumeSession lib path file reads os)
  | _, _ => none

/-- The rounds of a whole session: any message may open one, and its calls have ids. -/
abbrev sessionRounds : Grammar CJson CJson :=
  conversation fun msg => ∀ call ∈ toolCalls msg, (callId call).isSome

/-- Each message that makes calls is followed at once by one tool message per call, in call order
and with that call's id. -/
def AnswersFollow (messages : List CJson) : Prop :=
  ∀ before msg after, messages = before ++ msg :: after → makesCalls msg →
    ∃ answers rest, after = answers ++ rest ∧
      List.Forall₂ sessionRounds.Answers (toolCalls msg) answers

def RequestsAnswered (out : History) : Prop :=
  ∀ opts, .request opts ∈ out → AnswersFollow opts.messages.children

def AgentOutput.stored : AgentOutput → Option CJson
  | .append _ msg _ => some msg
  | _ => none

/-- What the store relies on cJSON for, of every message a history appends. -/
def Prints (out : History) : Prop := ∀ o ∈ out, ∀ msg, o.stored = some msg → Printable lib msg

def Stuck (sess : SessionState) : Prop :=
  sess.poisoned = true ∨ sessionMaxMessages ≤ sess.messages.length

def LeftOpen (out : History) : Prop :=
  ∃ sess msg, .append sess msg false ∈ out ∧ hasRoleOf "tool" msg ∧ ¬Stuck sess ∧
    sessionMaxLine < (lib.print msg).length

/-- How many tool messages follow the message at `round`. -/
def toolRun (messages : List CJson) (round : Nat) : Nat :=
  ((messages.drop (round + 1)).takeWhile fun msg => hasRoleOf "tool" msg).length

/-- No call past the first `answers` has the id of a call before it. -/
def Unshared (calls : List CJson) (answers : Nat) : Prop :=
  ∀ early call late, calls = early ++ call :: late → answers ≤ early.length →
    callId call ∉ early.map callId

/-- The repair can tell the open calls of the last round from all others by their ids. -/
def Repairable (messages : List CJson) : Prop :=
  ∀ round calls, lastToolCallRound messages messages.length = some (round, calls) →
    Unshared calls (toolRun messages round)

/-- No turn starts after a tool message was too long, and no repair meets a shared id. -/
def Heals : Life → LifeEvent → Prop
  | .idle _ past, .start .. => ¬LeftOpen lib past
  | .down path file, .resume reads _ =>
    ∀ sess, sessionLoad lib path (.opened true file.length) file reads = .ok sess →
      Repairable sess.messages
  | _, _ => True

/-- The messages a step stores print as cJSON prints; those of a repair are not in a history. -/
def StepPrints : Life → LifeEvent → Life → Prop
  | .down path file, .resume reads _, _ =>
    ∀ sess, sessionLoad lib path (.opened true file.length) file reads = .ok sess →
      ∀ round calls, lastToolCallRound sess.messages sess.messages.length = some (round, calls) →
        ∀ call ∈ calls, ∀ id, callId call = some id → Printable lib (interrupted id)
  | _, _, next => Prints lib next.history

variable {lib} {w : World} {turn turn' : AgentTurn} {sess : SessionState} {out new : History}

theorem sessionRounds_none : ∀ call msg, sessionRounds.Answers call msg →
    sessionRounds.asks msg = [] := by
  rintro call msg ⟨hTool, -⟩
  apply if_neg
  intro hAssistant
  exact absurd (hTool.symm.trans hAssistant) (by decide)

theorem makesCalls_iff {msg : CJson} : makesCalls msg ↔ sessionRounds.asks msg ≠ [] := by
  unfold makesCalls
  show _ ↔ (if hasRoleOf "assistant" msg then toolCalls msg else []) ≠ []
  split
  · rename_i hAssistant
    exact and_iff_right hAssistant
  · rename_i hOther
    exact iff_of_false (fun h => hOther h.1) (fun h => h rfl)

theorem asks_makesCalls {msg : CJson} (h : makesCalls msg) :
    sessionRounds.asks msg = toolCalls msg := if_pos h.1

theorem complete_answersFollow {messages : List CJson} (h : Complete sessionRounds messages) :
    AnswersFollow messages := by
  intro before msg after hMessages hCalls
  obtain ⟨answers, rest, hAfter, hAnswers⟩ := h.replies_follow sessionRounds_none hMessages
  exact ⟨answers, rest, hAfter, asks_makesCalls hCalls ▸ hAnswers⟩

theorem complete_plain {messages : List CJson} (h : Complete sessionRounds messages)
    {msg : CJson} (hNone : toolCalls msg = []) : Complete sessionRounds (messages ++ [msg]) := by
  have hAsks : sessionRounds.asks msg = [] := by
    show (if hasRoleOf "assistant" msg then toolCalls msg else []) = []
    rw [hNone, ite_self]
  have hHead : sessionRounds.Heads msg := by
    intro call hMem
    rw [hNone] at hMem
    cases hMem
  have hReplies : List.Forall₂ sessionRounds.Answers (sessionRounds.asks msg) [] := by
    rw [hAsks]
    exact .nil
  exact h.append (.single hHead hReplies)

theorem legal_of_prefix {a b : List CJson} (h : a <+: b) (hLegal : Legal sessionRounds b) :
    Legal sessionRounds a := hLegal.of_prefix h

theorem userMessage_calls (text : Bytes) : toolCalls (userMessage text) = [] := rfl

theorem Prints.left (h : Prints lib (out ++ new)) : Prints lib out :=
  fun o hMem => h o (List.mem_append_left new hMem)

theorem Prints.right (h : Prints lib (out ++ new)) : Prints lib new :=
  fun o hMem => h o (List.mem_append_right out hMem)

theorem Prints.last {sess : SessionState} {msg : CJson} {ok : Bool}
    (h : Prints lib (out ++ [.append sess msg ok])) : Printable lib msg :=
  h.right _ (List.mem_singleton_self _) msg rfl

theorem LeftOpen.append_left (h : LeftOpen lib out) : LeftOpen lib (out ++ new) := by
  obtain ⟨sess, msg, hMem, hTool, hFree, hLong⟩ := h
  exact ⟨sess, msg, List.mem_append_left new hMem, hTool, hFree, hLong⟩

theorem LeftOpen.append_right (h : LeftOpen lib new) : LeftOpen lib (out ++ new) := by
  obtain ⟨sess, msg, hMem, hTool, hFree, hLong⟩ := h
  exact ⟨sess, msg, List.mem_append_right out hMem, hTool, hFree, hLong⟩

theorem RequestsAnswered.append (h : RequestsAnswered out) (h' : RequestsAnswered new) :
    RequestsAnswered (out ++ new) := by
  intro opts hMem
  rcases List.mem_append.mp hMem with hOld | hNew
  · exact h opts hOld
  · exact h' opts hNew

theorem sessionAppend_failed {msg : CJson} {os : Nat → WriteResult}
    (h : (sessionAppend lib sess msg os).2.isOk = false) :
    (sessionAppend lib sess msg os).1.messages = sess.messages := by
  have hCase := sessionAppend_cases lib sess msg os
  generalize sessionAppend lib sess msg os = r at h hCase
  cases hCase with
  | refused err => rfl
  | torn torn err _ _ _ => rfl
  | written _ _ _ _ => cases h

theorem sessionAppend_ok_free {msg : CJson} {os : Nat → WriteResult}
    (h : (sessionAppend lib sess msg os).2.isOk = true) : ¬Stuck sess := by
  have hCase := sessionAppend_cases lib sess msg os
  generalize sessionAppend lib sess msg os = r at h hCase
  cases hCase with
  | refused err => cases h
  | torn torn err _ _ _ => cases h
  | written _ hClean hCount _ =>
    rintro (hPoisoned | hFull)
    · rw [hClean] at hPoisoned
      cases hPoisoned
    · exact absurd hFull (Nat.not_le.mpr hCount)

theorem sessionAppend_stuck {msg : CJson} {os : Nat → WriteResult} (hRole : hasRole msg = true)
    (h : (sessionAppend lib sess msg os).2.isOk = false) :
    Stuck (sessionAppend lib sess msg os).1 ∨
      ¬Stuck sess ∧ sessionMaxLine < (lib.print msg).length := by
  unfold sessionAppend at h ⊢
  rw [if_neg (not_not_intro hRole)] at h ⊢
  split
  · rename_i hPoisoned
    exact .inl (.inl hPoisoned)
  rename_i hPoisoned
  split
  · rename_i hFull
    exact .inl (.inr hFull)
  rename_i hRoom
  rw [if_neg hPoisoned, if_neg hRoom] at h
  dsimp only at h ⊢
  split
  · rename_i hLong
    exact .inr ⟨not_or.mpr ⟨hPoisoned, hRoom⟩, hLong⟩
  rename_i hFits
  rw [if_neg hFits] at h
  obtain hWrote | ⟨torn, err, -, -, hTorn⟩ := writeLine_cases sess (lib.print msg) os
  · rw [hWrote] at h
    cases h
  · rw [hTorn]
    exact .inl (.inl rfl)

theorem sessionAppend_of_stuck {msg : CJson} {os : Nat → WriteResult} (h : Stuck sess) :
    (sessionAppend lib sess msg os).1 = sess := by
  unfold sessionAppend
  split
  · rfl
  split
  · rfl
  split
  · rfl
  rename_i hPoisoned hRoom
  exact absurd h (not_or.mpr ⟨hPoisoned, hRoom⟩)

/-- The disk tells a legal conversation; the session owes the answers of its last round, or has
stopped in the middle of one. -/
def lifeAccount (lib : JsonLib) : Account lib where
  Owes out sess pending := Prints lib out →
    Owes sessionRounds sess.messages pending ∧ OnRecord lib (Legal sessionRounds) sess
  Broken out sess := Prints lib out →
    OnRecord lib (Legal sessionRounds) sess ∧ (Stuck sess ∨ LeftOpen lib out)
  owes_quiet _ h hPrints := h hPrints.left
  broken_quiet _ h hPrints := by
    obtain ⟨hRecord, hStop⟩ := h hPrints.left
    exact ⟨hRecord, hStop.imp_right LeftOpen.append_left⟩
  message m os h hPrints := by
    obtain ⟨hOwes, hRecord⟩ := h hPrints.left
    have hNew := hOwes.head m.ids
    have hNext := sessionAppend_onRecord legal_of_prefix hRecord hPrints.last ⟨_, hNew⟩ os
    refine ⟨?_, hNext⟩
    split
    · rename_i hOk
      rw [sessionAppend_messages hOk, ← asks_assistant m]
      exact hNew
    · rename_i hFailed
      rw [sessionAppend_failed (Bool.eq_false_iff.mpr hFailed)]
      exact hOwes
  answered content os hId h hOk hPrints := by
    obtain ⟨hOwes, hRecord⟩ := h hPrints.left
    have hNew := hOwes.reply (toolMessage_answers hId content)
    have hNext := sessionAppend_onRecord legal_of_prefix hRecord hPrints.last ⟨_, hNew⟩ os
    rw [sessionAppend_messages hOk]
    exact ⟨hNew, hNext⟩
  unanswered {out sess call pending id} content os hId h hFailed hPrints := by
    obtain ⟨hOwes, hRecord⟩ := h hPrints.left
    have hNew := hOwes.reply (toolMessage_answers hId content)
    have hNext := sessionAppend_onRecord legal_of_prefix hRecord hPrints.last ⟨_, hNew⟩ os
    refine ⟨hNext, ?_⟩
    rcases sessionAppend_stuck rfl hFailed with hStuck | ⟨hFree, hLong⟩
    · exact .inl hStuck
    · exact .inr ⟨sess, toolMessage id content, List.mem_append_right out
        (List.mem_singleton_self _), toolMessage_role id content, hFree, hLong⟩

theorem Phase.account {A : Account lib} {cap : Int} (h : Phase A cap turn) :
    (∃ pending, A.Owes turn.out turn.session pending) ∨ A.Broken turn.out turn.session := by
  cases h with
  | waiting h => exact .inl ⟨_, h.books.owes⟩
  | streaming id h => exact .inl ⟨_, h.books.owes⟩
  | tooling key h hExec => exact .inl ⟨_, h.books.owes⟩
  | finished h => exact h.settled.imp_left fun hOwes => ⟨[], hOwes⟩

theorem Phase.onRecord {cap : Int} (h : Phase (lifeAccount lib) cap turn)
    (hPrints : Prints lib turn.out) : OnRecord lib (Legal sessionRounds) turn.session := by
  rcases h.account with ⟨pending, hOwes⟩ | hBroken
  · exact (hOwes hPrints).2
  · exact (hBroken hPrints).1

theorem Phase.requests {cap : Int} (h : Phase (lifeAccount lib) cap turn)
    (hPrints : Prints lib turn.out) {input : TurnInput}
    (hStep : step lib w turn input = some turn') (hOld : RequestsAnswered turn.out) :
    RequestsAnswered turn'.out := by
  intro opts hMem
  rcases step_requests lib w hStep hMem with hSent | ⟨hTimer, tools, rfl⟩
  · exact hOld opts hSent
  have hComplete : Complete sessionRounds turn.session.messages := by
    cases h with
    | waiting h => exact (h.books.owes hPrints).1.complete
    | streaming id h => exact absurd (hTimer.symm.trans h.timer) (by decide)
    | tooling key h hExec => exact absurd (hTimer.symm.trans h.timer) (by decide)
    | finished h => exact absurd (hTimer.symm.trans h.timer) (by decide)
  apply complete_answersFollow
  show Complete sessionRounds (requestMessages turn)
  unfold requestMessages
  split
  · exact (complete_plain .nil rfl).append hComplete
  · exact hComplete

theorem lastToolCallRound_some {messages calls : List CJson} {n round : Nat}
    (h : lastToolCallRound messages n = some (round, calls)) :
    ∃ msg, messages[round]? = some msg ∧ makesCalls msg ∧ calls = toolCalls msg := by
  induction n with
  | zero => cases h
  | succ n ih =>
    rw [lastToolCallRound] at h
    split at h
    · rename_i msg hMsg
      split at h
      · rename_i hCalls
        obtain ⟨rfl, rfl⟩ := Prod.mk.inj (Option.some.inj h)
        exact ⟨msg, hMsg, hCalls, rfl⟩
      · exact ih h
    · exact ih h

theorem answered_iff {calls replies : List CJson}
    (h : List.Forall₂ sessionRounds.Answers calls replies) {id : Bytes} :
    answered replies (some id) = true ↔ some id ∈ calls.map callId := by
  induction h with
  | nil => exact iff_of_false Bool.false_ne_true List.not_mem_nil
  | @cons call reply calls replies hFirst _ ih =>
    obtain ⟨hTool, hId⟩ := hFirst
    rw [List.map_cons, List.mem_cons, ← ih, ← hId, answered, List.any_cons, Bool.or_eq_true,
      decide_eq_true hTool, Option.isSome_some, Bool.and_true, Bool.true_and, beq_iff_eq]
    exact or_congr eq_comm Iff.rfl

theorem agentRepairSession_complete (h : Complete sessionRounds sess.messages)
    (os : Nat → Nat → WriteResult) : agentRepairSession lib sess os = (sess, .ok ()) := by
  unfold agentRepairSession
  split
  · rfl
  rename_i round calls hRound
  obtain ⟨msg, hMsg, hCalls, rfl⟩ := lastToolCallRound_some hRound
  obtain ⟨hLt, hGet⟩ := List.getElem?_eq_some_iff.mp hMsg
  have hSplit : sess.messages = sess.messages.take round ++ msg :: sess.messages.drop (round + 1) := by
    rw [← hGet, ← List.drop_eq_getElem_cons hLt, List.take_append_drop]
  obtain ⟨replies, rest, hAfter, hAnswers⟩ := h.replies_follow sessionRounds_none hSplit
  have hHead : sessionRounds.Heads msg :=
    h.heads_of_asks sessionRounds_none (List.mem_of_getElem? hMsg) (makesCalls_iff.mp hCalls)
  rw [asks_makesCalls hCalls] at hAnswers
  apply answerCalls_quiet
  intro call hMem
  obtain ⟨id, hId⟩ := Option.isSome_iff_exists.mp (hHead call hMem)
  rw [callAnswered, hAfter, hId, answered_append, Bool.or_eq_true]
  exact .inl ((answered_iff hAnswers).mpr (hId ▸ List.mem_map_of_mem hMem))

theorem answerCalls_append {start i : Nat} {done calls : List CJson} {os : Nat → Nat → WriteResult}
    (h : ∀ call ∈ done, callAnswered sess start (callId call) = true) :
    answerCalls lib os start sess i (done ++ calls) =
      answerCalls lib os start sess (i + done.length) calls := by
  induction done generalizing i with
  | nil => rfl
  | cons call done ih =>
    rw [List.cons_append, answerCalls, if_pos (h call List.mem_cons_self),
      ih fun call hMem => h call (List.mem_cons_of_mem _ hMem), List.length_cons]
    congr 1
    omega

/-- The last round of a session, up to where its answers stop. -/
structure OpenRound (sess : SessionState) (before : List CJson) (round : CJson)
    (replies done calls : List CJson) : Prop where
  messages : sess.messages = before ++ round :: replies
  complete : Complete sessionRounds before
  heads : sessionRounds.Heads round
  asks : sessionRounds.asks round = done ++ calls
  answers : List.Forall₂ sessionRounds.Answers done replies

theorem OpenRound.owes {before replies done calls : List CJson} {round : CJson}
    (h : OpenRound sess before round replies done calls) :
    Owes sessionRounds sess.messages calls := by
  rw [h.messages]
  exact .dangling h.complete h.heads h.asks h.answers

/-- The repair answers the open calls one by one, in order, when no id is shared. -/
theorem answerCalls_open {before replies done calls : List CJson} {round : CJson} {i : Nat}
    {os : Nat → Nat → WriteResult} (h : OpenRound sess before round replies done calls)
    (hIds : ∀ call ∈ calls, (callId call).isSome) (hRecord : OnRecord lib (Legal sessionRounds) sess)
    (hUnshared : Unshared (done ++ calls) done.length)
    (hPrint : ∀ call ∈ calls, ∀ id, callId call = some id → Printable lib (interrupted id)) :
    let r := answerCalls lib os (before.length + 1) sess i calls
    OnRecord lib (Legal sessionRounds) r.1 ∧
      (r.2.isOk = true → Complete sessionRounds r.1.messages) := by
  induction calls generalizing sess replies done i with
  | nil => exact ⟨hRecord, fun _ => h.owes.complete⟩
  | cons call calls ih =>
    obtain ⟨id, hId⟩ := Option.isSome_iff_exists.mp (hIds call List.mem_cons_self)
    have hDrop : sess.messages.drop (before.length + 1) = replies := by
      rw [h.messages, ← List.drop_drop, List.drop_left, List.drop_one, List.tail_cons]
    have hOpen : callAnswered sess (before.length + 1) (some id) = false := by
      rw [callAnswered, hDrop, Bool.eq_false_iff, ne_eq, answered_iff h.answers, ← hId]
      exact hUnshared done call calls rfl le_rfl
    have hNew : Owes sessionRounds (sess.messages ++ [interrupted id]) calls :=
      h.owes.reply (toolMessage_answers hId _)
    have hNext := sessionAppend_onRecord legal_of_prefix hRecord
      (hPrint call List.mem_cons_self id hId) ⟨_, hNew⟩ (os i)
    rw [answerCalls, hId, hOpen, if_neg Bool.false_ne_true, Option.getD_some]
    have hMessages : (sessionAppend lib sess (interrupted id) (os i)).2.isOk = true →
        (sessionAppend lib sess (interrupted id) (os i)).1.messages =
          sess.messages ++ [interrupted id] := sessionAppend_messages
    generalize sessionAppend lib sess (interrupted id) (os i) = r at hNext hMessages
    obtain ⟨next, _ | _⟩ := r
    · exact ⟨hNext, fun hOk => by cases hOk⟩
    have hRound : OpenRound next before round (replies ++ [interrupted id]) (done ++ [call]) calls := by
      constructor
      · rw [hMessages rfl, h.messages, List.append_assoc, List.cons_append]
      · exact h.complete
      · exact h.heads
      · rw [h.asks, List.append_assoc, List.singleton_append]
      · exact List.rel_append h.answers (.cons (toolMessage_answers hId _) .nil)
    refine ih hRound (fun call hMem => hIds call (List.mem_cons_of_mem _ hMem)) hNext ?_
      fun call hMem => hPrint call (List.mem_cons_of_mem _ hMem)
    intro early later late hSplit hLe
    rw [List.append_assoc, List.singleton_append] at hSplit
    rw [List.length_append] at hLe
    exact hUnshared early later late hSplit (by omega)

theorem toolRun_open {before replies : List CJson} {round : CJson}
    (hTools : ∀ msg ∈ replies, hasRoleOf "tool" msg) :
    toolRun (before ++ round :: replies) before.length = replies.length := by
  have hDrop : (before ++ round :: replies).drop (before.length + 1) = replies := by
    rw [← List.drop_drop, List.drop_left, List.drop_one, List.tail_cons]
  rw [toolRun, hDrop, List.takeWhile_eq_self_iff.mpr]
  intro msg hMem
  exact decide_eq_true (hTools msg hMem)

/-- A repair keeps the disk, and completes the conversation when it succeeds. -/
theorem agentRepairSession_onRecord (hRecord : OnRecord lib (Legal sessionRounds) sess)
    (hLegal : Legal sessionRounds sess.messages) (hRepairable : Repairable sess.messages)
    (hPrint : ∀ round calls,
      lastToolCallRound sess.messages sess.messages.length = some (round, calls) →
        ∀ call ∈ calls, ∀ id, callId call = some id → Printable lib (interrupted id))
    (os : Nat → Nat → WriteResult) :
    let r := agentRepairSession lib sess os
    OnRecord lib (Legal sessionRounds) r.1 ∧
      (r.2.isOk = true → Complete sessionRounds r.1.messages) := by
  obtain ⟨pending, hOwes⟩ := hLegal
  -- either nothing is owed, or the last round makes calls and some are open
  by_cases hNone : pending = []
  · subst hNone
    rw [agentRepairSession_complete hOwes.complete os]
    exact ⟨hRecord, fun _ => hOwes.complete⟩
  generalize hMessages : sess.messages = messages at hOwes
  cases hOwes with
  | settled h => exact absurd rfl hNone
  | @dangling before replies round done _ hDone hHead hAsks hReplies =>
    have hCalls : makesCalls round := by
      rw [makesCalls_iff, hAsks]
      exact List.append_ne_nil_of_right_ne_nil done hNone
    have hTools : ∀ msg ∈ replies, hasRoleOf "tool" msg := by
      intro msg hMem
      obtain ⟨i, hi, rfl⟩ := List.getElem_of_mem hMem
      exact (hReplies.get (hReplies.length_eq ▸ hi) hi).1
    have hRound : OpenRound sess before round replies done pending :=
      ⟨hMessages, hDone, hHead, hAsks, hReplies⟩
    have hLast : LastRound sess before round replies := ⟨hMessages, hCalls, hTools, hHead⟩
    have hFound : lastToolCallRound sess.messages sess.messages.length =
        some (before.length, done ++ pending) := by
      rw [hMessages, lastToolCallRound_append hCalls fun msg hMem =>
        not_makesCalls_tool (hTools msg hMem), ← asks_makesCalls hCalls, hAsks]
    have hUnshared := hRepairable _ _ hFound
    rw [hMessages, toolRun_open hTools, ← hReplies.length_eq] at hUnshared
    have hIds : ∀ call ∈ done ++ pending, (callId call).isSome := by
      rw [← hAsks, asks_makesCalls hCalls]
      exact hHead
    have hAnswered : ∀ call ∈ done,
        callAnswered sess (before.length + 1) (callId call) = true := by
      intro call hMem
      obtain ⟨id, hId⟩ := Option.isSome_iff_exists.mp (hIds call (List.mem_append_left _ hMem))
      have hDrop : sess.messages.drop (before.length + 1) = replies := by
        rw [hMessages, ← List.drop_drop, List.drop_left, List.drop_one, List.tail_cons]
      rw [callAnswered, hDrop, hId, answered_iff hReplies, ← hId]
      exact List.mem_map_of_mem hMem
    rw [hLast.repair lib os, ← asks_makesCalls hCalls, hAsks, answerCalls_append hAnswered]
    refine answerCalls_open hRound (fun call hMem => hIds call (List.mem_append_right _ hMem))
      hRecord hUnshared ?_
    intro call hMem
    exact hPrint _ _ hFound call (List.mem_append_right _ hMem)

/-- What a start does to the session: nothing, or one append of the user's message. -/
inductive StartedOn (lib : JsonLib) (session : SessionState) (userText : Bytes) :
    SessionState → History → Prop
  | nothing : StartedOn lib session userText session []
  | append (os : Nat → WriteResult) :
      StartedOn lib session userText (sessionAppend lib session (userMessage userText) os).1
        [.append session (userMessage userText)
          (sessionAppend lib session (userMessage userText) os).2.isOk]

variable (lib) in
theorem agentTurnStart_on (w : World) (opts : AgentOpts) (session : SessionState)
    (store : OptionStore) (env : Env) (userText : Bytes) (timerInits : Bool) :
    StartedOn lib session userText
      (agentTurnStart lib w opts session store env userText timerInits).1.session
      (agentTurnStart lib w opts session store env userText timerInits).1.out := by
  have hAppend : StartedOn lib session userText
      (append lib w (newTurn opts session store env) (userMessage userText)).1.session
      (append lib w (newTurn opts session store env) (userMessage userText)).1.out :=
    .append (w.write [])
  unfold agentTurnStart
  dsimp only
  split
  · exact .nothing
  split
  · rename_i next err hReply
    rw [hReply] at hAppend
    exact hAppend
  · rename_i next hReply
    rw [hReply] at hAppend
    split
    · exact hAppend
    split
    · exact hAppend
    · exact hAppend

theorem StartedOn.keeps {userText : Bytes} {next : SessionState}
    (h : StartedOn lib sess userText next new) (hPrints : Prints lib new)
    (hRecord : OnRecord lib (Legal sessionRounds) sess)
    (hRounds : Complete sessionRounds sess.messages ∨ Stuck sess) :
    RequestsAnswered new ∧ OnRecord lib (Legal sessionRounds) next ∧
      (Complete sessionRounds next.messages ∨ Stuck next) := by
  cases h with
  | nothing => exact ⟨nofun, hRecord, hRounds⟩
  | append os =>
    refine ⟨?_, ?_⟩
    · intro opts hMem
      cases List.mem_singleton.mp hMem
    rcases hRounds with hComplete | hStuck
    · have hMore := complete_plain hComplete (userMessage_calls userText)
      have hPrint : Printable lib (userMessage userText) :=
        hPrints _ (List.mem_singleton_self _) _ rfl
      refine ⟨sessionAppend_onRecord legal_of_prefix hRecord hPrint ⟨[], .settled hMore⟩ os, ?_⟩
      left
      rcases hOk : (sessionAppend lib sess (userMessage userText) os).2.isOk with _ | _
      · rw [sessionAppend_failed hOk]
        exact hComplete
      · rw [sessionAppend_messages hOk]
        exact hMore
    · rw [sessionAppend_of_stuck hStuck]
      exact ⟨hRecord, .inr hStuck⟩

theorem agentTurnStart_life {opts : AgentOpts} {session : SessionState} {store : OptionStore}
    {env : Env} {userText : Bytes} {timerInits : Bool}
    (hStart : agentTurnStart lib w opts session store env userText timerInits = (turn, .ok ()))
    (hPrints : Prints lib turn.out) (hRecord : OnRecord lib (Legal sessionRounds) session)
    (hRounds : Complete sessionRounds session.messages ∨ Stuck session) :
    Phase (lifeAccount lib) (resolveStepCap store env) turn := by
  have hOn := agentTurnStart_on lib w opts session store env userText timerInits
  rw [hStart] at hOn
  obtain ⟨-, hNext, hEnds⟩ := hOn.keeps hPrints hRecord hRounds
  obtain ⟨sess, hAppend, hTurn⟩ := agentTurnStart_ok w hStart
  have hOk : (sessionAppend lib session (userMessage userText) (w.write [])).2.isOk = true := by
    rw [hAppend]
    rfl
  have hMessages := sessionAppend_messages hOk
  have hComplete := hRounds.resolve_right (sessionAppend_ok_free hOk)
  refine .waiting (agentTurnStart_waiting w hStart fun _ => ⟨?_, hNext⟩)
  rw [hTurn]
  rw [hAppend] at hMessages
  show Owes sessionRounds sess.messages []
  rw [hMessages]
  exact .settled (complete_plain hComplete (userMessage_calls userText))

inductive Healthy (lib : JsonLib) : Life → Prop
  | idle {sess : SessionState} {past : History} (hSent : RequestsAnswered past)
      (hRecord : OnRecord lib (Legal sessionRounds) sess)
      (hRounds : (Complete sessionRounds sess.messages ∨ Stuck sess) ∨ LeftOpen lib past) :
      Healthy lib (.idle sess past)
  | turning {past : History} {w : World} {turn : AgentTurn} {cap : Int}
      (hSent : RequestsAnswered past) (hTurn : RequestsAnswered turn.out)
      (hPrints : Prints lib turn.out) (hPhase : Phase (lifeAccount lib) cap turn) :
      Healthy lib (.turning past w turn)
  | down {path file : Bytes} (hTells : Tells lib (Legal sessionRounds) file) :
      Healthy lib (.down path file)

theorem Healthy.requests {s : Life} (h : Healthy lib s) : RequestsAnswered s.history := by
  cases h with
  | idle hSent _ _ => exact hSent
  | turning hSent hTurn _ _ => exact hSent.append hTurn
  | down _ => exact nofun

theorem Healthy.finish {past : History} {cap : Int} (hSent : RequestsAnswered past)
    (hTurn : RequestsAnswered turn.out) (hPrints : Prints lib turn.out)
    (hPhase : Phase (lifeAccount lib) cap turn) (hFinished : turn.finished = true) :
    Healthy lib (.idle turn.session (past ++ turn.out)) := by
  refine .idle (hSent.append hTurn) (hPhase.onRecord hPrints) ?_
  cases hPhase with
  | waiting h => exact absurd (hFinished.symm.trans h.unfinished) (by decide)
  | streaming id h => exact absurd (hFinished.symm.trans h.unfinished) (by decide)
  | tooling key h hExec => exact absurd (hFinished.symm.trans h.unfinished) (by decide)
  | finished h =>
    rcases h.settled with hOwes | hBroken
    · exact .inl (.inl (hOwes hPrints).1.complete)
    · obtain ⟨-, hStuck | hLeft⟩ := hBroken hPrints
      · exact .inl (.inr hStuck)
      · exact .inr hLeft.append_right

theorem Healthy.start {past : History} (h : Healthy lib (.idle sess past)) (w : World)
    (opts : AgentOpts) (store : OptionStore) (env : Env) (userText : Bytes) (timerInits : Bool)
    (hHeals : ¬LeftOpen lib past)
    (hPrints : Prints lib
      (beginTurn past w (agentTurnStart lib w opts sess store env userText timerInits)).history) :
    Healthy lib
      (beginTurn past w (agentTurnStart lib w opts sess store env userText timerInits)) := by
  cases h with
  | idle hSent hRecord hRounds =>
    replace hRounds := hRounds.resolve_right hHeals
    have hOn := agentTurnStart_on lib w opts sess store env userText timerInits
    have hPhase : ∀ turn,
        agentTurnStart lib w opts sess store env userText timerInits = (turn, .ok ()) →
          Prints lib turn.out → Phase (lifeAccount lib) (resolveStepCap store env) turn :=
      fun _ hStart hAll => agentTurnStart_life hStart hAll hRecord hRounds
    generalize agentTurnStart lib w opts sess store env userText timerInits = r
      at hOn hPhase hPrints
    obtain ⟨turn, err | ok⟩ := r
    · obtain ⟨hTurn, hNext, hEnds⟩ := hOn.keeps hPrints.right hRecord hRounds
      exact .idle (hSent.append hTurn) hNext (.inl hEnds)
    · obtain ⟨hTurn, -, -⟩ := hOn.keeps hPrints.right hRecord hRounds
      exact .turning hSent hTurn hPrints.right (hPhase turn rfl hPrints.right)

theorem Healthy.resume {path file : Bytes} {reads : Nat → ReadResult} {os : Nat → Nat → WriteResult}
    (h : Healthy lib (.down path file)) (hHeals : Heals lib (.down path file) (.resume reads os))
    (hPrints : StepPrints lib (.down path file) (.resume reads os)
      (resumeSession lib path file reads os)) :
    Healthy lib (resumeSession lib path file reads os) := by
  cases h with
  | down hTells =>
    unfold resumeSession
    split
    · exact .down hTells
    rename_i sess hLoad
    obtain ⟨hRecord, hLegal, -⟩ := sessionLoad_onRecord hTells hLoad
    obtain ⟨hNext, hComplete⟩ := agentRepairSession_onRecord hRecord hLegal (hHeals sess hLoad)
      (hPrints sess hLoad) os
    generalize agentRepairSession lib sess os = r at hNext hComplete
    obtain ⟨next, err | ok⟩ := r
    · exact .down hNext.tells
    · exact .idle nofun hNext (.inl (.inl (hComplete rfl)))

theorem lifeStep_healthy {s s' : Life} {e : LifeEvent} (hPrints : StepPrints lib s e s')
    (hHeals : Heals lib s e) (h : Healthy lib s) (hStep : lifeStep lib s e = some s') :
    Healthy lib s' := by
  unfold lifeStep at hStep
  split at hStep
  · obtain rfl := Option.some.inj hStep
    exact h.start _ _ _ _ _ _ hHeals hPrints
  · obtain rfl := Option.some.inj hStep
    cases h with
    | idle _ hRecord _ => exact .down (hRecord.tells.cut legal_of_prefix _)
  · obtain ⟨turn', hTurnStep, rfl⟩ := Option.map_eq_some_iff.mp hStep
    cases h with
    | turning hSent hTurn hOld hPhase =>
      refine .turning hSent (hPhase.requests hOld hTurnStep hTurn) ?_
        (step_phase _ hPhase hTurnStep)
      have hAll : Prints lib (_ ++ turn'.out) := hPrints
      exact hAll.right
  · obtain ⟨hFinished, hStep⟩ := Option.ite_none_right_eq_some.mp hStep
    obtain rfl := Option.some.inj hStep
    cases h with
    | turning hSent hTurn hOld hPhase => exact .finish hSent hTurn hOld hPhase hFinished
  · obtain rfl := Option.some.inj hStep
    cases h with
    | turning _ _ hOld hPhase =>
      exact .down ((hPhase.onRecord hOld).tells.cut legal_of_prefix _)
  · obtain rfl := Option.some.inj hStep
    exact h.resume hHeals hPrints
  · cases hStep

/-- In every life of a session, over turns, cancels, failed appends, crashes and restarts: as long
as no turn starts after a tool message too long to store, and each repair can tell the open calls
by their ids, every request carries complete rounds. -/
theorem life_requests_answered {dir : Except Error Bytes} {now : Int} {stamp : Option Bytes}
    {create : Nat → CreateResult} {os : Nat → WriteResult}
    (hNew : sessionNew lib dir now stamp create os = .ok sess)
    (hHeader : Printable lib (headerRecord sess.id.data now)) {events : List LifeEvent} {s : Life}
    (hRun : Run.run (lifeStep lib) (.idle sess []) events = some s)
    (hPrints : Run.Along (lifeStep lib) (StepPrints lib) (.idle sess []) events)
    (hHeals : Run.Along (lifeStep lib) (fun s e _ => Heals lib s e) (.idle sess []) events) :
    RequestsAnswered s.history := by
  have hNone : Legal sessionRounds [] := ⟨[], .settled .nil⟩
  obtain ⟨hRecord, hMessages⟩ := sessionNew_onRecord hNew hHeader.noNewline hNone
  have hStart : Healthy lib (.idle sess []) := by
    refine .idle nofun hRecord (.inl (.inl ?_))
    rw [hMessages]
    exact .nil
  have hStep : ∀ s e s', StepPrints lib s e s' ∧ Heals lib s e → Healthy lib s →
      lifeStep lib s e = some s' → Healthy lib s' := by
    rintro s e s' ⟨hStepPrints, hStepHeals⟩
    exact lifeStep_healthy hStepPrints hStepHeals
  exact (Run.run_invariant_along hStep (hPrints.and hHeals) hStart hRun).requests

/-! A round of one call, with the texts cJSON prints for its messages. -/

def oneCall : AssistantMessage where
  json := CJson.addItem (jsonAddCstr jsonNewObj (ascii "role") (ascii "assistant"))
    (ascii "tool_calls") (.array [callOf "a"])
  role := rfl
  ids := by decide

def callText : Bytes :=
  ascii "\x7b\"role\":\"assistant\",\"tool_calls\":[\x7b\"function\":\x7b\"name\":\"a\"\x7d,\"id\":\"a\"\x7d]\x7d"

/-- The text of a tool message whose strings have nothing to escape. -/
def toolText (id content : Bytes) : Bytes :=
  ascii "\x7b\"role\":\"tool\",\"tool_call_id\":\"" ++ id ++ ascii "\",\"content\":\"" ++ content ++
    ascii "\"\x7d"

def lifeTable : List (Bytes × CJson) :=
  [(sampleHeaderText, sampleHeader), (sampleMessageText, sampleMessage), (callText, oneCall.json),
    (toolText (ascii "a") (ascii "[interrupted]"), interrupted (ascii "a")),
    (ascii "\x7b\x7d", jsonNewObj)]

/-- Prints and parses the messages of the sample, and nothing else. -/
def lifeLib : JsonLib where
  parse doc :=
    match lifeTable.find? fun row => row.1 = doc with
    | some row => .ok (row.2, doc.length)
    | none => .error 0
  print node :=
    if hasRoleOf "tool" node then
      toolText ((jsonGetCstr node (ascii "tool_call_id")).getD [])
        ((jsonGetCstr node (ascii "content")).getD [])
    else if makesCalls node then callText
    else if hasRole node then sampleMessageText
    else sampleHeaderText
  castOutside _ := 0

theorem lifeLib_print_tool {node : CJson} (h : hasRoleOf "tool" node) :
    lifeLib.print node = toolText ((jsonGetCstr node (ascii "tool_call_id")).getD [])
      ((jsonGetCstr node (ascii "content")).getD []) := by
  unfold lifeLib
  dsimp only
  rw [if_pos h]

theorem lifeTable_apart : ∀ row ∈ lifeTable, ∀ other ∈ lifeTable,
    row.1 <+: other.1 → row.1 = other.1 := by decide +kernel

theorem lifeTable_distinct : lifeTable.Pairwise fun row other => row.1 ≠ other.1 := by
  decide +kernel

theorem lifeTable_lines : ∀ row ∈ lifeTable, row.1 ≠ [] ∧ newline ∉ row.1 := by decide +kernel

theorem find_row {table : List (Bytes × CJson)} {row : Bytes × CJson}
    (hDistinct : table.Pairwise fun row other => row.1 ≠ other.1) (hRow : row ∈ table) :
    (table.find? fun other => other.1 = row.1) = some row := by
  induction table with
  | nil => cases hRow
  | cons first table ih =>
    obtain ⟨hFirst, hRest⟩ := List.pairwise_cons.mp hDistinct
    rcases List.mem_cons.mp hRow with rfl | hRow
    · exact List.find?_cons_of_pos (decide_eq_true rfl)
    · rw [List.find?_cons_of_neg (by simpa using hFirst row hRow)]
      exact ih hRest hRow

theorem lifeLib_printable {text : Bytes} {node : CJson} (hRow : (text, node) ∈ lifeTable)
    (hPrint : lifeLib.print node = text) : Printable lifeLib node := by
  obtain ⟨hSome, hLine⟩ := lifeTable_lines _ hRow
  have hParse : ∀ doc, lifeLib.parse doc = match lifeTable.find? fun row => row.1 = doc with
      | some row => .ok (row.2, doc.length)
      | none => .error 0 := fun _ => rfl
  refine ⟨hPrint ▸ hSome, hPrint ▸ hLine, ?_, ?_⟩
  · rw [hPrint, hParse, find_row lifeTable_distinct hRow]
  intro torn hPrefix hProper
  rw [hPrint] at hPrefix hProper
  have hNone : (lifeTable.find? fun row => row.1 = torn) = none := by
    rw [List.find?_eq_none]
    intro row hMem hEq
    have hTorn : row.1 = torn := of_decide_eq_true hEq
    exact hProper (hTorn ▸ lifeTable_apart row hMem _ hRow (hTorn ▸ hPrefix))
  exact ⟨0, by rw [hParse, hNone]⟩

theorem lifeLib_header : Printable lifeLib sampleHeader :=
  lifeLib_printable (List.mem_of_getElem? (i := 0) rfl) rfl

theorem lifeLib_user : Printable lifeLib (userMessage (ascii "hi")) :=
  lifeLib_printable (List.mem_of_getElem? (i := 1) rfl) rfl

theorem lifeLib_call : Printable lifeLib oneCall.json :=
  lifeLib_printable (List.mem_of_getElem? (i := 2) rfl) rfl

theorem lifeLib_interrupted : Printable lifeLib (interrupted (ascii "a")) :=
  lifeLib_printable (List.mem_of_getElem? (i := 3) rfl) rfl

/-! The process ends while the tool runs; the next one answers the call, and goes on. -/

def startEvent : LifeEvent :=
  .start toolWorld ⟨none, none, 0⟩ .empty sampleEnv (ascii "hi") true

def Life.next (s : Life) (e : LifeEvent) : Life := (lifeStep lifeLib s e).getD s

def started : Life := Life.next (.idle sampleSession []) startEvent

def asked : Life := started.next (.input .stepTimer)

def calling : Life := asked.next (.input (.done 1 oneCall none))

def crashFile : Bytes := sampleFile ++ callText ++ [newline]

def crashScan : LoadScan :=
  ⟨⟨sampleSession.id, samplePath, crashFile, [userMessage (ascii "hi"), oneCall.json], false,
    false⟩, 3, 0⟩

def repaired : SessionState :=
  { crashScan.sess with
    file := crashFile ++ lifeLib.print (interrupted (ascii "a")) ++ [newline]
    messages := [userMessage (ascii "hi"), oneCall.json, interrupted (ascii "a")] }

def restarted : Life := Life.next (.idle repaired []) startEvent

def askedAgain : Life := restarted.next (.input .stepTimer)

set_option maxRecDepth 4000 in
theorem calling_exit : lifeStep lifeLib calling (.exit 4096) = some (.down samplePath crashFile) :=
  (rfl)

set_option maxRecDepth 4000 in
theorem crashFile_loads :
    sessionLoad lifeLib samplePath (.opened true crashFile.length) crashFile sampleReads =
      .ok crashScan.sess := by
  have hBytes : loadBytes lifeLib samplePath crashFile = .ok crashScan := rfl
  have hPath : samplePath ≠ [] := by decide
  have hFile : crashFile ≠ [] := List.append_ne_nil_of_right_ne_nil _ (List.cons_ne_nil _ _)
  rw [sessionLoad_eq hPath hFile sampleReads_well, hBytes]
  rfl

def resumeEvent : LifeEvent := .resume sampleReads fun _ => sampleWrites

set_option maxRecDepth 4000 in
theorem crashFile_resumes :
    lifeStep lifeLib (.down samplePath crashFile) resumeEvent = some (.idle repaired []) := by
  have hRepair : agentRepairSession lifeLib crashScan.sess (fun _ => sampleWrites) =
      (repaired, .ok ()) := rfl
  show some (resumeSession lifeLib samplePath crashFile sampleReads fun _ => sampleWrites) = _
  rw [resumeSession, crashFile_loads]
  dsimp only
  rw [hRepair]

theorem prints_of_mem {out : History}
    (h : ∀ msg ∈ out.filterMap AgentOutput.stored, Printable lib msg) : Prints lib out :=
  fun o hMem msg hStored => h msg (List.mem_filterMap.mpr ⟨o, hMem, hStored⟩)

theorem user_prints {out : History}
    (hStored : out.filterMap AgentOutput.stored = [userMessage (ascii "hi")]) :
    Prints lifeLib out := by
  apply prints_of_mem
  rw [hStored]
  intro msg hMem
  exact List.mem_singleton.mp hMem ▸ lifeLib_user

theorem calling_prints : Prints lifeLib calling.history := by
  have hStored : calling.history.filterMap AgentOutput.stored =
      [userMessage (ascii "hi"), oneCall.json] := rfl
  apply prints_of_mem
  rw [hStored]
  intro msg hMem
  rcases List.mem_cons.mp hMem with rfl | hMem
  · exact lifeLib_user
  · exact List.mem_singleton.mp hMem ▸ lifeLib_call

def sampleEvents : List LifeEvent :=
  [startEvent, .input .stepTimer, .input (.done 1 oneCall none), .exit 4096, resumeEvent,
    startEvent, .input .stepTimer]

theorem sampleEvents_run :
    Run.run (lifeStep lifeLib) (.idle sampleSession []) sampleEvents = some askedAgain := by
  have hStart : lifeStep lifeLib (.idle sampleSession []) startEvent = some started := rfl
  have hAsk : lifeStep lifeLib started (.input .stepTimer) = some asked := rfl
  have hCall : lifeStep lifeLib asked (.input (.done 1 oneCall none)) = some calling := rfl
  have hRestart : lifeStep lifeLib (.idle repaired []) startEvent = some restarted := rfl
  have hAgain : lifeStep lifeLib restarted (.input .stepTimer) = some askedAgain := rfl
  rw [sampleEvents, Run.run_cons hStart, Run.run_cons hAsk, Run.run_cons hCall,
    Run.run_cons calling_exit, Run.run_cons crashFile_resumes, Run.run_cons hRestart,
    Run.run_cons hAgain, Run.run_nil]

theorem sampleEvents_along {P : Life → LifeEvent → Life → Prop}
    (hStart : P (.idle sampleSession []) startEvent started)
    (hAsk : P started (.input .stepTimer) asked)
    (hCall : P asked (.input (.done 1 oneCall none)) calling)
    (hExit : P calling (.exit 4096) (.down samplePath crashFile))
    (hResume : P (.down samplePath crashFile) resumeEvent (.idle repaired []))
    (hRestart : P (.idle repaired []) startEvent restarted)
    (hAgain : P restarted (.input .stepTimer) askedAgain) :
    Run.Along (lifeStep lifeLib) P (.idle sampleSession []) sampleEvents := by
  refine .cons rfl hStart (.cons rfl hAsk (.cons rfl hCall (.cons calling_exit hExit ?_)))
  refine .cons crashFile_resumes hResume (.cons rfl hRestart (.cons rfl hAgain ?_))
  trivial

theorem crashFile_round {sess : SessionState}
    (hLoad : sessionLoad lifeLib samplePath (.opened true crashFile.length) crashFile sampleReads =
      .ok sess) :
    lastToolCallRound sess.messages sess.messages.length = some (1, [callOf "a"]) := by
  obtain rfl := Except.ok.inj (crashFile_loads.symm.trans hLoad)
  rfl

theorem sampleEvents_print :
    Run.Along (lifeStep lifeLib) (StepPrints lifeLib) (.idle sampleSession []) sampleEvents := by
  refine sampleEvents_along (user_prints rfl) (user_prints rfl) calling_prints nofun ?_
    (user_prints rfl) (user_prints rfl)
  intro sess hLoad round calls hRound call hMem id hId
  obtain ⟨-, rfl⟩ := Prod.mk.inj (Option.some.inj ((crashFile_round hLoad).symm.trans hRound))
  obtain rfl := List.mem_singleton.mp hMem
  cases hId
  exact lifeLib_interrupted

theorem sampleEvents_heal : Run.Along (lifeStep lifeLib) (fun s e _ => Heals lifeLib s e)
    (.idle sampleSession []) sampleEvents := by
  have hNone : ¬LeftOpen lifeLib [] := by
    rintro ⟨sess, msg, hMem, -⟩
    cases hMem
  refine sampleEvents_along hNone trivial trivial trivial ?_ hNone trivial
  intro sess hLoad round calls hRound early call late hCalls hLe hMem
  obtain ⟨-, rfl⟩ := Prod.mk.inj (Option.some.inj ((crashFile_round hLoad).symm.trans hRound))
  -- the one call has none before it
  have hShort := congrArg List.length hCalls
  have hEarly := List.length_pos_of_mem hMem
  rw [List.length_map] at hEarly
  simp only [List.length_append, List.length_cons, List.length_nil] at hShort
  omega

theorem life_requests_answered_sample :
    ∃ opts, .request opts ∈ askedAgain.history ∧ AnswersFollow opts.messages.children ∧
      opts.messages.children.tail = repaired.messages ++ [userMessage (ascii "hi")] := by
  have hNew : sessionNew lifeLib (.ok (ascii "/s")) sampleNow (some sampleStamp)
      (fun _ => .created) sampleWrites = .ok sampleSession := rfl
  have hAll := life_requests_answered hNew lifeLib_header sampleEvents_run sampleEvents_print
    sampleEvents_heal
  obtain ⟨opts, hGet, hMessages⟩ : ∃ opts, askedAgain.history[1]? = some (.request opts) ∧
      opts.messages.children.tail = repaired.messages ++ [userMessage (ascii "hi")] :=
    ⟨_, rfl, rfl⟩
  have hMem := List.mem_of_getElem? hGet
  exact ⟨opts, hMem, hAll opts hMem, hMessages⟩

/-! The answer of the tool is longer than a line may be, and the next turn starts all the same. -/

theorem agentToolDone_refused (result : ToolResult) {call : CJson} {id : Bytes} {err : Error}
    (hLive : turn.finished = false) (hDriver : turn.inDriver = false)
    (hCall : turn.calls[turn.toolIndex]? = some call) (hId : callId call = some id)
    (hRefused : sessionAppend lib turn.session (toolMessage id result.content) (w.write turn.out) =
      (turn.session, .error err)) :
    (agentToolDone lib w turn result).finished = true ∧
      (agentToolDone lib w turn result).session = turn.session := by
  let failed : AgentTurn := { { turn with exec := none }.emit
    (.append turn.session (toolMessage id result.content) false) with
      failing := true, failErr := some err }
  have hAdvance : toolDoneAdvance lib w turn result = failed := by
    unfold toolDoneAdvance toolCompleted appendToolMessage append
    dsimp only
    rw [if_neg (Bool.eq_false_iff.mp hLive), hCall, Option.bind_some, hId, Option.getD_some,
      hRefused]
    rfl
  have hLoop : driveLoop lib w { failed with inDriver := true }
      (failed.calls.length - failed.toolIndex) = ({ failed with inDriver := true }, false) :=
    driveLoop_failing w _ rfl
  have hDone : agentToolDone lib w turn result =
      finishTurn { failed with inDriver := false } .failed (some err) := by
    unfold agentToolDone
    dsimp only
    rw [if_neg (Bool.eq_false_iff.mp hLive), hAdvance]
    have hOut : failed.inDriver = false := hDriver
    rw [if_neg (Bool.eq_false_iff.mp hOut), driveTools, hLoop]
    rfl
  have hOpen : ({ failed with inDriver := false } : AgentTurn).finished = false := hLive
  rw [hDone, finishTurn, if_neg (Bool.eq_false_iff.mp hOpen)]
  exact ⟨rfl, rfl⟩

def longAnswer : Bytes := List.replicate (sessionMaxLine + 1) 97

theorem longAnswer_long :
    sessionMaxLine < (lifeLib.print (toolMessage (ascii "a") longAnswer)).length := by
  have hFree : NulFree longAnswer := fun hMem => absurd (List.eq_of_mem_replicate hMem) (by decide)
  have hContent : jsonGetCstr (toolMessage (ascii "a") longAnswer) (ascii "content") =
      some (cstr (cstr longAnswer)) := rfl
  have hLength : longAnswer.length = sessionMaxLine + 1 := List.length_replicate
  rw [lifeLib_print_tool (toolMessage_role _ _), hContent, cstr_cstr, cstr_of_nulFree hFree, Option.getD_some, toolText,
    List.length_append, List.length_append, hLength]
  omega

def callingTurn : AgentTurn :=
  match calling with
  | .turning _ _ turn => turn
  | _ => toolTurn

def secondTurn : AgentTurn :=
  (agentTurnStart lifeLib toolWorld ⟨none, none, 0⟩ callingTurn.session .empty sampleEnv
    (ascii "hi") true).1

def answerEvents (content : Bytes) : List LifeEvent :=
  [startEvent, .input .stepTimer, .input (.done 1 oneCall none),
    .input (.toolDone (0, 0) ⟨content, false⟩), .finish, startEvent, .input .stepTimer]

theorem sessionAppend_tooLong {msg : CJson} (os : Nat → WriteResult) (hRole : hasRole msg = true)
    (hFree : ¬Stuck sess) (hLong : sessionMaxLine < (lib.print msg).length) :
    ∃ err, sessionAppend lib sess msg os = (sess, .error err) := by
  obtain ⟨hPoisoned, hRoom⟩ := not_or.mp hFree
  unfold sessionAppend
  rw [if_neg (not_not_intro hRole), if_neg hPoisoned, if_neg hRoom]
  dsimp only
  rw [if_pos hLong]
  exact ⟨_, rfl⟩

theorem secondTurn_asks : ∃ next opts, step lifeLib toolWorld secondTurn .stepTimer = some next ∧
    .request opts ∈ next.out ∧ ¬AnswersFollow opts.messages.children := by
  obtain ⟨next, opts, hStep, hGet, first, hChildren⟩ : ∃ next opts,
      step lifeLib toolWorld secondTurn .stepTimer = some next ∧
        next.out[1]? = some (.request opts) ∧ ∃ first, opts.messages.children =
          [first, userMessage (ascii "hi")] ++ oneCall.json :: [userMessage (ascii "hi")] :=
    ⟨_, _, rfl, rfl, _, rfl⟩
  refine ⟨next, opts, hStep, List.mem_of_getElem? hGet, ?_⟩
  intro hFollow
  obtain ⟨answers, rest, hAfter, hAnswers⟩ := hFollow _ _ _ hChildren (by decide)
  cases hAnswers with
  | cons hFirst _ =>
    rw [List.cons_append] at hAfter
    obtain ⟨rfl, -⟩ := List.cons.inj hAfter
    exact absurd hFirst.1 (by decide)

theorem refused_answer_left_open {content : Bytes}
    (hLong : sessionMaxLine < (lifeLib.print (toolMessage (ascii "a") content)).length) :
    ∃ s opts, Run.run (lifeStep lifeLib) (.idle sampleSession []) (answerEvents content) = some s ∧
      .request opts ∈ s.history ∧ ¬AnswersFollow opts.messages.children := by
  let done : AgentTurn :=
    { callingTurn with tools := [] }.emit (.toolDone (0, 0) ⟨content, false⟩)
  have hRoom : ¬sessionMaxMessages ≤ callingTurn.session.messages.length := by decide
  have hFree : ¬Stuck done.session := by
    rintro (hPoisoned | hFull)
    · cases hPoisoned
    · exact hRoom hFull
  have hRole : hasRole (toolMessage (ascii "a") content) = true := rfl
  obtain ⟨err, hRefused⟩ := sessionAppend_tooLong (toolWorld.write done.out) hRole hFree hLong
  have hCall : done.calls[done.toolIndex]? = some (callOf "a") := rfl
  have hId : callId (callOf "a") = some (ascii "a") := rfl
  have hLive : done.finished = false := rfl
  have hDriver : done.inDriver = false := rfl
  obtain ⟨hFinished, hSession⟩ :=
    agentToolDone_refused ⟨content, false⟩ hLive hDriver hCall hId hRefused
  have hDone : lifeStep lifeLib calling (.input (.toolDone (0, 0) ⟨content, false⟩)) =
      some (.turning [] toolWorld (agentToolDone lifeLib toolWorld done ⟨content, false⟩)) := rfl
  generalize agentToolDone lifeLib toolWorld done ⟨content, false⟩ = failed
    at hFinished hSession hDone
  have hFinish : lifeStep lifeLib (.turning [] toolWorld failed) .finish =
      some (.idle callingTurn.session failed.out) := by
    rw [lifeStep, if_pos hFinished, hSession]
    rfl
  have hSecond : lifeStep lifeLib (.idle callingTurn.session failed.out) startEvent =
      some (.turning failed.out toolWorld secondTurn) := rfl
  obtain ⟨next, opts, hStep, hMem, hOpen⟩ := secondTurn_asks
  have hAgain : lifeStep lifeLib (.turning failed.out toolWorld secondTurn) (.input .stepTimer) =
      some (.turning failed.out toolWorld next) := by
    rw [lifeStep, hStep]
    rfl
  have hStart : lifeStep lifeLib (.idle sampleSession []) startEvent = some started := rfl
  have hAsk : lifeStep lifeLib started (.input .stepTimer) = some asked := rfl
  have hCalling : lifeStep lifeLib asked (.input (.done 1 oneCall none)) = some calling := rfl
  refine ⟨.turning failed.out toolWorld next, opts, ?_, List.mem_append_right failed.out hMem,
    hOpen⟩
  rw [answerEvents, Run.run_cons hStart, Run.run_cons hAsk, Run.run_cons hCalling,
    Run.run_cons hDone, Run.run_cons hFinish, Run.run_cons hSecond, Run.run_cons hAgain,
    Run.run_nil]

/-- The life of a new session in which a request carries a call that nothing answers. -/
theorem long_answer_left_open :
    sessionNew lifeLib (.ok (ascii "/s")) sampleNow (some sampleStamp) (fun _ => .created)
        sampleWrites = .ok sampleSession ∧
      ∃ s opts, Run.run (lifeStep lifeLib) (.idle sampleSession []) (answerEvents longAnswer) =
        some s ∧ .request opts ∈ s.history ∧ ¬AnswersFollow opts.messages.children :=
  ⟨rfl, refused_answer_left_open longAnswer_long⟩

end Mua.Agent
