import Mua.AgentRounds

/-! # The repair of a resumed session

A crash may leave an assistant message whose tool calls have no answers. The
repair finds the last one that makes calls and answers what is open, reading the
session again before each call.
-/

namespace Mua.Agent

open Session

def makesCalls (msg : CJson) : Prop := hasRoleOf "assistant" msg ∧ toolCalls msg ≠ []

instance (msg : CJson) : Decidable (makesCalls msg) :=
  inferInstanceAs (Decidable (hasRoleOf "assistant" msg ∧ toolCalls msg ≠ []))

/-- The highest index under `i` whose message makes calls, and the calls. -/
def lastToolCallRound (messages : List CJson) : Nat → Option (Nat × List CJson)
  | 0 => none
  | i + 1 =>
    match messages[i]? with
    | some msg =>
      if makesCalls msg then some (i, toolCalls msg) else lastToolCallRound messages i
    | none => lastToolCallRound messages i

/-- Whether one of the messages is a tool message that answers `id`. -/
def answered (messages : List CJson) (id : Option Bytes) : Bool :=
  messages.any fun msg =>
    decide (hasRoleOf "tool" msg) && id.isSome && jsonGetCstr msg (ascii "tool_call_id") == id

def callAnswered (sess : SessionState) (start : Nat) (id : Option Bytes) : Bool :=
  answered (sess.messages.drop start) id

def interrupted (id : Bytes) : CJson := toolMessage id (ascii "[interrupted]")

/-- The calls from index `i` on; `os i` is what write(2) does for the answer to call `i`. -/
def answerCalls (lib : JsonLib) (os : Nat → Nat → WriteResult) (start : Nat) (sess : SessionState)
    (i : Nat) : List CJson → SessionState × Except Error Unit
  | [] => (sess, .ok ())
  | call :: rest =>
    if callAnswered sess start (callId call) then answerCalls lib os start sess (i + 1) rest
    else
      match sessionAppend lib sess (interrupted ((callId call).getD [])) (os i) with
      | (sess, .error err) => (sess, .error err)
      | (sess, .ok ()) => answerCalls lib os start sess (i + 1) rest

def agentRepairSession (lib : JsonLib) (sess : SessionState) (os : Nat → Nat → WriteResult) :
    SessionState × Except Error Unit :=
  match lastToolCallRound sess.messages sess.messages.length with
  | none => (sess, .ok ()) -- nothing dangles
  | some (round, calls) => answerCalls lib os (round + 1) sess 0 calls

theorem lastToolCallRound_append {before after : List CJson} {round : CJson}
    (hRound : makesCalls round) (hAfter : ∀ msg ∈ after, ¬makesCalls msg) :
    lastToolCallRound (before ++ round :: after) (before ++ round :: after).length =
      some (before.length, toolCalls round) := by
  have hFrom : ∀ k, k ≤ after.length →
      lastToolCallRound (before ++ round :: after) (before.length + 1 + k) =
        some (before.length, toolCalls round) := by
    intro k
    induction k with
    | zero =>
      intro _
      rw [Nat.add_zero, lastToolCallRound, List.getElem?_append_right le_rfl, Nat.sub_self]
      exact if_pos hRound
    | succ k ih =>
      intro hk
      have hGet : (before ++ round :: after)[before.length + 1 + k]? = some after[k] := by
        rw [List.getElem?_append_right (by omega),
          show before.length + 1 + k - before.length = k + 1 by omega, List.getElem?_cons_succ,
          List.getElem?_eq_getElem]
      rw [← Nat.add_assoc, lastToolCallRound, hGet]
      dsimp only
      rw [if_neg (hAfter _ (List.getElem_mem _)), ih (by omega)]
  have hLength : (before ++ round :: after).length = before.length + 1 + after.length := by
    rw [List.length_append, List.length_cons]
    omega
  rw [hLength]
  exact hFrom after.length le_rfl

theorem not_makesCalls_tool {msg : CJson} (h : hasRoleOf "tool" msg) : ¬makesCalls msg := by
  rintro ⟨hAssistant, -⟩
  exact absurd (h.symm.trans hAssistant) (by decide)

theorem answered_append {messages more : List CJson} {id : Option Bytes} :
    answered (messages ++ more) id = (answered messages id || answered more id) :=
  List.any_append

theorem answered_interrupted {id other : Bytes} (hId : NulFree id) :
    answered [interrupted id] (some other) = (id == other) := by
  have hStored : jsonGetCstr (interrupted id) (ascii "tool_call_id") = some (cstr (cstr id)) := rfl
  have hRole : hasRoleOf "tool" (interrupted id) := toolMessage_role id _
  rw [answered, List.any_cons, List.any_nil, hStored, cstr_cstr, cstr_of_nulFree hId,
    decide_eq_true hRole]
  simp

/-- The ids of the calls that no message of `after` answers, each once, in call order. -/
def unanswered (calls after : List CJson) : List Bytes :=
  ((calls.filterMap callId).filter fun id => !answered after (some id)).eraseDups

theorem mem_unanswered {calls after : List CJson} {id : Bytes} :
    id ∈ unanswered calls after ↔
      id ∈ calls.filterMap callId ∧ answered after (some id) = false := by
  rw [unanswered, List.mem_eraseDups, List.mem_filter, Bool.not_eq_true']

theorem unanswered_answered {calls after : List CJson} {call : CJson} {id : Bytes}
    (hId : callId call = some id) (h : answered after (some id) = true) :
    unanswered (call :: calls) after = unanswered calls after := by
  rw [unanswered, List.filterMap_cons_some hId, List.filter_cons_of_neg (by simp [h])]
  rfl

theorem unanswered_open {calls after : List CJson} {call : CJson} {id : Bytes}
    (hId : callId call = some id) (h : answered after (some id) = false) :
    unanswered (call :: calls) after = id :: unanswered calls (after ++ [interrupted id]) := by
  have hFree : NulFree id := nulFree_jsonGetCstr hId
  rw [unanswered, List.filterMap_cons_some hId, List.filter_cons_of_pos (by simp [h]),
    List.eraseDups_cons, List.filter_filter, unanswered]
  congr 3
  funext other
  rw [answered_append, answered_interrupted hFree, Bool.not_or, Bool.and_comm, Bool.beq_comm]

theorem unanswered_nodup (calls after : List CJson) : (unanswered calls after).Nodup := by
  induction calls generalizing after with
  | nil => exact List.nodup_nil
  | cons call rest ih =>
    rcases hId : callId call with _ | id
    · rw [unanswered, List.filterMap_cons_none hId]
      exact ih after
    · rcases hAnswered : answered after (some id) with _ | _
      · have hFree : NulFree id := nulFree_jsonGetCstr hId
        rw [unanswered_open hId hAnswered, List.nodup_cons]
        refine ⟨fun hMem => ?_, ih _⟩
        have hOpen := (mem_unanswered.mp hMem).2
        rw [answered_append, answered_interrupted hFree, beq_self_eq_true, Bool.or_true] at hOpen
        cases hOpen
      · rw [unanswered_answered hId hAnswered]
        exact ih after

theorem answered_unanswered {calls after : List CJson} {id : Bytes}
    (hId : id ∈ calls.filterMap callId) :
    answered (after ++ (unanswered calls after).map interrupted) (some id) = true := by
  rw [answered_append, Bool.or_eq_true]
  rcases hAfter : answered after (some id) with _ | _
  · have hOpen : id ∈ unanswered calls after := mem_unanswered.mpr ⟨hId, hAfter⟩
    have hFree : NulFree id := by
      obtain ⟨call, -, hCall⟩ := List.mem_filterMap.mp hId
      exact nulFree_jsonGetCstr hCall
    refine .inr (List.any_eq_true.mpr ⟨interrupted id, List.mem_map_of_mem hOpen, ?_⟩)
    have hOne : answered [interrupted id] (some id) = (id == id) := answered_interrupted hFree
    rw [answered, List.any_cons, List.any_nil, Bool.or_false] at hOne
    rw [hOne, beq_self_eq_true]
  · exact .inl rfl

theorem answerCalls_messages {lib : JsonLib} {os : Nat → Nat → WriteResult} {sess : SessionState}
    {before after calls : List CJson} {round : CJson} {i : Nat}
    (hMessages : sess.messages = before ++ round :: after)
    (hIds : ∀ call ∈ calls, (callId call).isSome)
    (hOk : (answerCalls lib os (before.length + 1) sess i calls).2.isOk = true) :
    (answerCalls lib os (before.length + 1) sess i calls).1.messages =
      sess.messages ++ (unanswered calls after).map interrupted := by
  induction calls generalizing sess after i with
  | nil => rw [unanswered, List.filterMap_nil, List.filter_nil, List.eraseDups_nil, List.map_nil,
      List.append_nil, answerCalls]
  | cons call rest ih =>
    obtain ⟨id, hId⟩ := Option.isSome_iff_exists.mp (hIds call List.mem_cons_self)
    have hRest : ∀ call ∈ rest, (callId call).isSome :=
      fun call h => hIds call (List.mem_cons_of_mem _ h)
    have hDrop : sess.messages.drop (before.length + 1) = after := by
      rw [hMessages, ← List.drop_drop, List.drop_left, List.drop_one, List.tail_cons]
    rw [answerCalls, callAnswered, hDrop, hId] at hOk ⊢
    rcases hAnswered : answered after (some id) with _ | _
    · rw [hAnswered, if_neg Bool.false_ne_true] at hOk
      rw [if_neg Bool.false_ne_true, Option.getD_some]
      rw [Option.getD_some] at hOk
      have hAppend : (sessionAppend lib sess (interrupted id) (os i)).2.isOk = true →
          (sessionAppend lib sess (interrupted id) (os i)).1.messages =
            sess.messages ++ [interrupted id] := sessionAppend_messages
      generalize sessionAppend lib sess (interrupted id) (os i) = r
        at hOk hAppend ⊢
      rcases r with ⟨next, _ | _⟩
      · cases hOk
      · have hNext : next.messages = before ++ round :: (after ++ [interrupted id]) := by
          rw [hAppend rfl, hMessages, List.append_assoc, List.cons_append]
        refine (ih hNext hRest hOk).trans ?_
        rw [hAppend rfl, unanswered_open hId hAnswered, List.map_cons, List.append_assoc]
        rfl
    · rw [hAnswered, if_pos rfl] at hOk
      rw [if_pos rfl, unanswered_answered hId hAnswered]
      exact ih hMessages hRest hOk

theorem answerCalls_quiet {lib : JsonLib} {os : Nat → Nat → WriteResult} {sess : SessionState}
    {start i : Nat} {calls : List CJson}
    (h : ∀ call ∈ calls, callAnswered sess start (callId call) = true) :
    answerCalls lib os start sess i calls = (sess, .ok ()) := by
  induction calls generalizing i with
  | nil => rfl
  | cons call rest ih =>
    rw [answerCalls, if_pos (h call List.mem_cons_self)]
    exact ih fun call hMem => h call (List.mem_cons_of_mem _ hMem)

/-- The last message that makes calls is `round`: tool messages follow it, and its calls have ids. -/
structure LastRound (sess : SessionState) (before : List CJson) (round : CJson)
    (after : List CJson) : Prop where
  messages : sess.messages = before ++ round :: after
  calls : makesCalls round
  tools : ∀ msg ∈ after, hasRoleOf "tool" msg
  ids : ∀ call ∈ toolCalls round, (callId call).isSome

theorem LastRound.repair {sess : SessionState} {before after : List CJson} {round : CJson}
    (h : LastRound sess before round after) (lib : JsonLib) (os : Nat → Nat → WriteResult) :
    agentRepairSession lib sess os =
      answerCalls lib os (before.length + 1) sess 0 (toolCalls round) := by
  have hAfter : ∀ msg ∈ after, ¬makesCalls msg :=
    fun msg hMem => not_makesCalls_tool (h.tools msg hMem)
  rw [agentRepairSession, h.messages, lastToolCallRound_append h.calls hAfter]

/-- Every open call is answered once, in call order, and a second repair finds nothing. -/
theorem agentRepairSession_answers (lib : JsonLib) (os os' : Nat → Nat → WriteResult)
    (sess : SessionState) (before : List CJson) (round : CJson) (after : List CJson)
    (hRound : LastRound sess before round after)
    (hOk : (agentRepairSession lib sess os).2.isOk = true) :
    (agentRepairSession lib sess os).1.messages =
      sess.messages ++ (unanswered (toolCalls round) after).map interrupted ∧
    (unanswered (toolCalls round) after).Nodup ∧
    agentRepairSession lib (agentRepairSession lib sess os).1 os' =
      ((agentRepairSession lib sess os).1, .ok ()) := by
  have hMessages : (agentRepairSession lib sess os).1.messages =
      sess.messages ++ (unanswered (toolCalls round) after).map interrupted := by
    rw [hRound.repair lib os] at hOk ⊢
    exact answerCalls_messages hRound.messages hRound.ids hOk
  refine ⟨hMessages, unanswered_nodup _ _, ?_⟩
  have hNext : LastRound (agentRepairSession lib sess os).1 before round
      (after ++ (unanswered (toolCalls round) after).map interrupted) := by
    refine ⟨?_, hRound.calls, ?_, hRound.ids⟩
    · rw [hMessages, hRound.messages, List.append_assoc, List.cons_append]
    · intro msg hMem
      rcases List.mem_append.mp hMem with hOld | hNew
      · exact hRound.tools msg hOld
      · obtain ⟨id, -, rfl⟩ := List.mem_map.mp hNew
        exact toolMessage_role id _
  rw [hNext.repair lib os']
  refine answerCalls_quiet ?_
  intro call hMem
  obtain ⟨id, hId⟩ := Option.isSome_iff_exists.mp (hRound.ids call hMem)
  rw [callAnswered, hNext.messages, ← List.drop_drop, List.drop_left, List.drop_one,
    List.tail_cons, hId]
  exact answered_unanswered (List.mem_filterMap.mpr ⟨call, hMem, hId⟩)

def halfAnswered : SessionState :=
  { sampleSession with
    messages := [userMessage (ascii "hi"), twoCalls.json, toolMessage (ascii "now") (ascii "ok")] }

theorem halfAnswered_lastRound : LastRound halfAnswered [userMessage (ascii "hi")] twoCalls.json
    [toolMessage (ascii "now") (ascii "ok")] where
  messages := rfl
  calls := by decide
  tools := by decide
  ids := twoCalls.ids

theorem agentRepairSession_answers_sample :
    let repaired := agentRepairSession sampleLib halfAnswered fun _ => sampleWrites
    repaired.1.messages = halfAnswered.messages ++ [interrupted (ascii "later")] ∧
      agentRepairSession sampleLib repaired.1 (fun _ => sampleWrites) = (repaired.1, .ok ()) := by
  have hOk : (agentRepairSession sampleLib halfAnswered fun _ => sampleWrites).2.isOk = true := rfl
  obtain ⟨hMessages, -, hAgain⟩ := agentRepairSession_answers sampleLib (fun _ => sampleWrites)
    (fun _ => sampleWrites) halfAnswered _ _ _ halfAnswered_lastRound hOk
  exact ⟨hMessages, hAgain⟩

end Mua.Agent
