import Mua.Agent
import Mua.Lib.Run
import Mua.Lib.Serial

/-! # What a turn keeps

`Phase` says which states a turn passes through between two events of the loop.
What is kept about the session is left open: an `Account` says what an append
does to it, and every invariant of the conversation is one account.
-/

namespace Mua.Agent

open Session Openrouter Serial

variable (lib : JsonLib) (w : World)

def AgentOutput.isAppend : AgentOutput → Bool
  | .append .. => true
  | _ => false

def AgentOutput.isRequest : AgentOutput → Bool
  | .request _ => true
  | _ => false

def AgentOutput.isFinish : AgentOutput → Bool
  | .onFinish .. => true
  | _ => false

def AgentOutput.toolMark : AgentOutput → Option (Mark CallKey)
  | .execute key _ _ => some (.start key)
  | .toolDone key _ => some (.stop key)
  | _ => none

/-- Entries that neither the session nor the counts depend on. -/
def AgentOutput.quiet (o : AgentOutput) : Prop :=
  o.isAppend = false ∧ o.isRequest = false ∧ o.isFinish = false ∧ o.toolMark = none

def requests (out : History) : Nat := out.countP AgentOutput.isRequest

def finishes (out : History) : Nat := out.countP AgentOutput.isFinish

def toolMarks (out : History) : List (Mark CallKey) := out.filterMap AgentOutput.toolMark

def Before (a b : CallKey) : Prop := a.1 < b.1 ∨ a.1 = b.1 ∧ a.2 < b.2

@[simp] theorem requests_append (out new : History) :
    requests (out ++ new) = requests out + requests new := List.countP_append

@[simp] theorem finishes_append (out new : History) :
    finishes (out ++ new) = finishes out + finishes new := List.countP_append

@[simp] theorem toolMarks_append (out new : History) :
    toolMarks (out ++ new) = toolMarks out ++ toolMarks new := List.filterMap_append

@[simp] theorem requests_single (o : AgentOutput) :
    requests [o] = if o.isRequest then 1 else 0 := List.countP_singleton

@[simp] theorem finishes_single (o : AgentOutput) :
    finishes [o] = if o.isFinish then 1 else 0 := List.countP_singleton

@[simp] theorem toolMarks_single (o : AgentOutput) : toolMarks [o] = o.toolMark.toList := by
  rw [toolMarks, List.filterMap_cons]
  cases o.toolMark <;> rfl

theorem finishes_pos {out : History} {outcome : TurnOutcome} {err : Option Error}
    (h : .onFinish outcome err ∈ out) : 0 < finishes out :=
  List.countP_pos_iff.mpr ⟨_, h, rfl⟩

/-- With no stream, a callback adds quiet entries and may set `canceling`; nothing else. -/
structure Calm (turn turn' : AgentTurn) : Prop where
  frame : turn' = { turn with out := turn'.out, canceling := turn'.canceling }
  quiet : ∃ new, turn'.out = turn.out ++ new ∧ ∀ o ∈ new, o.quiet

theorem Calm.refl (turn : AgentTurn) : Calm turn turn :=
  ⟨rfl, [], (List.append_nil _).symm, nofun⟩

theorem Calm.trans {a b c : AgentTurn} (h : Calm a b) (h' : Calm b c) : Calm a c := by
  obtain ⟨new, hNew, hQuiet⟩ := h.quiet
  obtain ⟨new', hNew', hQuiet'⟩ := h'.quiet
  refine ⟨by rw [h'.frame, h.frame], new ++ new', ?_, ?_⟩
  · rw [hNew', hNew, List.append_assoc]
  · intro o ho
    rcases List.mem_append.mp ho with ho | ho
    · exact hQuiet o ho
    · exact hQuiet' o ho

theorem Calm.emit (turn : AgentTurn) {o : AgentOutput} (h : o.quiet) :
    Calm turn (turn.emit o) := by
  refine ⟨rfl, [o], rfl, ?_⟩
  intro o' ho'
  exact List.mem_singleton.mp ho' ▸ h

theorem quiet_counts {new : History} (h : ∀ o ∈ new, o.quiet) :
    requests new = 0 ∧ finishes new = 0 ∧ toolMarks new = [] := by
  refine ⟨?_, ?_, ?_⟩
  · rw [requests, List.countP_eq_zero]
    intro o ho
    simp [(h o ho).2.1]
  · rw [finishes, List.countP_eq_zero]
    intro o ho
    simp [(h o ho).2.2.1]
  · rw [toolMarks, List.filterMap_eq_nil_iff]
    intro o ho
    exact (h o ho).2.2.2

theorem Calm.counts {turn turn' : AgentTurn} (h : Calm turn turn') :
    requests turn'.out = requests turn.out ∧ finishes turn'.out = finishes turn.out ∧
      toolMarks turn'.out = toolMarks turn.out := by
  obtain ⟨new, hNew, hQuiet⟩ := h.quiet
  obtain ⟨hRequests, hFinishes, hMarks⟩ := quiet_counts hQuiet
  simp [hNew, hRequests, hFinishes, hMarks]

theorem agentTurnCancel_calm {turn : AgentTurn} (hStream : turn.stream = none) :
    Calm turn (agentTurnCancel w turn) := by
  have hCanceling : Calm turn { turn with canceling := true } :=
    ⟨rfl, [], (List.append_nil _).symm, nofun⟩
  unfold agentTurnCancel
  split
  · exact Calm.refl turn
  split
  · rename_i id hSome
    rw [hStream] at hSome
    cases hSome
  · dsimp only
    split
    · exact hCanceling.trans (Calm.emit _ ⟨rfl, rfl, rfl, rfl⟩)
    · exact hCanceling

theorem fire_calm {turn : AgentTurn} (hStream : turn.stream = none) (o : AgentOutput) :
    Calm (turn.emit o) (fire w turn o) := by
  unfold fire
  dsimp only
  split
  · exact agentTurnCancel_calm w hStream
  · exact Calm.refl _

theorem fire_quiet {turn : AgentTurn} (hStream : turn.stream = none) {o : AgentOutput}
    (h : o.quiet) : Calm turn (fire w turn o) :=
  (Calm.emit turn h).trans (fire_calm w hStream o)

/-- An invariant of the session along a history: what it owes, in which calls still to be
answered, and what is left to say once an answer could not be appended. -/
structure Account where
  Owes : History → SessionState → List CJson → Prop
  Broken : History → SessionState → Prop
  owes_quiet : ∀ {out sess pending o}, o.isAppend = false →
    Owes out sess pending → Owes (out ++ [o]) sess pending
  broken_quiet : ∀ {out sess o}, o.isAppend = false →
    Broken out sess → Broken (out ++ [o]) sess
  message : ∀ {out sess} (m : AssistantMessage) (os : Nat → WriteResult), Owes out sess [] →
    Owes (out ++ [.append sess m.json (sessionAppend lib sess m.json os).2.isOk])
      (sessionAppend lib sess m.json os).1
      (if (sessionAppend lib sess m.json os).2.isOk then toolCalls m.json else [])
  answered : ∀ {out sess call pending id} (content : Bytes) (os : Nat → WriteResult),
    callId call = some id → Owes out sess (call :: pending) →
    (sessionAppend lib sess (toolMessage id content) os).2.isOk = true →
    Owes (out ++ [.append sess (toolMessage id content) true])
      (sessionAppend lib sess (toolMessage id content) os).1 pending
  unanswered : ∀ {out sess call pending id} (content : Bytes) (os : Nat → WriteResult),
    callId call = some id → Owes out sess (call :: pending) →
    (sessionAppend lib sess (toolMessage id content) os).2.isOk = false →
    Broken (out ++ [.append sess (toolMessage id content) false])
      (sessionAppend lib sess (toolMessage id content) os).1

end Mua.Agent
