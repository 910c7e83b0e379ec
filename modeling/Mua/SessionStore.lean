import Mua.SessionReload

/-! # The store with its allocations

session.c keeps its messages in an array of nodes it owns and counts them beside
it. The store here has both, and a log of what was freed; forgetting the
addresses gives the session. Over any sequence of appends the count, the array,
the file and the log stay in step.
-/

namespace Mua.Session

structure OwnedNode where
  addr : Nat
  node : CJson

structure Store where
  id : FixedStr (kSessionIdLen + 1)
  path : Bytes
  file : Bytes
  messages : List OwnedNode
  count : Nat
  poisoned : Bool
  needsHeal : Bool
  freed : List Nat

namespace Store

def sess (s : Store) : SessionState :=
  ⟨s.id, s.path, s.file, s.messages.map OwnedNode.node, s.poisoned, s.needsHeal⟩

/-- The nodes the store answers for: those it keeps, and those it freed. -/
def addrs (s : Store) : List Nat := s.messages.map OwnedNode.addr ++ s.freed

/-- `cJSON_AddItemToArray` and the count beside it. -/
def addItem (s : Store) (msg : OwnedNode) : Store :=
  { s with messages := s.messages ++ [msg], count := s.count + 1 }

/-- `json_free`, which a NULL does not reach. -/
def free (s : Store) (msg : OwnedNode) : Store := { s with freed := s.freed ++ [msg.addr] }

/-- `write_line` writes the file and sets the two flags. -/
def setDisk (s : Store) (sess : SessionState) : Store :=
  { s with file := sess.file, poisoned := sess.poisoned, needsHeal := sess.needsHeal }

end Store

def stateAlloc (sess : SessionState) : Store :=
  ⟨sess.id, sess.path, sess.file, [], 0, sess.poisoned, sess.needsHeal, []⟩

/-- A session as `session_new` or `session_load` returns it: each message was parsed to a node of
its own and added to the array. -/
def openStore (sess : SessionState) (alloc : Nat → Nat) : Store :=
  sess.messages.zipIdx.foldl (fun s m => s.addItem ⟨alloc m.2, m.1⟩) (stateAlloc sess)

/-- `session_append`, with a NULL message for `none`. -/
def storeAppend (lib : JsonLib) (s : Store) (msg : Option OwnedNode) (os : Nat → WriteResult) :
    Store × Except Error Unit :=
  match msg with
  | none =>
    (s, .error ⟨.validation, ascii "session: a message is an object with a string \"role\""⟩)
  | some msg =>
    if ¬ hasRole msg.node then
      (s.free msg,
        .error ⟨.validation, ascii "session: a message is an object with a string \"role\""⟩)
    else if s.poisoned then
      (s.free msg, .error ⟨.exception, ascii "session: " ++ s.path ++
        ascii ": poisoned by an earlier failed write"⟩)
    else if s.count ≥ sessionMaxMessages then
      (s.free msg, .error ⟨.validation, ascii "session: " ++ s.path ++ ascii ": more than " ++
        decimal sessionMaxMessages ++ ascii " messages"⟩)
    else
      let line := lib.print msg.node
      if line.length > sessionMaxLine then
        (s.free msg, .error ⟨.validation, ascii "session: message of " ++ decimal line.length ++
          ascii " bytes exceeds " ++ decimal sessionMaxLine ++ ascii " bytes"⟩)
      else
        match writeLine s.sess line os with
        | (sess, .error err) => ((s.setDisk sess).free msg, .error err)
        | (sess, .ok ()) => ((s.setDisk sess).addItem msg, .ok ())

theorem openStore_eq (sess : SessionState) (alloc : Nat → Nat) :
    (openStore sess alloc).sess = sess ∧
      (openStore sess alloc).count = (openStore sess alloc).messages.length := by
  have hFold : ∀ (ms : List CJson) (k : Nat) (s : Store),
      let t := (ms.zipIdx k).foldl (fun s m => s.addItem ⟨alloc m.2, m.1⟩) s
      t.sess = { s.sess with messages := s.sess.messages ++ ms } ∧
        (s.count = s.messages.length → t.count = t.messages.length) := by
    intro ms
    induction ms with
    | nil =>
      intro k s
      refine ⟨?_, id⟩
      rw [List.append_nil]
      rfl
    | cons m ms ih =>
      intro k s
      obtain ⟨hSess, hCount⟩ := ih (k + 1) (s.addItem ⟨alloc k, m⟩)
      constructor
      · refine hSess.trans ?_
        simp [Store.sess, Store.addItem]
      · intro hEq
        apply hCount
        simp [Store.addItem, hEq]
  obtain ⟨hSess, hCount⟩ := hFold sess.messages 0 (stateAlloc sess)
  exact ⟨hSess, hCount rfl⟩

theorem addItem_count {s : Store} (h : s.count = s.messages.length) (msg : OwnedNode) :
    (s.addItem msg).count = (s.addItem msg).messages.length := by
  simp [Store.addItem, h]

theorem addrs_free (s : Store) (msg : OwnedNode) : (s.free msg).addrs = s.addrs ++ [msg.addr] := by
  simp [Store.addrs, Store.free]

theorem addrs_addItem (s : Store) (msg : OwnedNode) :
    (s.addItem msg).addrs.Perm (s.addrs ++ [msg.addr]) := by
  have hSwap : ([msg.addr] ++ s.freed).Perm (s.freed ++ [msg.addr]) := List.perm_append_comm
  simpa [Store.addrs, Store.addItem] using hSwap.append_left (s.messages.map OwnedNode.addr)

structure AppendCall where
  msg : Option OwnedNode
  os : Nat → WriteResult

/-- One call of a sequence: the store before it and after it, and its reply. -/
structure AppendStep where
  before : Store
  call : AppendCall
  after : Store
  reply : Except Error Unit

/-- The call is refused before anything is written, for its shape or one of the caps. -/
def AppendCall.Refused (lib : JsonLib) (s : Store) (call : AppendCall) : Prop :=
  ∀ msg, call.msg = some msg → hasRole msg.node = false ∨ s.count ≥ sessionMaxMessages ∨
    (lib.print msg.node).length > sessionMaxLine

/-- write(2), retried after interrupts, takes the whole record. -/
def AppendCall.TakesWhole (lib : JsonLib) (s : Store) (call : AppendCall) : Prop :=
  ∃ msg n, call.msg = some msg ∧ writeTries call.os kSessionEintrMax = .wrote n ∧
    (recordBytes s.sess (lib.print msg.node)).length ≤ n

/-- The call fails, its message is freed and nothing else changes. -/
def AppendStep.Freed (t : AppendStep) : Prop :=
  t.after = t.call.msg.elim t.before t.before.free ∧ ∃ err, t.reply = .error err

/-- The record of the call's message is in the file, whole, after what was there. -/
def AppendStep.wroteWhole (lib : JsonLib) (t : AppendStep) : Bool :=
  t.call.msg.any fun msg =>
    t.after.file = t.before.file ++ recordBytes t.before.sess (lib.print msg.node)

inductive StoreAppended (lib : JsonLib) (s : Store) (call : AppendCall) :
    Store × Except Error Unit → Prop
  | refused (err : Error) (hRefused : s.poisoned = true ∨ call.Refused lib s) :
      StoreAppended lib s call (call.msg.elim s s.free, .error err)
  | torn (msg : OwnedNode) (torn : Bytes) (err : Error) (hMsg : call.msg = some msg)
      (hRole : hasRole msg.node = true) (hPoisoned : s.poisoned = false)
      (hRoom : s.count < sessionMaxMessages)
      (hFits : (lib.print msg.node).length ≤ sessionMaxLine)
      (hPrefix : torn <+: recordBytes s.sess (lib.print msg.node))
      (hProper : torn ≠ recordBytes s.sess (lib.print msg.node))
      (hShort : ¬call.TakesWhole lib s) :
      StoreAppended lib s call
        ({ s with file := s.file ++ torn, poisoned := true }.free msg, .error err)
  | written (msg : OwnedNode) (hMsg : call.msg = some msg) (hRole : hasRole msg.node = true)
      (hPoisoned : s.poisoned = false) (hRoom : s.count < sessionMaxMessages)
      (hFits : (lib.print msg.node).length ≤ sessionMaxLine) (hWhole : call.TakesWhole lib s) :
      StoreAppended lib s call
        ({ s with
            file := s.file ++ recordBytes s.sess (lib.print msg.node)
            needsHeal := false }.addItem msg, .ok ())

theorem writeLine_answers (sess : SessionState) (line : Bytes) (os : Nat → WriteResult) :
    (writeLine sess line os).2 = .ok () ↔
      ∃ n, writeTries os kSessionEintrMax = .wrote n ∧ (recordBytes sess line).length ≤ n := by
  unfold writeLine
  cases writeTries os kSessionEintrMax with
  | wrote n =>
    by_cases hAll : (recordBytes sess line).length ≤ n
    · simp [hAll]
    · have hShort : min n (recordBytes sess line).length ≠ (recordBytes sess line).length := by
        omega
      simp only [if_pos hShort]
      constructor
      · nofun
      · rintro ⟨m, hm, hLe⟩
        cases hm
        exact absurd hLe hAll
  | eintr => exact ⟨nofun, nofun⟩
  | failed reason => exact ⟨nofun, nofun⟩

theorem storeAppend_cases (lib : JsonLib) (s : Store) (call : AppendCall) :
    StoreAppended lib s call (storeAppend lib s call.msg call.os) := by
  obtain ⟨msg, os⟩ := call
  cases msg with
  | none => exact .refused _ (.inr nofun)
  | some msg =>
    have hRefused (h : hasRole msg.node = false ∨ s.count ≥ sessionMaxMessages ∨
        (lib.print msg.node).length > sessionMaxLine) :
        AppendCall.Refused lib s ⟨some msg, os⟩ := by
      rintro msg' hMsg
      cases hMsg
      exact h
    unfold storeAppend
    dsimp only
    split
    · rename_i hRole
      exact .refused _ (.inr (hRefused (.inl (Bool.eq_false_iff.mpr hRole))))
    split
    · rename_i hPoisoned
      exact .refused _ (.inl hPoisoned)
    split
    · rename_i hFull
      exact .refused _ (.inr (hRefused (.inr (.inl hFull))))
    split
    · rename_i hLong
      exact .refused _ (.inr (hRefused (.inr (.inr hLong))))
    rename_i hRole hPoisoned hRoom hFits
    have hAnswers := writeLine_answers s.sess (lib.print msg.node) os
    obtain hWrote | ⟨torn, err, hPrefix, hProper, hTorn⟩ :=
      writeLine_cases s.sess (lib.print msg.node) os
    · rw [hWrote] at hAnswers ⊢
      obtain ⟨n, hn, hLe⟩ := hAnswers.mp rfl
      exact .written msg rfl (not_not.mp hRole) (Bool.eq_false_iff.mpr hPoisoned)
        (Nat.lt_of_not_le hRoom) (Nat.le_of_not_lt hFits) ⟨msg, n, rfl, hn, hLe⟩
    · rw [hTorn] at hAnswers ⊢
      refine .torn msg torn err rfl (not_not.mp hRole) (Bool.eq_false_iff.mpr hPoisoned)
        (Nat.lt_of_not_le hRoom) (Nat.le_of_not_lt hFits) hPrefix hProper ?_
      rintro ⟨msg', n, hMsg, hn, hLe⟩
      cases hMsg
      cases hAnswers.mpr ⟨n, hn, hLe⟩

structure AppendStep.Sound (lib : JsonLib) (t : AppendStep) : Prop where
  refused : t.call.Refused lib t.before → t.Freed
  poisoned : t.before.poisoned = true → t.Freed
  failed : t.before.poisoned = false → ¬t.call.Refused lib t.before →
    ¬t.call.TakesWhole lib t.before →
      t.after.messages = t.before.messages ∧ t.after.count = t.before.count ∧
        t.after.poisoned = true ∧ ∃ err, t.reply = .error err
  whole : t.before.poisoned = false → ¬t.call.Refused lib t.before →
    t.call.TakesWhole lib t.before →
      t.wroteWhole lib = true ∧ t.after.poisoned = false ∧ t.reply = .ok ()

def storeStep (lib : JsonLib) (s : Store) (call : AppendCall) : AppendStep where
  before := s
  call := call
  after := (storeAppend lib s call.msg call.os).1
  reply := (storeAppend lib s call.msg call.os).2

def appendSteps (lib : JsonLib) : Store → List AppendCall → List AppendStep
  | _, [] => []
  | s, call :: calls => storeStep lib s call :: appendSteps lib (storeStep lib s call).after calls

def appendRun (lib : JsonLib) (s : Store) (calls : List AppendCall) : Store :=
  calls.foldl (fun s call => (storeStep lib s call).after) s

variable {lib : JsonLib}

theorem not_refused {s : Store} {call : AppendCall} {msg : OwnedNode} (hMsg : call.msg = some msg)
    (hRole : hasRole msg.node = true) (hRoom : s.count < sessionMaxMessages)
    (hFits : (lib.print msg.node).length ≤ sessionMaxLine) : ¬call.Refused lib s := by
  intro hRefused
  obtain hShape | hFull | hLong := hRefused msg hMsg
  · rw [hRole] at hShape
    cases hShape
  · exact absurd hFull (Nat.not_le.mpr hRoom)
  · exact absurd hLong (Nat.not_lt.mpr hFits)

theorem storeStep_sound (lib : JsonLib) (s : Store) (call : AppendCall) :
    (storeStep lib s call).Sound lib := by
  have hCase := storeAppend_cases lib s call
  unfold storeStep
  generalize storeAppend lib s call.msg call.os = r at hCase
  cases hCase with
  | refused err hRefused =>
    have hFreed : AppendStep.Freed ⟨s, call, call.msg.elim s s.free, .error err⟩ := ⟨rfl, err, rfl⟩
    constructor
    · exact fun _ => hFreed
    · exact fun _ => hFreed
    · intro hPoisoned hNot
      obtain h | h := hRefused
      · exact absurd (h.symm.trans hPoisoned) (by decide)
      · exact absurd h hNot
    · intro hPoisoned hNot
      obtain h | h := hRefused
      · exact absurd (h.symm.trans hPoisoned) (by decide)
      · exact absurd h hNot
  | torn msg torn err hMsg hRole hPoisoned hRoom hFits hPrefix hProper hShort =>
    constructor
    · exact fun h => absurd h (not_refused hMsg hRole hRoom hFits)
    · exact fun h => absurd (hPoisoned.symm.trans h) (by decide)
    · exact fun _ _ _ => ⟨rfl, rfl, rfl, err, rfl⟩
    · exact fun _ _ h => absurd h hShort
  | written msg hMsg hRole hPoisoned hRoom hFits hWhole =>
    constructor
    · exact fun h => absurd h (not_refused hMsg hRole hRoom hFits)
    · exact fun h => absurd (hPoisoned.symm.trans h) (by decide)
    · exact fun _ _ h => absurd hWhole h
    · intro _ _ _
      refine ⟨?_, hPoisoned, rfl⟩
      unfold AppendStep.wroteWhole
      rw [hMsg]
      exact decide_eq_true rfl

theorem storeStep_messages (lib : JsonLib) (s : Store) (call : AppendCall) :
    (storeStep lib s call).after.messages =
      s.messages ++ (([storeStep lib s call].filter (AppendStep.wroteWhole lib)).filterMap
        fun t => t.call.msg) := by
  have hCase := storeAppend_cases lib s call
  unfold storeStep
  generalize storeAppend lib s call.msg call.os = r at hCase
  cases hCase with
  | refused err hRefused =>
    cases hMsg : call.msg with
    | none => simp [AppendStep.wroteWhole, hMsg]
    | some msg =>
      have hSome := recordBytes_ne_nil s.sess (lib.print msg.node)
      simp [AppendStep.wroteWhole, hMsg, Store.free, hSome]
  | torn msg torn err hMsg hRole hPoisoned hRoom hFits hPrefix hProper hShort =>
    simp [AppendStep.wroteWhole, hMsg, Store.free, hProper]
  | written msg hMsg hRole hPoisoned hRoom hFits hWhole =>
    simp [AppendStep.wroteWhole, hMsg, Store.addItem]

theorem storeStep_count (lib : JsonLib) {s : Store} (hCount : s.count = s.messages.length)
    (call : AppendCall) :
    (storeStep lib s call).after.count = (storeStep lib s call).after.messages.length := by
  have hCase := storeAppend_cases lib s call
  unfold storeStep
  generalize storeAppend lib s call.msg call.os = r at hCase
  cases hCase with
  | refused err hRefused => cases call.msg <;> exact hCount
  | torn msg torn err hMsg hRole hPoisoned hRoom hFits hPrefix hProper hShort => exact hCount
  | written msg hMsg hRole hPoisoned hRoom hFits hWhole => exact addItem_count hCount msg

theorem storeStep_addrs (lib : JsonLib) (s : Store) (call : AppendCall) :
    (storeStep lib s call).after.addrs.Perm
      (s.addrs ++ (call.msg.map OwnedNode.addr).toList) := by
  have hCase := storeAppend_cases lib s call
  unfold storeStep
  generalize storeAppend lib s call.msg call.os = r at hCase
  cases hCase with
  | refused err hRefused =>
    cases call.msg with
    | none =>
      rw [Option.map_none, Option.toList_none, List.append_nil]
      exact .rfl
    | some msg => exact .of_eq (addrs_free s msg)
  | torn msg torn err hMsg hRole hPoisoned hRoom hFits hPrefix hProper hShort =>
    rw [hMsg]
    exact .of_eq (addrs_free _ msg)
  | written msg hMsg hRole hPoisoned hRoom hFits hWhole =>
    rw [hMsg]
    exact addrs_addItem _ msg

theorem storeStep_poisoned (lib : JsonLib) {s : Store} (h : s.poisoned = true)
    (call : AppendCall) : (storeStep lib s call).after.poisoned = true := by
  obtain ⟨hAfter, -⟩ := (storeStep_sound lib s call).poisoned h
  rw [hAfter]
  show (call.msg.elim s s.free).poisoned = true
  cases call.msg <;> exact h

theorem appendSteps_poisoned {s : Store} (h : s.poisoned = true) (calls : List AppendCall) :
    ∀ t ∈ appendSteps lib s calls, t.Freed := by
  induction calls generalizing s with
  | nil => nofun
  | cons call calls ih =>
    intro t ht
    rcases List.mem_cons.mp ht with rfl | ht
    · exact (storeStep_sound lib s call).poisoned h
    · exact ih (storeStep_poisoned lib h call) t ht

theorem appendRun_messages (lib : JsonLib) (s : Store) (calls : List AppendCall) :
    (appendRun lib s calls).messages = s.messages ++
      (((appendSteps lib s calls).filter (AppendStep.wroteWhole lib)).filterMap
        fun t => t.call.msg) := by
  induction calls generalizing s with
  | nil => exact (List.append_nil _).symm
  | cons call calls ih =>
    have hStep := storeStep_messages lib s call
    refine (ih (storeStep lib s call).after).trans ?_
    rw [hStep, List.append_assoc, ← List.filterMap_append, ← List.filter_append,
      List.singleton_append]
    rfl

theorem appendRun_count (lib : JsonLib) {s : Store} (hCount : s.count = s.messages.length)
    (calls : List AppendCall) :
    (appendRun lib s calls).count = (appendRun lib s calls).messages.length := by
  induction calls generalizing s with
  | nil => exact hCount
  | cons call calls ih => exact ih (storeStep_count lib hCount call)

theorem appendRun_addrs (lib : JsonLib) (s : Store) (calls : List AppendCall) :
    (appendRun lib s calls).addrs.Perm
      (s.addrs ++ calls.filterMap fun call => call.msg.map OwnedNode.addr) := by
  induction calls generalizing s with
  | nil =>
    rw [List.filterMap_nil, List.append_nil]
    exact .rfl
  | cons call calls ih =>
    have hStep := (storeStep_addrs lib s call).append_right
      (calls.filterMap fun call => call.msg.map OwnedNode.addr)
    refine ((ih (storeStep lib s call).after).trans hStep).trans (.of_eq ?_)
    rw [List.append_assoc, List.filterMap_cons]
    cases call.msg <;> rfl

theorem appendSteps_sound (lib : JsonLib) (s : Store) (calls : List AppendCall) :
    ∀ t ∈ appendSteps lib s calls, t.Sound lib := by
  induction calls generalizing s with
  | nil => nofun
  | cons call calls ih =>
    intro t ht
    rcases List.mem_cons.mp ht with rfl | ht
    · exact storeStep_sound lib s call
    · exact ih _ t ht

theorem appendSteps_after (lib : JsonLib) (s : Store) (calls : List AppendCall) :
    (appendSteps lib s calls).Pairwise fun t u => t.after.poisoned = true → u.Freed := by
  induction calls generalizing s with
  | nil => exact .nil
  | cons call calls ih =>
    apply List.Pairwise.cons
    · intro u hu hPoisoned
      exact appendSteps_poisoned hPoisoned calls u hu
    · exact ih _

/-- Over every sequence of appends to an opened session, whatever write(2) answers: the array is
the loaded messages and those whose record was written whole, the count is its length, each message
passed in is in the array or freed, every append does what its case asks for, and after one that
poisoned, every append fails without writing. -/
theorem appendRun_accounts (lib : JsonLib) (sess : SessionState) (alloc : Nat → Nat)
    (calls : List AppendCall) :
    let start := openStore sess alloc
    let steps := appendSteps lib start calls
    let s := appendRun lib start calls
    s.sess.messages = sess.messages ++
        ((steps.filter (AppendStep.wroteWhole lib)).filterMap fun t => t.call.msg).map
          OwnedNode.node ∧
      s.count = s.messages.length ∧
      s.addrs.Perm (start.addrs ++ calls.filterMap fun call => call.msg.map OwnedNode.addr) ∧
      (∀ t ∈ steps, t.Sound lib) ∧
      steps.Pairwise fun t u => t.after.poisoned = true → u.Freed := by
  intro start steps s
  obtain ⟨hSess, hStart⟩ := openStore_eq sess alloc
  refine ⟨?_, appendRun_count lib hStart calls, appendRun_addrs lib start calls,
    appendSteps_sound lib start calls, appendSteps_after lib start calls⟩
  have hLoaded : start.messages.map OwnedNode.node = sess.messages :=
    congrArg SessionState.messages hSess
  show s.messages.map OwnedNode.node = _
  rw [appendRun_messages lib start calls, List.map_append, hLoaded]

end Mua.Session
