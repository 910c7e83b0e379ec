import Mua.Bash
import Mua.Lib.Run

/-! # One result, one free

Over every run of an exec's events. The closes follow the joins: after a spawn a
handle is closing exactly when what it waits for has happened, and after an
inline failure every registered handle is closing from the start. The counts
follow the closes: the answer that makes them meet is the last one.
-/

namespace Mua.Bash

open Agent Handles Run

variable {w w' w'' : Loop} {b : Bool}

/-- What the exec owes its caller: the counts of its closes, its result, its memory. -/
def Loop.account (w : Loop) : Nat × Nat × Bool × List ToolResult × Nat :=
  (w.exec.closesDone, w.exec.closesExpected, w.exec.doneFired, w.results, w.frees)

/-- The account stands, and handles are at most asked to close. -/
structure Keeps (w w' : Loop) : Prop where
  account : w'.account = w.account
  registered : ∀ h, (w'.handles h).registered = (w.handles h).registered
  closed : ∀ h, (w'.handles h).closed = (w.handles h).closed
  closes : ∀ h, (w.handles h).closes ≤ (w'.handles h).closes

theorem Keeps.of_eq (hAccount : w'.account = w.account) (hHandles : w'.handles = w.handles) :
    Keeps w w' := by
  constructor
  · exact hAccount
  · intro h
    rw [hHandles]
  · intro h
    rw [hHandles]
  · intro h
    rw [hHandles]

theorem Keeps.refl (w : Loop) : Keeps w w := .of_eq rfl rfl

theorem Keeps.trans (h : Keeps w w') (h' : Keeps w' w'') : Keeps w w'' where
  account := h'.account.trans h.account
  registered n := (h'.registered n).trans (h.registered n)
  closed n := (h'.closed n).trans (h.closed n)
  closes n := (h.closes n).trans (h'.closes n)

theorem Keeps.uvClose (h : Keeps w w') (n : HandleName) : Keeps w (w'.uvClose n) := by
  apply h.trans
  constructor
  · rfl
  · intro m
    exact Table.close_registered
  · intro m
    exact Table.close_closed
  · intro m
    simp [Loop.uvClose]

theorem bashMaybeFinish_keeps : Keeps w (bashMaybeFinish b w) := by
  unfold bashMaybeFinish
  split
  · exact .refl w
  split
  · split
    · apply Keeps.uvClose
      exact .of_eq rfl rfl
    · exact .refl w
  split
  · cases b with
    | true => exact .of_eq rfl rfl
    | false =>
      apply Keeps.uvClose
      constructor
      · rfl
      · intro h
        simp [Loop.uvClose, Loop.uvTimerStop]
      · intro h
        simp [Loop.uvClose, Loop.uvTimerStop]
      · intro h
        simp [Loop.uvClose, Loop.uvTimerStop]
  · exact .refl w

theorem bashForcePipeClose_keeps : Keeps w (bashForcePipeClose b w) := by
  unfold bashForcePipeClose
  split
  · exact .refl w
  · apply Keeps.trans _ bashMaybeFinish_keeps
    apply Keeps.uvClose
    exact .of_eq rfl rfl

theorem bashGraceCb_keeps : Keeps w (bashGraceCb b w) := by
  apply Keeps.trans _ bashForcePipeClose_keeps
  exact .of_eq rfl rfl

theorem bashAppendOutput_flags (exec : ToolExec) (bytes : Bytes) :
    ∃ output dropped nuls, bashAppendOutput exec bytes = { exec with output, dropped, nuls } := by
  fun_induction bashAppendOutput exec bytes with
  | case1 exec => exact ⟨_, _, _, rfl⟩
  | case2 exec bytes hLoop seg hNul => exact ⟨_, _, _, rfl⟩
  | case3 exec bytes hLoop seg nul rest hNul exec' ih =>
    obtain ⟨output, dropped, nuls, h⟩ := ih
    exact ⟨output, dropped, nuls, h⟩

theorem bashReadCb_keeps {nread : Int} {scratch : Bytes} :
    Keeps w (bashReadCb b nread scratch w) := by
  unfold bashReadCb
  split
  · apply Keeps.of_eq
    · obtain ⟨output, dropped, nuls, h⟩ :=
        bashAppendOutput_flags w.exec (scratch.take nread.toNat)
      rw [h]
      rfl
    · rfl
  split
  · exact bashForcePipeClose_keeps
  · exact .refl w

theorem bashExitCb_keeps {exitStatus termSignal : Int} :
    Keeps w (bashExitCb b exitStatus termSignal w) := by
  apply Keeps.trans _ bashMaybeFinish_keeps
  apply Keeps.uvClose
  exact .of_eq rfl rfl

theorem bashTimeoutCb_keeps : Keeps w (bashTimeoutCb w) := by
  unfold bashTimeoutCb
  split
  · exact .refl w
  · exact .of_eq rfl rfl

theorem toolsCancel_keeps : Keeps w (toolsCancel b w) := by
  unfold toolsCancel
  dsimp only
  split
  · exact .of_eq rfl rfl
  · apply Keeps.trans _ bashForcePipeClose_keeps
    exact .of_eq rfl rfl

/-- Inside a callback: the process closes with its exit, the pipe with its end, and the timer
after both. -/
structure Joining (w : Loop) : Prop where
  registered : ∀ h, (w.handles h).registered = true
  proc : (w.handles .proc).closes = w.exec.exited.toNat
  out : (w.handles .out).closes = w.exec.pipeDone.toNat
  timer : (w.handles .timer).closes = w.exec.timerClosing.toNat
  both : w.exec.timerClosing = true → w.exec.exited = true ∧ w.exec.pipeDone = true

/-- Between the callbacks: the timer closes as soon as both have happened, and the pipe is
done with once its end is reported or the grace is over. -/
structure Joined (w : Loop) : Prop extends Joining w where
  complete : w.exec.exited = true → w.exec.pipeDone = true → w.exec.timerClosing = true
  ended : w.ended = true → w.exec.pipeDone = true
  graceOver : w.graceOver = true → w.exec.pipeDone = true

def Loop.view (w : Loop) : (HandleName → Bool × Nat) × Bool × Bool × Bool :=
  (fun n => ((w.handles n).registered, (w.handles n).closes), w.exec.exited, w.exec.pipeDone,
    w.exec.timerClosing)

theorem Joining.congr (h : Joining w) (hView : w'.view = w.view) : Joining w' := by
  simp only [Loop.view, Prod.mk.injEq] at hView
  obtain ⟨hHandles, hExited, hDone, hClosing⟩ := hView
  have hRegistered n : (w'.handles n).registered = _ := congrArg Prod.fst (congrFun hHandles n)
  have hCloses n : (w'.handles n).closes = _ := congrArg Prod.snd (congrFun hHandles n)
  constructor
  · intro n
    rw [hRegistered, h.registered]
  · rw [hCloses, hExited, h.proc]
  · rw [hCloses, hDone, h.out]
  · rw [hCloses, hClosing, h.timer]
  · rw [hExited, hDone, hClosing]
    exact h.both

theorem Joined.congr (h : Joined w) (hView : w'.view = w.view) (hEnded : w'.ended = w.ended)
    (hGrace : w'.graceOver = w.graceOver) : Joined w' := by
  refine ⟨h.toJoining.congr hView, ?_, ?_, ?_⟩
  all_goals
    simp only [Loop.view, Prod.mk.injEq] at hView
    obtain ⟨-, hExited, hDone, hClosing⟩ := hView
  · rw [hExited, hDone, hClosing]
    exact h.complete
  · rw [hEnded, hDone]
    exact h.ended
  · rw [hGrace, hDone]
    exact h.graceOver

theorem Joining.pipe (h : Joining w) (hDone : w.exec.pipeDone = false) :
    Joining ({ w with exec.pipeDone := true }.uvClose .out) := by
  have hOut := h.out
  rw [hDone] at hOut
  constructor
  · simp [Loop.uvClose, h.registered]
  · simp [Loop.uvClose, h.proc]
  · simp [Loop.uvClose, hOut]
  · simp [Loop.uvClose, h.timer]
  · intro hClosing
    exact ⟨(h.both hClosing).1, rfl⟩

theorem Joining.join (h : Joining w) (hExited : w.exec.exited = true)
    (hDone : w.exec.pipeDone = true) (hClosing : w.exec.timerClosing = false) :
    Joined ({ w with exec.timerClosing := true }.uvClose .timer) := by
  have hTimer := h.timer
  rw [hClosing] at hTimer
  refine ⟨?_, fun _ _ => rfl, fun _ => hDone, fun _ => hDone⟩
  constructor
  · simp [Loop.uvClose, h.registered]
  · simp [Loop.uvClose, h.proc]
  · simp [Loop.uvClose, h.out]
  · simp [Loop.uvClose, hTimer]
  · exact fun _ => ⟨hExited, hDone⟩

theorem bashMaybeFinish_joined (h : Joining w) (hEnded : w.ended = true → w.exec.pipeDone = true)
    (hGrace : w.graceOver = true → w.exec.pipeDone = true) : Joined (bashMaybeFinish b w) := by
  unfold bashMaybeFinish
  split
  · rename_i hExited
    rw [Bool.not_eq_true'] at hExited
    refine ⟨h, fun hTrue => ?_, hEnded, hGrace⟩
    rw [hExited] at hTrue
    cases hTrue
  rename_i hExited
  rw [Bool.not_eq_true, Bool.not_eq_false'] at hExited
  split
  · rename_i hDone
    split
    · rename_i hClosing
      rw [Bool.not_eq_true'] at hClosing
      have hStopped : Joining w.uvTimerStop := h.congr rfl
      exact hStopped.join hExited hDone hClosing
    · rename_i hClosing
      rw [Bool.not_eq_true, Bool.not_eq_false'] at hClosing
      exact ⟨h, fun _ _ => hClosing, hEnded, hGrace⟩
  rename_i hDone
  rw [Bool.not_eq_true] at hDone
  have hClosing : w.exec.timerClosing = false := by
    rw [← Bool.not_eq_true]
    intro hTrue
    rw [(h.both hTrue).2] at hDone
    cases hDone
  split
  · cases b with
    | true =>
      refine ⟨h.congr rfl, fun _ hTrue => ?_, hEnded, hGrace⟩
      exact absurd (hDone.symm.trans hTrue) Bool.false_ne_true
    | false =>
      have hForced : Joining { w with
          exec.graceArmed := true
          exec.graceForced := true
          armed := none
          graceOver := true } := h.congr rfl
      exact (hForced.pipe hDone).join hExited rfl hClosing
  · refine ⟨h, fun _ hTrue => ?_, hEnded, hGrace⟩
    exact absurd (hDone.symm.trans hTrue) Bool.false_ne_true

theorem bashForcePipeClose_joined (h : Joining w)
    (hOver : w.exec.exited = true → w.exec.pipeDone = true → w.exec.timerClosing = true) :
    Joined (bashForcePipeClose b w) := by
  unfold bashForcePipeClose
  split
  · rename_i hDone
    exact ⟨h, hOver, fun _ => hDone, fun _ => hDone⟩
  · rename_i hDone
    rw [Bool.not_eq_true] at hDone
    exact bashMaybeFinish_joined (h.pipe hDone) (fun _ => rfl) (fun _ => rfl)

theorem bashExitCb_joined {exitStatus termSignal : Int} (h : Joined w)
    (hCloses : (w.handles .proc).closes = 0) :
    Joined (bashExitCb b exitStatus termSignal w) := by
  unfold bashExitCb
  apply bashMaybeFinish_joined
  on_goal 2 => exact h.ended
  on_goal 2 => exact h.graceOver
  constructor
  · simp [Loop.uvClose, h.registered]
  · simp [Loop.uvClose, hCloses]
  · simp [Loop.uvClose, h.out]
  · simp [Loop.uvClose, h.timer]
  · intro hClosing
    exact ⟨rfl, (h.both hClosing).2⟩

theorem bashReadCb_joined {nread : Int} {scratch : Bytes} (h : Joined w) :
    Joined (bashReadCb b nread scratch { w with ended := w.ended || decide (nread < 0) }) := by
  have hFlags : Joining { w with ended := w.ended || decide (nread < 0) } :=
    h.toJoining.congr rfl
  unfold bashReadCb
  split
  · rename_i hData
    have hEnded : (w.ended || decide (nread < 0)) = w.ended := by
      rw [decide_eq_false (by omega), Bool.or_false]
    obtain ⟨output, dropped, nuls, hAppend⟩ :=
      bashAppendOutput_flags w.exec (scratch.take nread.toNat)
    rw [hAppend, hEnded]
    exact h.congr rfl rfl rfl
  split
  · exact bashForcePipeClose_joined hFlags h.complete
  · rename_i hNone
    have hEnded : (w.ended || decide (nread < 0)) = w.ended := by
      rw [decide_eq_false hNone, Bool.or_false]
    rw [hEnded]
    exact h

theorem bashTimeoutCb_joined (h : Joined w) : Joined (bashTimeoutCb w) := by
  unfold bashTimeoutCb
  split
  · exact h
  · exact h.congr rfl rfl rfl

theorem bashGraceCb_joined (h : Joined w) :
    Joined (bashGraceCb b { w with armed := none, graceOver := true }) := by
  unfold bashGraceCb
  apply bashForcePipeClose_joined
  · exact h.toJoining.congr rfl
  · exact h.complete

theorem toolsCancel_joined (h : Joined w) : Joined (toolsCancel b w) := by
  unfold toolsCancel
  dsimp only
  split
  · exact h.congr rfl rfl rfl
  · apply bashForcePipeClose_joined
    · exact h.toJoining.congr rfl
    · exact h.complete

/-- The events of a joined exec, but for the answers to its closes. -/
theorem step_joined (h : Joined w) {e : Event} (hStep : step w e = some w')
    (hEvent : ∀ n, e ≠ .closed n) : Joined w' ∧ Keeps w w' := by
  cases e with
  | exit b exitStatus termSignal =>
    simp only [step, Option.ite_none_right_eq_some, Bool.and_eq_true, Bool.not_eq_true',
      Handle.not_closing_iff, Option.some.injEq] at hStep
    obtain ⟨⟨-, hCloses⟩, rfl⟩ := hStep
    constructor
    · have hJoined : Joined { w with running := false } :=
        h.congr rfl rfl rfl
      exact bashExitCb_joined hJoined hCloses
    · apply Keeps.trans _ bashExitCb_keeps
      exact .of_eq rfl rfl
  | read b nread scratch =>
    simp only [step, Option.ite_none_right_eq_some, Option.some.injEq] at hStep
    obtain ⟨-, rfl⟩ := hStep
    constructor
    · exact bashReadCb_joined h
    · apply Keeps.trans _ bashReadCb_keeps
      exact .of_eq rfl rfl
  | timer b =>
    rw [step, Option.ite_none_left_eq_some] at hStep
    obtain ⟨-, hFired⟩ := hStep
    split at hFired
    · cases hFired
    · obtain rfl := Option.some.inj hFired
      constructor
      · exact bashTimeoutCb_joined (h.congr rfl rfl rfl)
      · apply Keeps.trans _ bashTimeoutCb_keeps
        exact .of_eq rfl rfl
    · obtain rfl := Option.some.inj hFired
      constructor
      · exact bashGraceCb_joined h
      · apply Keeps.trans _ bashGraceCb_keeps
        exact .of_eq rfl rfl
  | cancel b =>
    simp only [step, Option.ite_none_right_eq_some, Option.some.injEq] at hStep
    obtain ⟨-, rfl⟩ := hStep
    exact ⟨toolsCancel_joined h, toolsCancel_keeps⟩
  | closed n => exact absurd rfl (hEvent n)

/-- Setup failed before anything could happen: only answers to closes are left. -/
structure Abandoned (w : Loop) : Prop where
  fired : ∀ h, (w.handles h).registered = true → w.exec.doneFired = true
  closing : ∀ h, (w.handles h).registered = true → (w.handles h).closing = true
  exited : w.exec.exited = false
  running : w.running = false
  reading : w.reading = false
  armed : w.armed = none
  returned : w.returned = false

theorem step_abandoned (h : Abandoned w) {e : Event} (hStep : step w e = some w') :
    ∃ n, e = .closed n := by
  cases e with
  | exit b exitStatus termSignal => simp [step, h.running] at hStep
  | read b nread scratch => simp [step, h.reading] at hStep
  | timer b => simp [step, h.armed] at hStep
  | cancel b => simp [step, h.returned] at hStep
  | closed n => exact ⟨n, rfl⟩

/-- The exec's own counts are the numbers of handles, and the result and the free come with
the last answer. -/
structure Counted (w : Loop) : Prop where
  sound : ∀ h, (w.handles h).Sound
  expected : w.exec.closesExpected = w.handles.registered.card
  counts : w.exec.closesDone = w.handles.closed.card
  waits : (∃ h, (w.handles h).registered = true ∧ (w.handles h).closed = false) →
    w.frees = 0 ∧ w.results.length = w.exec.doneFired.toNat
  ends : (∀ h, (w.handles h).registered = true → (w.handles h).closed = true) →
    w.frees = 1 ∧ w.results.length = 1

theorem Counted.keeps (h : Counted w) (hKeeps : Keeps w w')
    (hSound : ∀ n, (w'.handles n).Sound) : Counted w' := by
  have hAccount := hKeeps.account
  simp only [Loop.account, Prod.mk.injEq] at hAccount
  obtain ⟨hDone, hExpected, hFired, hResults, hFrees⟩ := hAccount
  constructor
  · exact hSound
  · rw [hExpected, h.expected, Table.registered_congr hKeeps.registered]
  · rw [hDone, h.counts, Table.closed_congr hKeeps.closed]
  · simp only [hKeeps.registered, hKeeps.closed, hFrees, hResults, hFired]
    exact h.waits
  · simp only [hKeeps.registered, hKeeps.closed, hFrees, hResults]
    exact h.ends

theorem Joined.sound (h : Joined w) (hClosed : ∀ n, (w.handles n).closed = true →
    (w.handles n).closing = true) (n : HandleName) : (w.handles n).Sound := by
  refine ⟨?_, fun _ => h.registered n, hClosed n⟩
  cases n with
  | proc =>
    rw [h.proc]
    exact Bool.toNat_le _
  | out =>
    rw [h.out]
    exact Bool.toNat_le _
  | timer =>
    rw [h.timer]
    exact Bool.toNat_le _

theorem Keeps.closing (h : Keeps w w') {n : HandleName} (hClosing : (w.handles n).closing = true) :
    (w'.handles n).closing = true := by
  rw [Handle.closing_iff] at hClosing ⊢
  have hCloses := h.closes n
  omega

def Loop.answered (w : Loop) (n : HandleName) : Loop :=
  bashCloseCb { w with handles := w.handles.answer n }

theorem answered_handles {n : HandleName} : (w.answered n).handles = w.handles.answer n := by
  unfold Loop.answered bashCloseCb
  dsimp only
  split
  · rfl
  split
  · rfl
  · rfl

theorem Counted.more (h : Counted w) {n : HandleName} (hPending : (w.handles n).pending = true) :
    w.exec.closesDone + 1 < w.exec.closesExpected ↔
      ∃ m, (w.handles.answer n m).registered = true ∧ (w.handles.answer n m).closed = false := by
  rw [Handle.pending, Bool.and_eq_true, Bool.not_eq_true'] at hPending
  obtain ⟨hClosing, hOpen⟩ := hPending
  have hRegistered : (w.handles.answer n).registered = w.handles.registered :=
    Table.registered_congr fun _ => Table.answer_registered
  rw [h.counts, h.expected, ← Table.card_answer hOpen, ← hRegistered]
  exact Table.card_closed_lt (Table.sound_answer h.sound hClosing)

/-- The answer to a close is the last one, or others are awaited and only the count goes on. -/
theorem Counted.answered (h : Counted w) {n : HandleName}
    (hPending : (w.handles n).pending = true) : Counted (w.answered n) := by
  have hMore := h.more hPending
  rw [Handle.pending, Bool.and_eq_true, Bool.not_eq_true'] at hPending
  obtain ⟨hClosing, hOpen⟩ := hPending
  obtain ⟨hFrees, hResults⟩ := h.waits ⟨n, (h.sound n).registered hClosing, hOpen⟩
  have hSound := Table.sound_answer h.sound hClosing
  have hExpected : w.exec.closesExpected = (w.handles.answer n).registered.card := by
    rw [h.expected, Table.registered_congr fun _ => Table.answer_registered]
  have hCounts : w.exec.closesDone + 1 = (w.handles.answer n).closed.card := by
    rw [Table.card_answer hOpen, h.counts]
  unfold Loop.answered bashCloseCb
  dsimp only
  split
  · rename_i hLt
    refine ⟨hSound, hExpected, hCounts, fun _ => ⟨hFrees, hResults⟩, fun hAll => ?_⟩
    obtain ⟨m, hm, hWaits⟩ := hMore.mp hLt
    exact absurd (hWaits.symm.trans (hAll m hm)) Bool.false_ne_true
  rename_i hLast
  rw [hMore] at hLast
  split
  · rename_i hFired
    refine ⟨hSound, hExpected, hCounts, fun hWaits => absurd hWaits hLast, fun _ => ⟨?_, ?_⟩⟩
    · exact congrArg (· + 1) hFrees
    · rw [hFired] at hResults
      exact hResults
  · rename_i hFired
    rw [Bool.not_eq_true] at hFired
    rw [hFired] at hResults
    refine ⟨hSound, hExpected, hCounts, fun hWaits => absurd hWaits hLast, fun _ => ⟨?_, ?_⟩⟩
    · exact congrArg (· + 1) hFrees
    · change (w.results ++ [_]).length = 1
      rw [List.length_append, hResults]
      rfl

theorem answered_waits {n : HandleName} (h : w.exec.closesDone + 1 < w.exec.closesExpected) :
    (w.answered n).results = w.results ∧ (w.answered n).frees = w.frees := by
  unfold Loop.answered bashCloseCb
  dsimp only
  rw [if_pos h]
  exact ⟨rfl, rfl⟩

theorem answered_fired {n : HandleName} (h : w.exec.doneFired = true) :
    (w.answered n).results = w.results := by
  unfold Loop.answered bashCloseCb
  dsimp only
  split
  · rfl
  · rfl

theorem Joined.answered (h : Joined w) (n : HandleName) : Joined (w.answered n) := by
  have hView : ({ w with handles := w.handles.answer n } : Loop).view = w.view := by
    simp [Loop.view]
  unfold Loop.answered bashCloseCb
  dsimp only
  split
  · exact h.congr hView rfl rfl
  split
  · exact h.congr hView rfl rfl
  · exact h.congr hView rfl rfl

theorem Abandoned.answered (h : Abandoned w) (n : HandleName) : Abandoned (w.answered n) := by
  have hRegistered m : (w.handles.answer n m).registered = true → (w.handles m).registered = true :=
    fun hm => Table.answer_registered.symm.trans hm
  have hClosing m (hm : (w.handles.answer n m).registered = true) :
      (w.handles.answer n m).closing = true := by
    have hm := h.closing m (hRegistered m hm)
    rwa [Handle.closing_iff, Table.answer_closes, ← Handle.closing_iff]
  have hFired m (hm : (w.handles.answer n m).registered = true) : w.exec.doneFired = true :=
    h.fired m (hRegistered m hm)
  unfold Loop.answered bashCloseCb
  dsimp only
  split
  · exact ⟨hFired, hClosing, h.exited, h.running, h.reading, h.armed, h.returned⟩
  split
  · exact ⟨hFired, hClosing, h.exited, h.running, h.reading, h.armed, h.returned⟩
  · exact ⟨fun _ _ => rfl, hClosing, h.exited, h.running, h.reading, h.armed, h.returned⟩

structure Kept (w : Loop) : Prop where
  counted : Counted w
  joined : Joined w ∨ Abandoned w

theorem step_kept (h : Kept w) {e : Event} (hStep : step w e = some w') : Kept w' := by
  by_cases hEvent : ∃ n, e = .closed n
  · obtain ⟨n, rfl⟩ := hEvent
    rw [step, Option.ite_none_right_eq_some] at hStep
    obtain ⟨hPending, hAnswered⟩ := hStep
    obtain rfl : w.answered n = w' := Option.some.inj hAnswered
    refine ⟨h.counted.answered hPending, ?_⟩
    rcases h.joined with hJoined | hAbandoned
    · exact .inl (hJoined.answered n)
    · exact .inr (hAbandoned.answered n)
  · rcases h.joined with hJoined | hAbandoned
    · obtain ⟨hJoined', hKeeps⟩ := step_joined hJoined hStep fun n hn => hEvent ⟨n, hn⟩
      refine ⟨h.counted.keeps hKeeps (hJoined'.sound fun n hClosed => ?_), .inl hJoined'⟩
      rw [hKeeps.closed] at hClosed
      exact hKeeps.closing ((h.counted.sound n).closed hClosed)
    · exact absurd (step_abandoned hAbandoned hStep) hEvent

/-- A table of `n` registered handles, none of them closed. -/
structure Opened (t : Table HandleName) (n : Nat) : Prop where
  sound : ∀ h, (t h).Sound
  card : t.registered.card = n
  opened : ∀ h, (t h).closed = false
  some : (t .out).registered = true

theorem Counted.start {n : Nat} (h : Opened w.handles n) (hExpected : w.exec.closesExpected = n)
    (hDone : w.exec.closesDone = 0) (hFrees : w.frees = 0)
    (hResults : w.results.length = w.exec.doneFired.toNat) : Counted w := by
  refine ⟨h.sound, hExpected.trans h.card.symm, ?_, fun _ => ⟨hFrees, hResults⟩, fun hAll => ?_⟩
  · rw [hDone, eq_comm, Finset.card_eq_zero, Finset.eq_empty_iff_forall_notMem]
    intro m hClosed
    rw [Table.mem_closed, h.opened] at hClosed
    cases hClosed
  · exact absurd ((h.opened .out).symm.trans (hAll .out h.some)) Bool.false_ne_true

def pipeOnly : Table HandleName := (Table.register (fun _ => .fresh) .out).close .out

def spawned : Table HandleName :=
  ((Table.register (fun _ => .fresh) .out).register .timer).register .proc

def unspawned : Table HandleName := ((spawned.close .proc).close .out).close .timer

def unread : Table HandleName := spawned.close .out

theorem pipeOnly_opened : Opened pipeOnly 1 := ⟨by decide, by decide, by decide, rfl⟩

theorem spawned_opened : Opened spawned 3 := ⟨by decide, by decide, by decide, rfl⟩

theorem unspawned_opened : Opened unspawned 3 := ⟨by decide, by decide, by decide, rfl⟩

theorem unread_opened : Opened unread 3 := ⟨by decide, by decide, by decide, rfl⟩

theorem pipeOnly_closing : ∀ h, (pipeOnly h).registered = true → (pipeOnly h).closing = true := by
  decide

theorem unspawned_closing :
    ∀ h, (unspawned h).registered = true → (unspawned h).closing = true := by
  decide

theorem spawned_registered : ∀ h, (spawned h).registered = true := by decide

theorem unread_registered : ∀ h, (unread h).registered = true := by decide

theorem bashExecute_kept (setup : Setup) : Kept (bashExecute setup) := by
  obtain ⟨timeoutMs, pipeInit, pipeOpen, timerInit, spawn, readStart, timerStart⟩ := setup
  cases pipeInit with
  | false =>
    constructor
    · refine ⟨fun _ => Handle.sound_fresh, rfl, rfl, ?_, fun _ => ⟨rfl, rfl⟩⟩
      rintro ⟨h, hRegistered, -⟩
      cases hRegistered
    · exact .inr ⟨nofun, nofun, rfl, rfl, rfl, rfl, rfl⟩
  | true =>
    cases pipeOpen with
    | false =>
      constructor
      · exact .start pipeOnly_opened rfl rfl rfl rfl
      · exact .inr ⟨fun _ _ => rfl, pipeOnly_closing, rfl, rfl, rfl, rfl, rfl⟩
    | true =>
      cases timerInit with
      | false =>
        constructor
        · exact .start pipeOnly_opened rfl rfl rfl rfl
        · exact .inr ⟨fun _ _ => rfl, pipeOnly_closing, rfl, rfl, rfl, rfl, rfl⟩
      | true =>
        cases spawn with
        | some reason =>
          constructor
          · exact .start unspawned_opened rfl rfl rfl rfl
          · exact .inr ⟨fun _ _ => rfl, unspawned_closing, rfl, rfl, rfl, rfl, rfl⟩
        | none =>
          cases readStart with
          | some reason =>
            constructor
            · exact .start unread_opened rfl rfl rfl rfl
            · exact .inl ⟨⟨unread_registered, rfl, rfl, rfl, nofun⟩, nofun, nofun, nofun⟩
          | none =>
            cases timerStart with
            | some reason =>
              constructor
              · exact .start spawned_opened rfl rfl rfl rfl
              · exact .inl ⟨⟨spawned_registered, rfl, rfl, rfl, nofun⟩, nofun, nofun, nofun⟩
            | none =>
              constructor
              · exact .start spawned_opened rfl rfl rfl rfl
              · exact .inl ⟨⟨spawned_registered, rfl, rfl, rfl, nofun⟩, nofun, nofun, nofun⟩

theorem Counted.all_closed (h : Counted w) (hFrees : w.frees ≠ 0) (n : HandleName)
    (hRegistered : (w.handles n).registered = true) : (w.handles n).closed = true := by
  rw [← Bool.not_eq_false]
  intro hOpen
  exact hFrees (h.waits ⟨n, hRegistered, hOpen⟩).1

theorem Counted.results_le (h : Counted w) : w.results.length ≤ 1 := by
  by_cases hWaits : ∃ n, (w.handles n).registered = true ∧ (w.handles n).closed = false
  · rw [(h.waits hWaits).2]
    exact Bool.toNat_le _
  · apply le_of_eq
    apply (h.ends _).2
    intro n hRegistered
    rw [← Bool.not_eq_false]
    exact fun hOpen => hWaits ⟨n, hRegistered, hOpen⟩

theorem Counted.frees_le (h : Counted w) : w.frees ≤ 1 := by
  by_cases hFrees : w.frees = 0
  · rw [hFrees]
    exact Nat.zero_le 1
  · exact (h.ends (h.all_closed hFrees)).1.le

/-- No event of a freed exec is left. -/
theorem Kept.dead (h : Kept w) (hFrees : w.frees ≠ 0) (e : Event) : step w e = none := by
  have hClosed := h.counted.all_closed hFrees
  have hClosing n (hRegistered : (w.handles n).registered = true) :
      (w.handles n).closing = true := (h.counted.sound n).closed (hClosed n hRegistered)
  have hResults : w.results.isEmpty = false := by
    have hOne := (h.counted.ends hClosed).2
    rw [List.isEmpty_eq_false_iff, ← List.length_pos_iff, hOne]
    exact Nat.one_pos
  have hAnswer n : step w (.closed n) = none := by
    have hPending : (w.handles n).pending = false := by
      rw [Handle.pending]
      cases hRegistered : (w.handles n).registered with
      | true => simp [hClosed n hRegistered]
      | false =>
        have hOpen : (w.handles n).closing = false := by
          rw [← Bool.not_eq_true]
          intro hTrue
          rw [(h.counted.sound n).registered hTrue] at hRegistered
          cases hRegistered
        simp [hOpen]
    simp [step, hPending]
  rcases h.joined with hJoined | hAbandoned
  · cases e with
    | exit b exitStatus termSignal => simp [step, hClosing .proc (hJoined.registered _)]
    | read b nread scratch => simp [step, hClosing .out (hJoined.registered _)]
    | timer b => simp [step, hClosing .timer (hJoined.registered _)]
    | cancel b => simp [step, hResults]
    | closed n => exact hAnswer n
  · cases hStep : step w e with
    | none => rfl
    | some w' =>
      obtain ⟨n, rfl⟩ := step_abandoned hAbandoned hStep
      exact absurd ((hAnswer n).symm.trans hStep) nofun

theorem Kept.wound_up (h : Kept w) (hExited : w.exec.exited = true)
    (hOver : w.ended = true ∨ w.graceOver = true) (n : HandleName) :
    (w.handles n).registered = true ∧ (w.handles n).closes = 1 := by
  rcases h.joined with hJoined | hAbandoned
  · have hDone : w.exec.pipeDone = true := hOver.elim hJoined.ended hJoined.graceOver
    refine ⟨hJoined.registered n, ?_⟩
    cases n with
    | proc => rw [hJoined.proc, hExited, Bool.toNat_true]
    | out => rw [hJoined.out, hDone, Bool.toNat_true]
    | timer => rw [hJoined.timer, hJoined.complete hExited hDone, Bool.toNat_true]
  · exact absurd (hAbandoned.exited.symm.trans hExited) Bool.false_ne_true

structure Disposed (w : Loop) : Prop where
  results_le : w.results.length ≤ 1
  frees_le : w.frees ≤ 1
  result_of_free : w.frees = 1 → w.results.length = 1
  closes_le : ∀ h, (w.handles h).closes ≤ 1
  registered_of_close : ∀ h, (w.handles h).closes ≠ 0 → (w.handles h).registered = true
  dead : w.frees = 1 → ∀ e, step w e = none
  wound_up : w.exec.exited = true → w.ended = true ∨ w.graceOver = true →
    ∀ h, (w.handles h).registered = true ∧ (w.handles h).closes = 1

structure Advances (w : Loop) (e : Event) (w' : Loop) : Prop where
  fires : w'.results ≠ w.results → w.exec.exited = true ∧ w.exec.pipeDone = true ∧
    ∀ h, (w'.handles h).registered = true ∧ (w'.handles h).closed = true
  frees : w'.frees ≠ w.frees → (∃ h, e = .closed h) ∧
    ∀ h, (w'.handles h).registered = true → (w'.handles h).closed = true

/-- What the setup itself does: a result when it fails, a free when it registered nothing. -/
structure Started (w : Loop) : Prop where
  fires : w.results ≠ [] → w.returned = false
  frees : w.frees ≠ 0 → ∀ h, (w.handles h).registered = false

theorem Kept.disposed (h : Kept w) : Disposed w where
  results_le := h.counted.results_le
  frees_le := h.counted.frees_le
  result_of_free hFrees :=
    (h.counted.ends (h.counted.all_closed (hFrees.trans_ne Nat.one_ne_zero))).2
  closes_le n := (h.counted.sound n).once
  registered_of_close n hCloses := (h.counted.sound n).registered (Handle.closing_iff.mpr hCloses)
  dead hFrees := h.dead (hFrees.trans_ne Nat.one_ne_zero)
  wound_up := h.wound_up

theorem Kept.advances (h : Kept w) {e : Event} (hStep : step w e = some w') : Advances w e w' := by
  by_cases hEvent : ∃ n, e = .closed n
  · obtain ⟨n, rfl⟩ := hEvent
    rw [step, Option.ite_none_right_eq_some] at hStep
    obtain ⟨hPending, hAnswered⟩ := hStep
    obtain rfl : w.answered n = w' := Option.some.inj hAnswered
    have hMore := h.counted.more hPending
    have hAll (hLast : ¬w.exec.closesDone + 1 < w.exec.closesExpected) (m : HandleName)
        (hRegistered : ((w.answered n).handles m).registered = true) :
        ((w.answered n).handles m).closed = true := by
      rw [← Bool.not_eq_false]
      intro hOpen
      rw [answered_handles] at hRegistered hOpen
      exact hLast (hMore.mpr ⟨m, hRegistered, hOpen⟩)
    constructor
    · intro hResults
      have hLast : ¬w.exec.closesDone + 1 < w.exec.closesExpected :=
        fun hLt => hResults (answered_waits hLt).1
      rcases h.joined with hJoined | hAbandoned
      · have hRegistered m : ((w.answered n).handles m).registered = true := by
          rw [answered_handles, Table.answer_registered]
          exact hJoined.registered m
        have hClosed m := hAll hLast m (hRegistered m)
        have hCloses m : (w.handles m).closes ≠ 0 := by
          have hClosing := (h.counted.answered hPending).sound m |>.closed (hClosed m)
          rwa [Handle.closing_iff, answered_handles, Table.answer_closes] at hClosing
        refine ⟨?_, ?_, fun m => ⟨hRegistered m, hClosed m⟩⟩
        · have hProc := hCloses .proc
          rw [hJoined.proc] at hProc
          cases hExited : w.exec.exited with
          | true => rfl
          | false => exact absurd (congrArg Bool.toNat hExited) hProc
        · have hOut := hCloses .out
          rw [hJoined.out] at hOut
          cases hDone : w.exec.pipeDone with
          | true => rfl
          | false => exact absurd (congrArg Bool.toNat hDone) hOut
      · rw [Handle.pending, Bool.and_eq_true] at hPending
        have hFired := hAbandoned.fired n ((h.counted.sound n).registered hPending.1)
        exact absurd (answered_fired hFired) hResults
    · intro hFrees
      exact ⟨⟨n, rfl⟩, hAll fun hLt => hFrees (answered_waits hLt).2⟩
  · rcases h.joined with hJoined | hAbandoned
    · have hAccount := (step_joined hJoined hStep fun n hn => hEvent ⟨n, hn⟩).2.account
      simp only [Loop.account, Prod.mk.injEq] at hAccount
      obtain ⟨-, -, -, hResults, hFrees⟩ := hAccount
      exact ⟨fun hNe => absurd hResults hNe, fun hNe => absurd hFrees hNe⟩
    · exact absurd (step_abandoned hAbandoned hStep) hEvent

theorem bashExecute_started (setup : Setup) : Started (bashExecute setup) := by
  obtain ⟨timeoutMs, pipeInit, pipeOpen, timerInit, spawn, readStart, timerStart⟩ := setup
  cases pipeInit with
  | false => exact ⟨fun _ => rfl, fun _ _ => rfl⟩
  | true =>
    cases pipeOpen with
    | false => exact ⟨fun _ => rfl, fun hFrees => absurd rfl hFrees⟩
    | true =>
      cases timerInit with
      | false => exact ⟨fun _ => rfl, fun hFrees => absurd rfl hFrees⟩
      | true =>
        cases spawn with
        | some reason => exact ⟨fun _ => rfl, fun hFrees => absurd rfl hFrees⟩
        | none =>
          cases readStart with
          | some reason => exact ⟨fun _ => rfl, fun hFrees => absurd rfl hFrees⟩
          | none =>
            cases timerStart with
            | some reason => exact ⟨fun _ => rfl, fun hFrees => absurd rfl hFrees⟩
            | none => exact ⟨fun hResults => absurd rfl hResults, fun hFrees => absurd rfl hFrees⟩

theorem run_kept (setup : Setup) {es : List Event}
    (hRun : run step (bashExecute setup) es = some w) : Kept w :=
  run_invariant (fun _ _ _ h hStep => step_kept h hStep) (bashExecute_kept setup) hRun

/-- Whatever fails in the setup and in whatever order the events come, an exec fires one result
and is freed once, by the last answer, with nothing of it left in the loop. -/
theorem exec_disposed (setup : Setup) : Started (bashExecute setup) ∧
    ∀ es w, run step (bashExecute setup) es = some w →
      Disposed w ∧ ∀ e w', step w e = some w' → Advances w e w' := by
  refine ⟨bashExecute_started setup, fun es w hRun => ?_⟩
  have hKept := run_kept setup hRun
  exact ⟨hKept.disposed, fun e w' hStep => hKept.advances hStep⟩

/-- A child exits while a background process holds its pipe; the exec is cancelled before the
grace is over. -/
theorem exec_disposed_cancelled :
    let setup : Setup := ⟨30000, true, true, true, none, none, none⟩
    let es : List Event := [.read true 0 [], .exit true 0 0, .cancel true, .closed .proc,
      .closed .timer, .closed .out]
    ∃ w, run step (bashExecute setup) es = some w ∧ w.frees = 1 ∧
      (w.results.map ToolResult.isError) = [true] ∧ Disposed w := by
  intro setup es
  have hEnd : (run step (bashExecute setup) es).map (fun w => (w.frees, w.results.map
      ToolResult.isError)) = some (1, [true]) := by decide +kernel
  obtain ⟨w, hRun, hW⟩ := Option.map_eq_some_iff.mp hEnd
  obtain ⟨hFrees, hResults⟩ := Prod.mk.inj hW
  exact ⟨w, hRun, hFrees, hResults, ((exec_disposed setup).2 es w hRun).1⟩

end Mua.Bash
