import Mua.OpenrouterMessage
import Mua.SseCallback
import Mua.Lib.Run

/-! # The life of a stream

A stream transfers, waits for a retry, or is gone. `Phase` says which, and what
its history looks like there: quiet while it is live, then one terminal
callback, then its destruction. Every step of the loop keeps it.
-/

namespace Mua.Openrouter

open Sse Run

def OrOutput.isRequest : OrOutput → Bool
  | .httpRequest _ => true
  | _ => false

def OrOutput.isText : OrOutput → Bool
  | .onText _ => true
  | _ => false

def OrOutput.isTerminal : OrOutput → Bool
  | .onDone _ _ _ | .onError _ => true
  | _ => false

def OrOutput.isDestroy : OrOutput → Bool
  | .destroy => true
  | _ => false

def Quiet (out : List OrOutput) : Prop := ∀ o ∈ out, o.isTerminal = false ∧ o.isDestroy = false

def Reported (out : List OrOutput) : Prop :=
  ∃ before t, Quiet before ∧ t.isTerminal = true ∧ out = before ++ [t]

structure Transferring (s : OpenrouterStream) : Prop where
  req : s.req = true
  timer : s.retryTimer = none
  live : s.finished = false → Quiet s.out
  ended : s.finished = true → Reported s.out

structure Waiting (s : OpenrouterStream) : Prop where
  req : s.req = false
  timer : s.retryTimer.isSome = true
  live : s.finished = false
  quiet : Quiet s.out
  delivered : s.delivered = false
  attempt : s.attempt < maxHttpAttempts

structure Gone (s : OpenrouterStream) : Prop where
  req : s.req = false
  timer : s.retryTimer = none
  ended : ∃ before, Reported before ∧ s.out = before ++ [.destroy]

inductive Phase (s : OpenrouterStream) : Prop
  | transferring (h : Transferring s)
  | waiting (h : Waiting s)
  | gone (h : Gone s)

structure Counted (s : OpenrouterStream) : Prop where
  attempts : s.attempt ≤ maxHttpAttempts
  requests : s.out.countP OrOutput.isRequest = s.attempt
  undelivered : s.delivered = false →
    (∀ o ∈ s.out, o.isText = false) ∧ ∀ i, (s.toolCalls i).present = false

variable {lib : JsonLib} {cancels : CancelsInText} {s s' : OpenrouterStream}

theorem Quiet.append {out : List OrOutput} {o : OrOutput} (h : Quiet out)
    (hTerminal : o.isTerminal = false) (hDestroy : o.isDestroy = false) : Quiet (out ++ [o]) := by
  intro x hx
  rcases List.mem_append.mp hx with hx | hx
  · exact h x hx
  · cases List.mem_singleton.mp hx
    exact ⟨hTerminal, hDestroy⟩

/-- An event does what `Emits` says, or hands the message over. -/
inductive Handles (s : OpenrouterStream) : OpenrouterStream → Prop
  | emits {s' : OpenrouterStream} (h : Emits s s') : Handles s s'
  | done (hLive : s.finished = false) (message : CJson) (reason : Bytes) (usage : Usage) :
    Handles s ({ s with finished := true }.emit (.onDone message reason usage))

theorem fireDone_handles (s : OpenrouterStream) : Handles s (fireDone s) := by
  unfold fireDone
  split
  · exact .emits (.refl s)
  · rename_i hLive
    split
    · exact .emits (fireErrorMsg_emits s _ _)
    · exact .done (by simpa using hLive) _ _ _

theorem handleEvent_handles (lib : JsonLib) (cancels : CancelsInText) (s : OpenrouterStream)
    (data : Bytes) : Handles s (handleEvent lib cancels s data).1 := by
  by_cases hData : data = ascii "[DONE]"
  · rw [handleEvent, if_pos hData]
    split
    · exact .emits (.refl s)
    · exact fireDone_handles s
  · exact .emits (handleEvent_emits lib cancels s hData)

theorem Transferring.emits (h : Transferring s) (hEmits : Emits s s') : Transferring s' := by
  induction hEmits with
  | silent hSame =>
    exact ⟨hSame.req.trans h.req, hSame.retryTimer.trans h.timer,
      fun hLive => hSame.out ▸ h.live (hSame.finished.symm.trans hLive),
      fun hEnded => hSame.out ▸ h.ended (hSame.finished.symm.trans hEnded)⟩
  | text _ hLive =>
    exact ⟨h.req, h.timer, fun _ => (h.live hLive).append rfl rfl,
      fun hEnded => absurd (hLive.symm.trans hEnded) nofun⟩
  | error err hLive => exact ⟨h.req, h.timer, nofun, fun _ => ⟨_, _, h.live hLive, rfl, rfl⟩⟩
  | canceled _ hReq => exact absurd (h.req.symm.trans hReq) nofun
  | trans _ _ ih ih' => exact ih' (ih h)

theorem Transferring.handles (h : Transferring s) (hHandles : Handles s s') : Transferring s' := by
  cases hHandles with
  | emits hEmits => exact h.emits hEmits
  | done hLive message reason usage =>
    exact ⟨h.req, h.timer, nofun, fun _ => ⟨_, _, h.live hLive, rfl, rfl⟩⟩

theorem Counted.emit {o : OrOutput} (h : Counted s) (hRequest : o.isRequest = false)
    (hText : o.isText = false) : Counted (s.emit o) where
  attempts := h.attempts
  requests := by
    rw [emit_out, List.countP_append, List.countP_singleton, hRequest]
    exact h.requests
  undelivered hDelivered := by
    obtain ⟨hOut, hCalls⟩ := h.undelivered hDelivered
    refine ⟨fun x hx => ?_, hCalls⟩
    rcases List.mem_append.mp hx with hx | hx
    · exact hOut x hx
    · cases List.mem_singleton.mp hx
      exact hText

theorem Counted.congr (h : Counted s) (hOut : s'.out = s.out) (hAttempt : s'.attempt = s.attempt)
    (hDelivered : s'.delivered = false → s.delivered = false)
    (hCalls : s'.delivered = false → s'.toolCalls = s.toolCalls) : Counted s' where
  attempts := hAttempt ▸ h.attempts
  requests := by rw [hOut, hAttempt, h.requests]
  undelivered hd := by
    obtain ⟨hTexts, hPresent⟩ := h.undelivered (hDelivered hd)
    rw [hOut, hCalls hd]
    exact ⟨hTexts, hPresent⟩

theorem Counted.fireError (h : Counted s) (err : Error) : Counted (fireError s err) :=
  Counted.emit (h.congr rfl rfl id fun _ => rfl) rfl rfl

theorem Counted.emits (h : Counted s) (hEmits : Emits s s') : Counted s' := by
  induction hEmits with
  | silent hSame =>
    refine h.congr hSame.out hSame.attempt (fun hd => ?_) hSame.idle
    exact Bool.eq_false_iff.mpr fun hs => absurd (hd.symm.trans (hSame.delivered hs)) nofun
  | text t hLive =>
    refine ⟨h.attempts, ?_, nofun⟩
    rw [emit_out, List.countP_append]
    exact h.requests
  | error err hLive => exact h.fireError err
  | canceled hLive hReq =>
    refine Counted.emit (Counted.fireError (Counted.congr h ?_ ?_ ?_ ?_) _) rfl rfl
    · rfl
    · rfl
    · exact id
    · exact fun _ => rfl
  | trans _ _ ih ih' => exact ih' (ih h)

theorem Counted.handles (h : Counted s) (hHandles : Handles s s') : Counted s' := by
  cases hHandles with
  | emits hEmits => exact h.emits hEmits
  | done hLive message reason usage =>
    exact Counted.emit (h.congr rfl rfl id fun _ => rfl) rfl rfl

structure Sound (s : OpenrouterStream) : Prop where
  phase : Phase s
  counted : Counted s

theorem orOnChunk_transferring (lib : JsonLib) (cancels : CancelsInText) {s : OrState}
    (h : Transferring s.stream) (hCounted : Counted s.stream)
    (bytes : Bytes) :
    Transferring (orOnChunk lib cancels s bytes).1.stream ∧
      Counted (orOnChunk lib cancels s bytes).1.stream := by
  unfold orOnChunk
  split
  · have hFeed := sseParserFeed_invariant
      (P := fun stream => Transferring stream ∧ Counted stream) (orOnEvent lib cancels)
      (fun stream event hs =>
        have hHandles := handleEvent_handles lib cancels stream event.data
        ⟨hs.1.handles hHandles, hs.2.handles hHandles⟩)
      s.sse ⟨h, hCounted⟩ bytes
    split
    · rename_i heq
      rw [heq] at hFeed
      have hEmits := fireErrorMsg_emits
      exact ⟨hFeed.1.emits (hEmits _ _ _), hFeed.2.emits (hEmits _ _ _)⟩
    · rename_i heq
      rw [heq] at hFeed
      exact hFeed
  · split
    · exact ⟨⟨h.req, h.timer, h.live, h.ended⟩, hCounted.congr rfl rfl id fun _ => rfl⟩
    · exact ⟨⟨h.req, h.timer, h.live, h.ended⟩, hCounted.congr rfl rfl id fun _ => rfl⟩

theorem orOnStatus_sound (h : Transferring s) (hCounted : Counted s) (status : Int)
    (contentType : Option Bytes) : Sound (orOnStatus s status contentType) := by
  unfold orOnStatus
  dsimp only
  split
  · split
    · exact ⟨.transferring ⟨h.req, h.timer, h.live, h.ended⟩, hCounted.congr rfl rfl id fun _ => rfl⟩
    · exact ⟨.transferring ⟨h.req, h.timer, h.live, h.ended⟩, hCounted.congr rfl rfl id fun _ => rfl⟩
  · exact ⟨.transferring ⟨h.req, h.timer, h.live, h.ended⟩, hCounted.congr rfl rfl id fun _ => rfl⟩

/-- A stream that is about to be freed: nothing is pending and it has reported. -/
structure Leaving (s : OpenrouterStream) : Prop where
  req : s.req = false
  timer : s.retryTimer = none
  reported : Reported s.out
  counted : Counted s

theorem Leaving.destroy (h : Leaving s) : Sound (streamDestroy s) :=
  ⟨.gone ⟨h.req, h.timer, _, h.reported, rfl⟩, h.counted.emit rfl rfl⟩

structure Settled (s : OpenrouterStream) : Prop where
  req : s.req = false
  timer : s.retryTimer = none
  live : s.finished = false
  quiet : Quiet s.out
  counted : Counted s

theorem Settled.fireError (h : Settled s) (err : Error) : Leaving (fireError s err) :=
  ⟨h.req, h.timer, ⟨_, _, h.quiet, rfl, rfl⟩, h.counted.fireError err⟩

theorem Settled.fireErrorMsg (h : Settled s) (type : ErrorType) (msg : Bytes) :
    Leaving (fireErrorMsg s type msg) := by
  unfold Openrouter.fireErrorMsg
  rw [if_neg (by simp [h.live])]
  exact h.fireError _

theorem Settled.fireDone (h : Settled s) : Leaving (fireDone s) := by
  unfold Openrouter.fireDone
  rw [if_neg (by simp [h.live])]
  split
  · exact h.fireErrorMsg _ _
  · exact ⟨h.req, h.timer, ⟨_, _, h.quiet, rfl, rfl⟩,
      Counted.emit (h.counted.congr rfl rfl id fun _ => rfl) rfl rfl⟩

theorem Settled.scheduleRetry (h : Settled s) (hDelivered : s.delivered = false)
    (hAttempt : s.attempt < maxHttpAttempts) (retryAfterS : Int) (timerStarts : Bool) :
    Sound (scheduleRetry s retryAfterS timerStarts) := by
  unfold Openrouter.scheduleRetry
  dsimp only
  split
  · exact ⟨.waiting ⟨h.req, rfl, h.live, h.quiet, hDelivered, hAttempt⟩,
      h.counted.congr rfl rfl id fun _ => rfl⟩
  · have hSettled : Settled { s with prngState := prngNext s.prngState } :=
      ⟨h.req, h.timer, h.live, h.quiet, h.counted.congr rfl rfl id fun _ => rfl⟩
    exact (hSettled.fireErrorMsg _ _).destroy

theorem orOnComplete_sound {s : OrState} (h : Transferring s.stream) (hCounted : Counted s.stream)
    (res : HttpResult) (timerStarts : Bool) : Sound (orOnComplete lib s res timerStarts).stream := by
  have hIdle : Counted { s.stream with req := false } := hCounted.congr rfl rfl id fun _ => rfl
  unfold orOnComplete
  dsimp only
  split
  · rename_i hEnded
    exact Leaving.destroy ⟨rfl, h.timer, h.ended hEnded, hIdle⟩
  · rename_i hEnded
    have hLive : s.stream.finished = false := by simpa using hEnded
    have hSettled : Settled { s.stream with req := false } :=
      ⟨rfl, h.timer, hLive, h.live hLive, hIdle⟩
    split
    · exact (hSettled.fireErrorMsg _ _).destroy
    · split
      · split
        · exact hSettled.fireDone.destroy
        · exact (hSettled.fireErrorMsg _ _).destroy
      · split
        · rename_i hRetry
          simp only [Bool.and_eq_true, Bool.not_eq_true', decide_eq_true_eq] at hRetry
          exact hSettled.scheduleRetry hRetry.1.2 hRetry.2 _ _
        · split
          · unfold reportHttpFailure
            split
            · exact (hSettled.fireErrorMsg _ _).destroy
            · exact (hSettled.fireErrorMsg _ _).destroy
          · exact (hSettled.fireError _).destroy

theorem startAttempt_sound {s : OrState} (h : Settled s.stream) (hDelivered : s.stream.delivered = false)
    (hAttempt : s.stream.attempt < maxHttpAttempts) (start : HttpStart) :
    Sound (startAttempt s start).stream := by
  have hQuiet : Quiet (s.stream.out ++ [.httpRequest s.stream.body]) := h.quiet.append rfl rfl
  have hCounted : Counted ((resetAttempt s.stream).emit (.httpRequest s.stream.body)) := by
    refine ⟨hAttempt, ?_, fun _ => ⟨fun o ho => ?_, fun _ => rfl⟩⟩
    · rw [emit_out, List.countP_append]
      exact congrArg (· + 1) h.counted.requests
    · rcases List.mem_append.mp ho with ho | ho
      · exact (h.counted.undelivered hDelivered).1 o ho
      · cases List.mem_singleton.mp ho
        rfl
  unfold startAttempt
  dsimp only
  split
  · exact ⟨.transferring ⟨rfl, h.timer, fun _ => hQuiet,
      fun hEnded => absurd (h.live.symm.trans hEnded) nofun⟩, hCounted.congr rfl rfl id fun _ => rfl⟩
  · have hSettled : Settled { (resetAttempt s.stream).emit (.httpRequest s.stream.body) with
        req := false } :=
      ⟨rfl, h.timer, h.live, hQuiet, hCounted.congr rfl rfl id fun _ => rfl⟩
    exact (hSettled.fireErrorMsg _ _).destroy

theorem openrouterCancel_sound (h : Sound s) (hAlive : ¬Gone s) : Sound (openrouterCancel s) := by
  cases h.phase with
  | gone hGone => exact absurd hGone hAlive
  | transferring hT =>
    have hEmits := openrouterCancel_emits s
    exact ⟨.transferring (hT.emits hEmits), h.counted.emits hEmits⟩
  | waiting hW =>
    unfold openrouterCancel
    split
    · exact h
    · dsimp only
      rw [if_neg (by simp [hW.req])]
      have hSettled : Settled { s with cancelRequested := true, retryTimer := none } :=
        ⟨hW.req, rfl, hW.live, hW.quiet, h.counted.congr rfl rfl id fun _ => rfl⟩
      exact (hSettled.fireErrorMsg _ _).destroy

theorem Sound.transferring_of_req (h : Sound s) (hReq : s.req = true) : Transferring s := by
  cases h.phase with
  | transferring hT => exact hT
  | waiting hW => exact absurd (hReq.symm.trans hW.req) nofun
  | gone hG => exact absurd (hReq.symm.trans hG.req) nofun

theorem Gone.destroyed (h : Gone s) : s.out.any (fun o => o matches .destroy) = true := by
  obtain ⟨before, -, hOut⟩ := h.ended
  simp [hOut]

theorem Waiting.settled (h : Waiting s) (hCounted : Counted s) :
    Settled { s with retryTimer := none } :=
  ⟨h.req, rfl, h.live, h.quiet, hCounted.congr rfl rfl id fun _ => rfl⟩

theorem Sound.waiting_of_timer (h : Sound s) (hTimer : s.retryTimer.isSome = true) : Waiting s := by
  cases h.phase with
  | waiting hW => exact hW
  | transferring hT => simp [hT.timer] at hTimer
  | gone hG => simp [hG.timer] at hTimer

theorem step_sound (s : OrState) (input : OrInput) (s' : OrState) (h : Sound s.stream)
    (hStep : step lib cancels s input = some s') : Sound s'.stream := by
  cases input with
  | status status contentType =>
    obtain ⟨hReq, hStep⟩ := Option.ite_none_right_eq_some.mp hStep
    cases hStep
    exact orOnStatus_sound (h.transferring_of_req hReq) h.counted _ _
  | chunk bytes =>
    obtain ⟨hReq, hStep⟩ := Option.ite_none_right_eq_some.mp hStep
    cases hStep
    obtain ⟨hT, hC⟩ := orOnChunk_transferring lib cancels
      (h.transferring_of_req hReq) h.counted bytes
    exact ⟨.transferring hT, hC⟩
  | complete res timerStarts =>
    obtain ⟨hReq, hStep⟩ := Option.ite_none_right_eq_some.mp hStep
    cases hStep
    exact orOnComplete_sound (h.transferring_of_req hReq) h.counted _ _
  | timer start =>
    obtain ⟨hTimer, hStep⟩ := Option.ite_none_right_eq_some.mp hStep
    cases hStep
    have hW := h.waiting_of_timer hTimer
    exact startAttempt_sound (s := { s with stream := { s.stream with retryTimer := none } })
      (hW.settled h.counted) hW.delivered hW.attempt start
  | cancel =>
    obtain ⟨hAlive, hStep⟩ := Option.ite_none_left_eq_some.mp hStep
    cases hStep
    exact openrouterCancel_sound h fun hGone => hAlive hGone.destroyed

theorem newStream_settled (body : Bytes) (prngSeed : UInt64) : Settled (newStream body prngSeed) where
  req := rfl
  timer := rfl
  live := rfl
  quiet := List.forall_mem_nil _
  counted := ⟨Nat.zero_le _, rfl, fun _ => ⟨List.forall_mem_nil _, fun _ => rfl⟩⟩

theorem openrouterStream_eq {opts : OpenrouterOpts} {hrtime : UInt64} {timerInits : Bool}
    {start : HttpStart} {s : OrState}
    (h : openrouterStream lib opts hrtime timerInits start = .ok s) :
    s = startAttempt ⟨newStream (buildBody lib opts) (hrtime ||| 1), sseParserNew orLimits⟩ start := by
  unfold openrouterStream at h
  split at h
  · cases h
  · split at h
    · cases h
    · split at h
      · cases h
      · split at h
        · cases h
          rfl
        · cases h

theorem openrouterStream_sound {opts : OpenrouterOpts} {hrtime : UInt64} {timerInits : Bool}
    {start : HttpStart} {s : OrState}
    (h : openrouterStream lib opts hrtime timerInits start = .ok s) : Sound s.stream := by
  rw [openrouterStream_eq h]
  have hAttempt : 0 < maxHttpAttempts := by decide
  exact startAttempt_sound (s := ⟨newStream _ _, sseParserNew orLimits⟩) (newStream_settled _ _) rfl
    hAttempt start

theorem run_sound {opts : OpenrouterOpts} {hrtime : UInt64} {timerInits : Bool} {start : HttpStart}
    {inputs : List OrInput} {s₀ s : OrState}
    (hOpen : openrouterStream lib opts hrtime timerInits start = .ok s₀)
    (hRun : run (step lib cancels) s₀ inputs = some s) : Sound s.stream :=
  run_invariant (I := fun s : OrState => Sound s.stream) step_sound (openrouterStream_sound hOpen) hRun

theorem Quiet.countP_terminal {out : List OrOutput} (h : Quiet out) :
    out.countP OrOutput.isTerminal = 0 :=
  List.countP_eq_zero.mpr fun o ho => by simp [(h o ho).1]

theorem Quiet.countP_destroy {out : List OrOutput} (h : Quiet out) :
    out.countP OrOutput.isDestroy = 0 :=
  List.countP_eq_zero.mpr fun o ho => by simp [(h o ho).2]

/-- What the callbacks of a stream promise, read off its history. -/
structure EndsOnce (out : List OrOutput) : Prop where
  terminal : out.countP OrOutput.isTerminal ≤ 1
  silent : ∀ before t after, out = before ++ t :: after → t.isTerminal = true →
    ∀ o ∈ after, o.isText = false
  destroyed : out.countP OrOutput.isDestroy ≤ 1
  reported : ∀ before after, out = before ++ .destroy :: after →
    before.countP OrOutput.isTerminal = 1

theorem Quiet.endsOnce {out : List OrOutput} (h : Quiet out) : EndsOnce out where
  terminal := h.countP_terminal.trans_le (Nat.zero_le _)
  silent before t after hOut ht := by
    have := (h t (by rw [hOut]; simp)).1
    exact absurd (ht.symm.trans this) nofun
  destroyed := h.countP_destroy.trans_le (Nat.zero_le _)
  reported before after hOut := by
    have := (h .destroy (by rw [hOut]; simp)).2
    exact absurd this nofun

theorem split_after {quiet before rest after : List OrOutput} {o : OrOutput} (ho : o ∉ quiet)
    (h : quiet ++ rest = before ++ o :: after) :
    ∃ mid, before = quiet ++ mid ∧ rest = mid ++ o :: after := by
  rcases List.append_eq_append_iff.mp h with ⟨mid, hBefore, hRest⟩ | ⟨mid, hQuiet, hRest⟩
  · exact ⟨mid, hBefore, hRest⟩
  · cases mid with
    | nil => exact ⟨[], by simpa using hQuiet.symm, hRest.symm⟩
    | cons x mid =>
      rw [List.cons_append, List.cons.injEq] at hRest
      exact absurd (by rw [hQuiet, hRest.1]; simp) ho

theorem Reported.endsOnce {before tail : List OrOutput} {t : OrOutput} (hQuiet : Quiet before)
    (ht : t.isTerminal = true) (hTail : tail = [] ∨ tail = [.destroy]) :
    EndsOnce (before ++ t :: tail) := by
  have hNotDestroy : t.isDestroy = false := by cases t <;> first | rfl | cases ht
  have hTailTerminal : tail.countP OrOutput.isTerminal = 0 := by rcases hTail with rfl | rfl <;> rfl
  have hTailDestroy : tail.countP OrOutput.isDestroy ≤ 1 := by
    rcases hTail with rfl | rfl
    · exact Nat.zero_le _
    · exact le_rfl
  constructor
  case terminal =>
    rw [List.countP_append, hQuiet.countP_terminal, List.countP_cons_of_pos ht, hTailTerminal]
  case destroyed =>
    rw [List.countP_append, hQuiet.countP_destroy, List.countP_cons_of_neg (by simp [hNotDestroy]),
      Nat.zero_add]
    exact hTailDestroy
  case silent =>
    intro before' t' after hOut ht' o ho
    have hNot : t' ∉ before := fun hMem => absurd ((hQuiet t' hMem).1.symm.trans ht') nofun
    obtain ⟨mid, -, hRest⟩ := split_after hNot hOut
    have hMem : o ∈ tail := by
      cases mid with
      | nil =>
        cases hRest
        exact ho
      | cons x mid =>
        cases hRest
        simp [ho]
    rcases hTail with rfl | rfl
    · cases hMem
    · cases List.mem_singleton.mp hMem
      rfl
  case reported =>
    intro before' after hOut
    have hNot : OrOutput.destroy ∉ before := fun hMem => absurd (hQuiet _ hMem).2 nofun
    obtain ⟨mid, rfl, hRest⟩ := split_after hNot hOut
    rw [List.countP_append, hQuiet.countP_terminal, Nat.zero_add]
    cases mid with
    | nil =>
      cases hRest
      cases ht
    | cons x mid =>
      rw [List.cons_append, List.cons.injEq] at hRest
      obtain ⟨rfl, hRest⟩ := hRest
      have hMid : mid.countP OrOutput.isTerminal = 0 := by
        rw [hRest, List.countP_append] at hTailTerminal
        exact (Nat.add_eq_zero_iff.mp hTailTerminal).1
      rw [List.countP_cons_of_pos ht, hMid]

theorem Sound.endsOnce (h : Sound s) : EndsOnce s.out := by
  cases h.phase with
  | waiting hW => exact hW.quiet.endsOnce
  | transferring hT =>
    cases hFinished : s.finished with
    | false => exact (hT.live hFinished).endsOnce
    | true =>
      obtain ⟨before, t, hQuiet, ht, hOut⟩ := hT.ended hFinished
      rw [hOut]
      exact Reported.endsOnce hQuiet ht (.inl rfl)
  | gone hG =>
    obtain ⟨_, ⟨before, t, hQuiet, ht, rfl⟩, hOut⟩ := hG.ended
    rw [hOut, List.append_assoc]
    exact Reported.endsOnce hQuiet ht (.inr rfl)

/-- Every run of an opened stream reports at most once, stays silent afterwards, and is
destroyed at most once, after its report. -/
theorem stream_endsOnce {lib : JsonLib} {cancels : CancelsInText} {opts : OpenrouterOpts}
    {hrtime : UInt64} {timerInits : Bool} {start : HttpStart} {inputs : List OrInput} {s₀ s : OrState}
    (hOpen : openrouterStream lib opts hrtime timerInits start = .ok s₀)
    (hRun : run (step lib cancels) s₀ inputs = some s) : EndsOnce s.stream.out :=
  (run_sound hOpen hRun).endsOnce

def sampleOpts : OpenrouterOpts where
  model := none
  maxTokens := 0
  messages := .array [.object [(ascii "role", .string (ascii "user"))]]
  tools := none
  apiKey := some (ascii "k")

def retryInputs : List OrInput :=
  [.status 503 none, .complete ⟨.ok, 503, [], -1⟩ true, .timer .started,
    .status 200 (some (ascii "text/event-stream")), .chunk (ascii "data: [DONE]\n\n")]

theorem retryInputs_run :
    ∃ s₀ s, openrouterStream nulLib sampleOpts 6 true .started = .ok s₀ ∧
      run (step nulLib fun _ => false) s₀ retryInputs = some s := ⟨_, _, rfl, rfl⟩

theorem stream_endsOnce_sample :
    ∃ s₀ s, openrouterStream nulLib sampleOpts 6 true .started = .ok s₀ ∧
      run (step nulLib fun _ => false) s₀ retryInputs = some s ∧ EndsOnce s.stream.out := by
  obtain ⟨s₀, s, hOpen, hRun⟩ := retryInputs_run
  exact ⟨s₀, s, hOpen, hRun, stream_endsOnce hOpen hRun⟩

end Mua.Openrouter
