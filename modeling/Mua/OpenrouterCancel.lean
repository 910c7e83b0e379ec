import Mua.OpenrouterRun
import Mua.Lib.After

/-! # A stream that was cancelled starts no attempt

`openrouter_cancel` may be called between two events or from inside `on_text`.
From there on, and once a terminal callback has been fired, the history of the
stream holds no further request.
-/

namespace Mua.Openrouter

open Sse Run After

/-- The points of a run at which a stream is stopped for good. -/
inductive StopsAt (lib : JsonLib) (cancels : CancelsInText) (s₀ : OrState) (inputs : List OrInput) :
    List OrOutput → Prop
  | cancel {before after : List OrInput} {s : OrState} (hInputs : inputs = before ++ .cancel :: after)
      (hRun : run (step lib cancels) s₀ before = some s) : StopsAt lib cancels s₀ inputs s.stream.out
  | text {out : List OrOutput} (text : Bytes) (hCancels : cancels (out ++ [.onText text]) = true) :
      StopsAt lib cancels s₀ inputs (out ++ [.onText text])
  | terminal {out : List OrOutput} {o : OrOutput} (hTerminal : o.isTerminal = true) :
      StopsAt lib cancels s₀ inputs (out ++ [o])

def StopsIn (cancels : CancelsInText) (out : List OrOutput) : Prop :=
  ∃ before o, out = before ++ [o] ∧ (o.isTerminal = true ∨ o.isText = true ∧ cancels out = true)

def Stopped (cancels : CancelsInText) (mark : List OrOutput → Prop) (out : List OrOutput) : Prop :=
  mark out ∨ StopsIn cancels out

def NoRequest (_ after : List OrOutput) : Prop := ∀ o ∈ after, o.isRequest = false

structure Obeys (cancels : CancelsInText) (mark : List OrOutput → Prop) (s : OpenrouterStream) :
    Prop where
  holds : Holds (Stopped cancels mark) NoRequest s.out
  old : ∀ out, mark out → out.length ≤ s.out.length

structure Latched (cancels : CancelsInText) (mark : List OrOutput → Prop) (s : OpenrouterStream) :
    Prop extends Obeys cancels mark s where
  flag : Reached (Stopped cancels mark) s.out → s.finished = true ∨ s.cancelRequested = true

variable {lib : JsonLib} {cancels : CancelsInText} {mark : List OrOutput → Prop}
  {s s' : OpenrouterStream} {o : OrOutput}

theorem stopped_snoc {out : List OrOutput} (hOld : ∀ h, mark h → h.length ≤ out.length)
    (h : Stopped cancels mark (out ++ [o])) :
    o.isTerminal = true ∨ o.isText = true ∧ cancels (out ++ [o]) = true := by
  rcases h with hMark | ⟨before, o', hOut, hStop⟩
  · have hLength := hOld _ hMark
    rw [List.length_append, List.length_singleton] at hLength
    omega
  · obtain ⟨-, hLast⟩ := List.append_inj' hOut rfl
    obtain rfl := List.singleton_inj.mp hLast
    exact hStop

theorem Obeys.emit (h : Obeys cancels mark s) (hRequest : o.isRequest = false) :
    Obeys cancels mark (s.emit o) where
  holds := by
    refine h.holds.snoc (fun _ => List.forall_mem_nil _) ?_
    intro before after _ _ hNone o' ho'
    rcases List.mem_append.mp ho' with ho' | ho'
    · exact hNone o' ho'
    · exact List.mem_singleton.mp ho' ▸ hRequest
  old out hMark := by
    have hLength := h.old out hMark
    rw [emit_out, List.length_append]
    omega

theorem Obeys.congr (h : Obeys cancels mark s) (hOut : s'.out = s.out) : Obeys cancels mark s' :=
  ⟨hOut ▸ h.holds, hOut ▸ h.old⟩

theorem Obeys.latched (h : Obeys cancels mark s)
    (hFlag : s.finished = true ∨ s.cancelRequested = true) : Latched cancels mark s :=
  { h with flag := fun _ => hFlag }

theorem Latched.congr (h : Latched cancels mark s) (hOut : s'.out = s.out)
    (hFinished : s'.finished = s.finished) (hCancel : s'.cancelRequested = s.cancelRequested) :
    Latched cancels mark s' := by
  refine { h.toObeys.congr hOut with flag := ?_ }
  rw [hOut, hFinished, hCancel]
  exact h.flag

theorem Latched.emit (h : Latched cancels mark s) (hRequest : o.isRequest = false)
    (hTerminal : o.isTerminal = false) (hText : o.isText = true → cancels (s.out ++ [o]) = false) :
    Latched cancels mark (s.emit o) := by
  refine { h.toObeys.emit hRequest with flag := ?_ }
  intro hReached
  rcases hReached.of_snoc with hStop | hReached
  · rcases stopped_snoc h.old hStop with hEnd | ⟨hIsText, hCancels⟩
    · exact absurd (hTerminal.symm.trans hEnd) nofun
    · exact absurd ((hText hIsText).symm.trans hCancels) nofun
  · exact h.flag hReached

theorem Obeys.fireError (h : Obeys cancels mark s) (err : Error) :
    Latched cancels mark (fireError s err) := by
  have hFinished : Obeys cancels mark { s with finished := true } := h.congr rfl
  exact (hFinished.emit rfl).latched (.inl rfl)

theorem Latched.fireErrorMsg (h : Latched cancels mark s) (type : ErrorType) (msg : Bytes) :
    Latched cancels mark (fireErrorMsg s type msg) := by
  unfold Openrouter.fireErrorMsg
  split
  · exact h
  · exact h.toObeys.fireError _

theorem Latched.fireDone (h : Latched cancels mark s) : Latched cancels mark (fireDone s) := by
  unfold Openrouter.fireDone
  split
  · exact h
  split
  · exact h.fireErrorMsg _ _
  · have hFinished : Obeys cancels mark { s with finished := true } := h.toObeys.congr rfl
    exact (hFinished.emit rfl).latched (.inl rfl)

theorem Latched.destroy (h : Latched cancels mark s) : Latched cancels mark (streamDestroy s) :=
  h.emit rfl rfl nofun

theorem openrouterCancel_latched (h : Obeys cancels mark s) :
    Latched cancels mark (openrouterCancel s) := by
  unfold openrouterCancel
  split
  · rename_i hStop
    exact h.latched (by simpa using hStop)
  have hCancel : Obeys cancels mark { s with cancelRequested := true } := h.congr rfl
  dsimp only
  split
  · exact hCancel.latched (.inr rfl)
  · apply Latched.destroy
    apply Latched.fireErrorMsg
    have hStopped : Obeys cancels mark { s with cancelRequested := true, retryTimer := none } :=
      hCancel.congr rfl
    exact hStopped.latched (.inr rfl)

theorem Latched.fireText (h : Latched cancels mark s) (text : Bytes) :
    Latched cancels mark (fireText cancels s text) := by
  have hDelivered : Latched cancels mark { s with delivered := true } := h.congr rfl rfl rfl
  unfold Openrouter.fireText
  dsimp only
  split
  · apply openrouterCancel_latched
    exact hDelivered.toObeys.emit rfl
  · rename_i hNot
    refine hDelivered.emit rfl rfl ?_
    intro _
    exact Bool.eq_false_iff.mpr hNot

theorem Latched.accumulates (h : Latched cancels mark s) (hAcc : Accumulates s s') :
    Latched cancels mark s' := by
  refine h.congr hAcc.out hAcc.finished ?_
  rw [hAcc.frame]

theorem Latched.proceeds {r : OpenrouterStream × Bool} (h : Latched cancels mark s)
    (hProceeds : Proceeds (Accumulates s) r) : Latched cancels mark r.1 := by
  cases hProceeds with
  | goesOn hAcc => exact h.accumulates hAcc
  | reports hAcc msg => exact (h.accumulates hAcc).fireErrorMsg _ _

theorem Latched.handleContent (h : Latched cancels mark s) (delta : Option CJson) :
    Latched cancels mark (handleContent cancels s delta).1 := by
  unfold Openrouter.handleContent
  split
  · exact h
  split
  · exact h.fireErrorMsg _ _
  · apply Latched.fireText
    exact h.congr rfl rfl rfl

theorem Latched.handleFinish (h : Latched cancels mark s) (choice : CJson) :
    Latched cancels mark (handleFinish s choice) := by
  unfold Openrouter.handleFinish
  split
  · exact h
  · exact h.congr rfl rfl rfl

theorem Latched.handleUsage (h : Latched cancels mark s) (doc : CJson) :
    Latched cancels mark (handleUsage lib s doc) := by
  unfold Openrouter.handleUsage
  split
  · exact h
  · exact h.congr rfl rfl rfl

theorem Latched.handleChoice (h : Latched cancels mark s) (choice : CJson) :
    Latched cancels mark (handleChoice lib cancels s choice).1 := by
  have hContent := h.handleContent (jsonGetObj choice (ascii "delta"))
  unfold Openrouter.handleChoice
  dsimp only
  split
  · rename_i mid hReply
    rw [hReply] at hContent
    exact hContent
  · rename_i mid hReply
    rw [hReply] at hContent
    have hCalls := hContent.proceeds
      (handleCalls_proceeds lib mid (jsonGetObj choice (ascii "delta")))
    split
    · rename_i next hReply
      rw [hReply] at hCalls
      exact hCalls
    · rename_i next hReply
      rw [hReply] at hCalls
      exact hCalls.handleFinish choice

theorem Latched.handleDoc (h : Latched cancels mark s) (doc : CJson) :
    Latched cancels mark (handleDoc lib cancels s doc).1 := by
  unfold Openrouter.handleDoc
  split
  · exact h.toObeys.fireError _
  split
  · exact h.handleUsage doc
  · rename_i choice hChoice
    have hHandled : Latched cancels mark (Openrouter.handleChoice lib cancels s choice).1 :=
      h.handleChoice choice
    split
    · rename_i mid hReply
      rw [hReply] at hHandled
      exact hHandled
    · rename_i mid hReply
      rw [hReply] at hHandled
      exact hHandled.handleUsage doc

theorem Latched.handleEvent (h : Latched cancels mark s) (data : Bytes) :
    Latched cancels mark (handleEvent lib cancels s data).1 := by
  unfold Openrouter.handleEvent
  split
  · exact h
  split
  · exact h.fireDone
  split
  · exact h.fireErrorMsg _ _
  · exact h.handleDoc _

theorem orOnStatus_latched (h : Latched cancels mark s) (status : Int)
    (contentType : Option Bytes) : Latched cancels mark (orOnStatus s status contentType) := by
  unfold orOnStatus
  dsimp only
  split
  · split
    · exact h.congr rfl rfl rfl
    · exact h.congr rfl rfl rfl
  · exact h.congr rfl rfl rfl

theorem orOnChunk_latched {s : OrState} (h : Latched cancels mark s.stream) (bytes : Bytes) :
    Latched cancels mark (orOnChunk lib cancels s bytes).1.stream := by
  unfold orOnChunk
  split
  · have hFeed := sseParserFeed_invariant (P := Latched cancels mark) (orOnEvent lib cancels)
      (fun stream event hs => hs.handleEvent event.data) s.sse h bytes
    split
    · rename_i hReply
      rw [hReply] at hFeed
      exact hFeed.fireErrorMsg _ _
    · rename_i hReply
      rw [hReply] at hFeed
      exact hFeed
  · split
    · exact h.congr rfl rfl rfl
    · exact h.congr rfl rfl rfl

@[simp] theorem fireErrorMsg_retryTimer (s : OpenrouterStream) (type : ErrorType) (msg : Bytes) :
    (fireErrorMsg s type msg).retryTimer = s.retryTimer := by
  unfold fireErrorMsg
  split
  · rfl
  · rfl

@[simp] theorem fireDone_retryTimer (s : OpenrouterStream) :
    (fireDone s).retryTimer = s.retryTimer := by
  unfold fireDone
  split
  · rfl
  split
  · exact fireErrorMsg_retryTimer s _ _
  · rfl

@[simp] theorem streamDestroy_retryTimer (s : OpenrouterStream) :
    (streamDestroy s).retryTimer = s.retryTimer := rfl

/-- A retry is awaited only by a stream that was not cancelled. -/
def Awaits (s : OpenrouterStream) : Prop := s.retryTimer.isSome = true → s.cancelRequested = false

theorem Awaits.of_none (h : s.retryTimer = none) : Awaits s := by
  intro hSome
  rw [h] at hSome
  cases hSome

theorem scheduleRetry_latched (h : Latched cancels mark s) (hTimer : s.retryTimer = none)
    (hLive : s.cancelRequested = false) (retryAfterS : Int) (timerStarts : Bool) :
    Latched cancels mark (scheduleRetry s retryAfterS timerStarts) ∧
      Awaits (scheduleRetry s retryAfterS timerStarts) := by
  have hRandom : Latched cancels mark { s with prngState := prngNext s.prngState } :=
    h.congr rfl rfl rfl
  unfold scheduleRetry
  dsimp only
  split
  · exact ⟨hRandom.congr rfl rfl rfl, fun _ => hLive⟩
  · exact ⟨(hRandom.fireErrorMsg _ _).destroy, .of_none (by simpa using hTimer)⟩

theorem orOnComplete_latched (lib : JsonLib) {s : OrState} (h : Latched cancels mark s.stream)
    (hTimer : s.stream.retryTimer = none) (res : HttpResult) (timerStarts : Bool) :
    Latched cancels mark (orOnComplete lib s res timerStarts).stream ∧
      Awaits (orOnComplete lib s res timerStarts).stream := by
  have hIdle : Latched cancels mark { s.stream with req := false } := h.congr rfl rfl rfl
  have hMsg : ∀ type msg,
      Latched cancels mark (streamDestroy (fireErrorMsg { s.stream with req := false } type msg)) ∧
        Awaits (streamDestroy (fireErrorMsg { s.stream with req := false } type msg)) := by
    intro type msg
    exact ⟨(hIdle.fireErrorMsg _ _).destroy, .of_none (by simpa using hTimer)⟩
  unfold orOnComplete
  dsimp only
  split
  · exact ⟨hIdle.destroy, .of_none hTimer⟩
  split
  · exact hMsg _ _
  rename_i hLive
  split
  · split
    · exact ⟨hIdle.fireDone.destroy, .of_none (by simpa using hTimer)⟩
    · exact hMsg _ _
  split
  · apply scheduleRetry_latched hIdle hTimer
    simpa using hLive
  split
  · unfold reportHttpFailure
    split
    · exact hMsg _ _
    · exact hMsg _ _
  · exact ⟨(hIdle.toObeys.fireError _).destroy, .of_none hTimer⟩

theorem startAttempt_latched {s : OrState} (h : Latched cancels mark s.stream)
    (hLive : s.stream.finished = false) (hCancel : s.stream.cancelRequested = false)
    (start : HttpStart) : Latched cancels mark (startAttempt s start).stream := by
  have hFree : ¬Reached (Stopped cancels mark) s.stream.out := by
    intro hReached
    rcases h.flag hReached with hEnded | hCanceled
    · exact absurd (hLive.symm.trans hEnded) nofun
    · exact absurd (hCancel.symm.trans hCanceled) nofun
  have hStill : ¬Reached (Stopped cancels mark) (s.stream.out ++ [.httpRequest s.stream.body]) := by
    intro hReached
    rcases hReached.of_snoc with hStop | hReached
    · rcases stopped_snoc h.old hStop with hEnd | ⟨hText, -⟩
      · cases hEnd
      · cases hText
    · exact hFree hReached
  have hRequest : Latched cancels mark
      ((resetAttempt s.stream).emit (.httpRequest s.stream.body)) := by
    refine ⟨⟨.of_not_reached hStill, ?_⟩, fun hReached => absurd hReached hStill⟩
    intro out hMark
    have hLength := h.old out hMark
    rw [emit_out, List.length_append]
    exact Nat.le_add_right_of_le hLength
  unfold startAttempt
  dsimp only
  split
  · exact hRequest.congr rfl rfl rfl
  · apply Latched.destroy
    apply Latched.fireErrorMsg
    exact hRequest.congr rfl rfl rfl

structure Stopping (cancels : CancelsInText) (mark : List OrOutput → Prop) (s : OpenrouterStream) :
    Prop where
  sound : Sound s
  latched : Latched cancels mark s
  awaits : Awaits s

theorem orOnStatus_retryTimer (s : OpenrouterStream) (status : Int) (contentType : Option Bytes) :
    (orOnStatus s status contentType).retryTimer = s.retryTimer := by
  unfold orOnStatus
  dsimp only
  split
  · split
    · rfl
    · rfl
  · rfl

theorem startAttempt_retryTimer (s : OrState) (start : HttpStart)
    (hTimer : s.stream.retryTimer = none) : (startAttempt s start).stream.retryTimer = none := by
  unfold startAttempt
  dsimp only
  split
  · exact hTimer
  · rw [streamDestroy_retryTimer, fireErrorMsg_retryTimer]
    exact hTimer

theorem openrouterCancel_awaits (h : Awaits s) (hTimer : s.req = true → s.retryTimer = none) :
    Awaits (openrouterCancel s) := by
  unfold openrouterCancel
  split
  · exact h
  dsimp only
  split
  · rename_i hReq
    exact .of_none (hTimer hReq)
  · exact .of_none (by simp)

theorem step_stopping (s : OrState) (input : OrInput) (s' : OrState)
    (h : Stopping cancels mark s.stream) (hStep : step lib cancels s input = some s') :
    Stopping cancels mark s'.stream := by
  have hSound := step_sound s input s' h.sound hStep
  have hTransfers : s.stream.req = true → Transferring s.stream := h.sound.transferring_of_req
  cases input with
  | status status contentType =>
    obtain ⟨hReq, hStep⟩ := Option.ite_none_right_eq_some.mp hStep
    cases hStep
    refine ⟨hSound, orOnStatus_latched h.latched _ _, .of_none ?_⟩
    rw [orOnStatus_retryTimer]
    exact (hTransfers hReq).timer
  | chunk bytes =>
    obtain ⟨hReq, hStep⟩ := Option.ite_none_right_eq_some.mp hStep
    cases hStep
    have hChunk := orOnChunk_transferring lib cancels (hTransfers hReq) h.sound.counted bytes
    exact ⟨hSound, orOnChunk_latched h.latched bytes, .of_none hChunk.1.timer⟩
  | complete res timerStarts =>
    obtain ⟨hReq, hStep⟩ := Option.ite_none_right_eq_some.mp hStep
    cases hStep
    obtain ⟨hLatched, hAwaits⟩ :=
      orOnComplete_latched lib h.latched (hTransfers hReq).timer res timerStarts
    exact ⟨hSound, hLatched, hAwaits⟩
  | timer start =>
    obtain ⟨hTimer, hStep⟩ := Option.ite_none_right_eq_some.mp hStep
    cases hStep
    have hWaiting := h.sound.waiting_of_timer hTimer
    have hStopped : Latched cancels mark { s.stream with retryTimer := none } :=
      h.latched.congr rfl rfl rfl
    refine ⟨hSound, ?_, .of_none (startAttempt_retryTimer _ _ rfl)⟩
    exact startAttempt_latched (s := { s with stream := { s.stream with retryTimer := none } })
      hStopped hWaiting.live (h.awaits hTimer) start
  | cancel =>
    obtain ⟨hAlive, hStep⟩ := Option.ite_none_left_eq_some.mp hStep
    cases hStep
    refine ⟨hSound, openrouterCancel_latched h.latched.toObeys, ?_⟩
    exact openrouterCancel_awaits h.awaits fun hReq => (hTransfers hReq).timer

theorem openrouterStream_stopping {opts : OpenrouterOpts} {hrtime : UInt64} {timerInits : Bool}
    {start : HttpStart} {s : OrState}
    (h : openrouterStream lib opts hrtime timerInits start = .ok s) :
    Stopping cancels (fun _ => False) s.stream := by
  have hSound := openrouterStream_sound h
  obtain rfl := openrouterStream_eq h
  have hNew : Latched cancels (fun _ => False)
      (newStream (buildBody lib opts) (hrtime ||| 1)) := by
    have hFree : ¬Reached (Stopped cancels fun _ => False) [] := by
      rintro ⟨before, after, hOut, hMark | ⟨rest, o, rfl, -⟩⟩
      · exact hMark
      · simp at hOut
    exact ⟨⟨.of_not_reached hFree, nofun⟩, fun hReached => absurd hReached hFree⟩
  refine ⟨hSound, ?_, .of_none (startAttempt_retryTimer _ _ rfl)⟩
  exact startAttempt_latched (s := ⟨newStream (buildBody lib opts) (hrtime ||| 1),
    sseParserNew orLimits⟩) hNew rfl rfl start

theorem Stopping.cancel (h : Stopping cancels (fun _ => False) s) (hAlive : ¬Gone s) :
    Stopping cancels (· = s.out) (openrouterCancel s) := by
  have hObeys : Obeys cancels (· = s.out) s := by
    refine ⟨?_, fun out hOut => hOut ▸ le_rfl⟩
    rintro before after hOut (hMark | hStop)
    · have hNil : after = [] := by
        rw [hMark] at hOut
        exact List.self_eq_append_right.mp hOut
      exact hNil ▸ List.forall_mem_nil _
    · exact h.latched.holds before after hOut (.inr hStop)
  refine ⟨openrouterCancel_sound h.sound hAlive, openrouterCancel_latched hObeys, ?_⟩
  apply openrouterCancel_awaits h.awaits
  exact fun hReq => (h.sound.transferring_of_req hReq).timer

theorem stopsAt_noRequest {opts : OpenrouterOpts} {hrtime : UInt64} {timerInits : Bool}
    {start : HttpStart} {inputs : List OrInput} {s₀ s : OrState}
    (hOpen : openrouterStream lib opts hrtime timerInits start = .ok s₀)
    (hRun : run (step lib cancels) s₀ inputs = some s) {before after : List OrOutput}
    (hOut : s.stream.out = before ++ after) (hStop : StopsAt lib cancels s₀ inputs before) :
    ∀ o ∈ after, o.isRequest = false := by
  have hKeeps : ∀ (mark : List OrOutput → Prop) {s s' : OrState} {inputs : List OrInput},
      Stopping cancels mark s.stream → run (step lib cancels) s inputs = some s' →
        Stopping cancels mark s'.stream := by
    intro mark s s' inputs h hRun
    exact run_invariant (I := fun s : OrState => Stopping cancels mark s.stream) step_stopping h hRun
  have hStart : Stopping cancels (fun _ => False) s₀.stream := openrouterStream_stopping hOpen
  cases hStop with
  | cancel hInputs hMid =>
    rename_i inputs₁ inputs₂ mid
    rw [hInputs] at hRun
    obtain ⟨mid', hRun₁, hRun₂⟩ := run_append_eq_some.mp hRun
    obtain rfl : mid = mid' := Option.some.inj (hMid.symm.trans hRun₁)
    obtain ⟨next, hStep, hRest⟩ := run_cons_eq_some.mp hRun₂
    obtain ⟨hAlive, hStep⟩ := Option.ite_none_left_eq_some.mp hStep
    cases hStep
    have hNext := (hKeeps _ hStart hRun₁).cancel fun hGone => hAlive hGone.destroyed
    exact (hKeeps (· = mid.stream.out) hNext hRest).latched.holds _ after hOut (.inl rfl)
  | text text hCancels =>
    refine (hKeeps _ hStart hRun).latched.holds _ after hOut (.inr ⟨_, _, rfl, .inr ⟨rfl, hCancels⟩⟩)
  | terminal hTerminal =>
    exact (hKeeps _ hStart hRun).latched.holds _ after hOut (.inr ⟨_, _, rfl, .inl hTerminal⟩)

end Mua.Openrouter
