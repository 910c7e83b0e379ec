import Mua.Openrouter

/-! # What the stream functions may change

One lemma for each function of the event path: the fragments of an event touch
the tool-call slots and `delivered`, a text goes to the content and `on_text`,
and whatever stops an event reports one error.
-/

namespace Mua.Openrouter

open Sse

variable (lib : JsonLib) (cancels : CancelsInText) {s s' s'' : OpenrouterStream}

@[simp] theorem emit_out (s : OpenrouterStream) (o : OrOutput) : (s.emit o).out = s.out ++ [o] :=
  rfl

@[simp] theorem emit_finished (s : OpenrouterStream) (o : OrOutput) :
    (s.emit o).finished = s.finished := rfl

@[simp] theorem setCall_toolCalls_self (s : OpenrouterStream) (i : Fin maxToolCalls)
    (call : OrToolCall) : (s.setCall i call).toolCalls i = call := by
  simp only [OpenrouterStream.setCall, Function.update_self]

theorem setCall_toolCalls_of_ne {i j : Fin maxToolCalls} (h : j ≠ i) (s : OpenrouterStream)
    (call : OrToolCall) : (s.setCall i call).toolCalls j = s.toolCalls j := by
  simp only [OpenrouterStream.setCall, Function.update_of_ne h]

@[simp] theorem setCall_setCall (s : OpenrouterStream) (i : Fin maxToolCalls)
    (call call' : OrToolCall) : (s.setCall i call).setCall i call' = s.setCall i call' := by
  simp only [OpenrouterStream.setCall, Function.update_idem]

@[simp] theorem touch_toolCalls_self (s : OpenrouterStream) (i : Fin maxToolCalls) :
    (s.touch i).toolCalls i = { s.toolCalls i with present := true } :=
  setCall_toolCalls_self s i _

theorem touch_toolCalls_of_ne {i j : Fin maxToolCalls} (h : j ≠ i) (s : OpenrouterStream) :
    (s.touch i).toolCalls j = s.toolCalls j := setCall_toolCalls_of_ne h s _

/-- Folding fragments touches the slots and `delivered`, which is set before any slot is. -/
structure Accumulates (s s' : OpenrouterStream) : Prop where
  frame : s' =
    { s with
      toolCalls := s'.toolCalls, toolCallsHwm := s'.toolCallsHwm, delivered := s'.delivered }
  delivered : s.delivered = true → s'.delivered = true
  idle : s'.delivered = false → s'.toolCalls = s.toolCalls

namespace Accumulates

theorem refl (s : OpenrouterStream) : Accumulates s s := ⟨rfl, id, fun _ => rfl⟩

theorem trans (h : Accumulates s s') (h' : Accumulates s' s'') : Accumulates s s'' where
  frame := by rw [h'.frame, h.frame]
  delivered hs := h'.delivered (h.delivered hs)
  idle hs := by
    have hMid : s'.delivered = false := Bool.eq_false_iff.mpr fun hMid =>
      absurd (hs.symm.trans (h'.delivered hMid)) nofun
    rw [h'.idle hs, h.idle hMid]

theorem setCall (h : s.delivered = true) (i : Fin maxToolCalls) (call : OrToolCall) :
    Accumulates s (s.setCall i call) :=
  ⟨rfl, id, fun h' => absurd (h.symm.trans h') nofun⟩

theorem touch (s : OpenrouterStream) (i : Fin maxToolCalls) : Accumulates s (s.touch i) :=
  ⟨rfl, fun _ => rfl, nofun⟩

theorem out (h : Accumulates s s') : s'.out = s.out := by rw [h.frame]

theorem finished (h : Accumulates s s') : s'.finished = s.finished := by rw [h.frame]

theorem content (h : Accumulates s s') : s'.content = s.content := by rw [h.frame]

end Accumulates

/-- A stage of an event either goes on in a state of `P`, or reports an error from one. -/
inductive Proceeds (P : OpenrouterStream → Prop) : OpenrouterStream × Bool → Prop
  | goesOn {s' : OpenrouterStream} (h : P s') : Proceeds P (s', true)
  | reports {s' : OpenrouterStream} (h : P s') (msg : Bytes) :
    Proceeds P (fireErrorMsg s' .exception msg, false)

theorem Proceeds.mono {P Q : OpenrouterStream → Prop} {r : OpenrouterStream × Bool}
    (h : Proceeds P r) (hImp : ∀ s, P s → Q s) : Proceeds Q r := by
  cases h with
  | goesOn hP => exact .goesOn (hImp _ hP)
  | reports hP msg => exact .reports (hImp _ hP) msg

theorem accumulateFunction_proceeds (h : s.delivered = true) (i : Fin maxToolCalls)
    (function : CJson) : Proceeds (Accumulates s) (accumulateFunction s i function) := by
  unfold accumulateFunction
  split
  · exact .reports (.refl s) _
  · dsimp only
    split
    · exact .goesOn (.setCall h i _)
    · split
      · exact .reports (.setCall h i _) _
      · rw [setCall_setCall]
        exact .goesOn (.setCall h i _)

theorem accumulateFragment_proceeds (s : OpenrouterStream) (i : Fin maxToolCalls) (item : CJson) :
    Proceeds (Accumulates s) (accumulateFragment s i item) := by
  unfold accumulateFragment
  dsimp only
  split
  · exact .reports (.touch s i) _
  · have hId := fun call => (Accumulates.touch s i).trans (.setCall rfl i call)
    split
    · exact .goesOn (hId _)
    · exact (accumulateFunction_proceeds rfl i _).mono fun t h => (hId _).trans h

theorem accumulateToolCalls_proceeds (s : OpenrouterStream) (count : Nat) (items : List CJson) :
    Proceeds (Accumulates s) (accumulateToolCalls lib s count items) := by
  induction items generalizing s count with
  | nil => exact .goesOn (.refl s)
  | cons item items ih =>
    rw [accumulateToolCalls]
    split
    · exact .reports (.refl s) _
    · split
      · exact .reports (.refl s) _
      · rename_i index _
        have hItem := accumulateFragment_proceeds s index item
        split
        · rename_i mid heq
          rw [heq] at hItem
          cases hItem with
          | goesOn h => exact (ih mid _).mono fun t ht => h.trans ht
        · rename_i mid heq
          rw [heq] at hItem
          exact hItem

theorem handleCalls_proceeds (s : OpenrouterStream) (delta : Option CJson) :
    Proceeds (Accumulates s) (handleCalls lib s delta) := by
  unfold handleCalls
  split
  · exact .goesOn (.refl s)
  · exact accumulateToolCalls_proceeds lib s 0 _

structure SameRun (s s' : OpenrouterStream) : Prop where
  out : s'.out = s.out
  finished : s'.finished = s.finished
  req : s'.req = s.req
  retryTimer : s'.retryTimer = s.retryTimer
  attempt : s'.attempt = s.attempt
  delivered : s.delivered = true → s'.delivered = true
  idle : s'.delivered = false → s'.toolCalls = s.toolCalls

/-- What the handling of an event does step by step, short of handing over the message. -/
inductive Emits : OpenrouterStream → OpenrouterStream → Prop
  | silent {s s' : OpenrouterStream} (hSame : SameRun s s') : Emits s s'
  | text {s : OpenrouterStream} (text : Bytes) (hLive : s.finished = false) :
    Emits s ({ s with delivered := true }.emit (.onText text))
  | error {s : OpenrouterStream} (err : Error) (hLive : s.finished = false) :
    Emits s (fireError s err)
  | canceled {s : OpenrouterStream} (hLive : s.finished = false) (hReq : s.req = false) :
    Emits s (streamDestroy (fireError { s with cancelRequested := true, retryTimer := none }
      ⟨.exception, ascii "canceled"⟩))
  | trans {s s' s'' : OpenrouterStream} (h : Emits s s') (h' : Emits s' s'') : Emits s s''

theorem SameRun.refl (s : OpenrouterStream) : SameRun s s := ⟨rfl, rfl, rfl, rfl, rfl, id, fun _ => rfl⟩

theorem Emits.refl (s : OpenrouterStream) : Emits s s := .silent (.refl s)

theorem Accumulates.emits (h : Accumulates s s') : Emits s s' := by
  refine .silent ⟨h.out, h.finished, ?_, ?_, ?_, h.delivered, h.idle⟩
  all_goals rw [h.frame]

theorem fireErrorMsg_emits (s : OpenrouterStream) (type : ErrorType) (msg : Bytes) :
    Emits s (fireErrorMsg s type msg) := by
  unfold fireErrorMsg
  split
  · exact .refl s
  · rename_i hLive
    exact .error _ (by simpa using hLive)

theorem openrouterCancel_emits (s : OpenrouterStream) : Emits s (openrouterCancel s) := by
  unfold openrouterCancel
  dsimp only
  split
  · exact .refl s
  · rename_i hLive
    have hLive : s.finished = false := by simp_all
    split
    · exact .silent ⟨rfl, rfl, rfl, rfl, rfl, id, fun _ => rfl⟩
    · rename_i hReq
      rw [fireErrorMsg, if_neg (by simp [hLive])]
      exact .canceled hLive (by simpa using hReq)

theorem fireText_emits (hLive : s.finished = false) (text : Bytes) :
    Emits s (fireText cancels s text) := by
  unfold fireText
  dsimp only
  split
  · exact (Emits.text text hLive).trans (openrouterCancel_emits _)
  · exact .text text hLive

theorem Proceeds.emits {r : OpenrouterStream × Bool} (h : Proceeds (Accumulates s) r) :
    Emits s r.1 := by
  cases h with
  | goesOn hA => exact hA.emits
  | reports hA msg => exact hA.emits.trans (fireErrorMsg_emits _ _ _)

theorem handleContent_emits (hLive : s.finished = false) (delta : Option CJson) :
    Emits s (handleContent cancels s delta).1 := by
  unfold handleContent
  split
  · exact .refl s
  · split
    · exact fireErrorMsg_emits _ _ _
    · rename_i buf _
      have hBuf : Emits s { s with content := buf } := .silent ⟨rfl, rfl, rfl, rfl, rfl, id, fun _ => rfl⟩
      exact hBuf.trans (fireText_emits cancels (s := { s with content := buf }) hLive _)

theorem handleFinish_emits (s : OpenrouterStream) (choice : CJson) :
    Emits s (handleFinish s choice) := by
  unfold handleFinish
  split
  · exact .refl s
  · exact .silent ⟨rfl, rfl, rfl, rfl, rfl, id, fun _ => rfl⟩

theorem handleUsage_emits (s : OpenrouterStream) (doc : CJson) : Emits s (handleUsage lib s doc) := by
  unfold handleUsage
  split
  · exact .refl s
  · exact .silent ⟨rfl, rfl, rfl, rfl, rfl, id, fun _ => rfl⟩

theorem handleChoice_emits (hLive : s.finished = false) (choice : CJson) :
    Emits s (handleChoice lib cancels s choice).1 := by
  unfold handleChoice
  dsimp only
  have hContent := handleContent_emits cancels hLive (jsonGetObj choice (ascii "delta"))
  split
  · rename_i mid heq
    rw [heq] at hContent
    exact hContent
  · rename_i mid heq
    rw [heq] at hContent
    have hCalls := (handleCalls_proceeds lib mid (jsonGetObj choice (ascii "delta"))).emits
    split
    · rename_i mid' heq'
      rw [heq'] at hCalls
      exact hContent.trans hCalls
    · rename_i mid' heq'
      rw [heq'] at hCalls
      exact (hContent.trans hCalls).trans (handleFinish_emits _ choice)

theorem handleDoc_emits (hLive : s.finished = false) (doc : CJson) :
    Emits s (handleDoc lib cancels s doc).1 := by
  unfold handleDoc
  split
  · exact .error _ hLive
  · split
    · exact handleUsage_emits lib s doc
    · rename_i choice _
      have hChoice := handleChoice_emits lib cancels hLive choice
      split
      · rename_i mid heq
        rw [heq] at hChoice
        exact hChoice
      · rename_i mid heq
        rw [heq] at hChoice
        exact hChoice.trans (handleUsage_emits lib mid doc)

theorem handleEvent_emits (s : OpenrouterStream) {data : Bytes} (hData : data ≠ ascii "[DONE]") :
    Emits s (handleEvent lib cancels s data).1 := by
  unfold handleEvent
  rw [if_neg hData]
  split
  · exact .refl s
  · rename_i hLive
    split
    · exact fireErrorMsg_emits _ _ _
    · exact handleDoc_emits lib cancels (by simpa using hLive) _

theorem Emits.live (h : Emits s s') (hLive : s'.finished = false) : s.finished = false := by
  induction h with
  | silent hSame => exact hSame.finished.symm.trans hLive
  | text _ hOpen => exact hOpen
  | error _ hOpen => exact hOpen
  | canceled hOpen _ => exact hOpen
  | trans _ _ ih ih' => exact ih (ih' hLive)

end Mua.Openrouter
