import Mathlib.Data.List.Induction
import Mua.OpenrouterRun

/-! # A retry starts afresh

Two streams are alike when the fields of the attempt agree; what tells them
apart (attempt number, cancellation, random state, older history) is not read
while a response is handled. After `start_attempt` every stream is alike to a
new one, so what it hands over is what a new stream would hand over.
-/

namespace Mua.Openrouter

open Sse Run

structure AttemptFields where
  errorBody : Buf kOrErrorBodyCap
  errorBodyTruncated : Bool
  mode : OrMode
  wrongCtype : Bool
  httpStatus : Int
  finished : Bool
  finishReason : FixedStr kOrFinishReasonCap
  usage : Usage
  content : Buf kOrContentCap
  toolCalls : Fin maxToolCalls → OrToolCall
  toolCallsHwm : Nat

def OpenrouterStream.fields (s : OpenrouterStream) : AttemptFields where
  errorBody := s.errorBody
  errorBodyTruncated := s.errorBodyTruncated
  mode := s.mode
  wrongCtype := s.wrongCtype
  httpStatus := s.httpStatus
  finished := s.finished
  finishReason := s.finishReason
  usage := ⟨s.promptTokens, s.completionTokens, s.totalTokens⟩
  content := s.content
  toolCalls := s.toolCalls
  toolCallsHwm := s.toolCallsHwm

def never : CancelsInText := fun _ => false

/-- Equal fields, and the same callbacks since the histories `pre` and `pre'`. -/
structure Alike (inFlight : Bool) (pre pre' : List OrOutput) (s f : OpenrouterStream) : Prop where
  fields : s.fields = f.fields
  req : s.req = inFlight ∧ f.req = inFlight
  out : ∃ new, s.out = pre ++ new ∧ f.out = pre' ++ new
  uncanceled : f.cancelRequested = false

def AlikeResult (inFlight : Bool) (pre pre' : List OrOutput) (r r' : OpenrouterStream × Bool) :
    Prop :=
  Alike inFlight pre pre' r.1 r'.1 ∧ r.2 = r'.2

variable {b : Bool} {pre pre' : List OrOutput} {s f s' f' : OpenrouterStream}

namespace Alike

theorem finished (h : Alike b pre pre' s f) : s.finished = f.finished :=
  congrArg AttemptFields.finished h.fields

theorem toolCalls (h : Alike b pre pre' s f) : s.toolCalls = f.toolCalls :=
  congrArg AttemptFields.toolCalls h.fields

theorem hwm (h : Alike b pre pre' s f) : s.toolCallsHwm = f.toolCallsHwm :=
  congrArg AttemptFields.toolCallsHwm h.fields

theorem content (h : Alike b pre pre' s f) : s.content = f.content :=
  congrArg AttemptFields.content h.fields

theorem finishReason (h : Alike b pre pre' s f) : s.finishReason.data = f.finishReason.data :=
  congrArg (fun a : AttemptFields => a.finishReason.data) h.fields

theorem usage (h : Alike b pre pre' s f) :
    (⟨s.promptTokens, s.completionTokens, s.totalTokens⟩ : Usage) =
      ⟨f.promptTokens, f.completionTokens, f.totalTokens⟩ :=
  congrArg AttemptFields.usage h.fields

theorem mode (h : Alike b pre pre' s f) : s.mode = f.mode := congrArg AttemptFields.mode h.fields

theorem errorBody (h : Alike b pre pre' s f) : s.errorBody = f.errorBody :=
  congrArg AttemptFields.errorBody h.fields

theorem map (h : Alike b pre pre' s f) (g : AttemptFields → AttemptFields)
    (hs : s'.fields = g s.fields ∧ s'.req = s.req ∧ s'.out = s.out)
    (hf : f'.fields = g f.fields ∧ f'.req = f.req ∧ f'.out = f.out)
    (hCanceled : f'.cancelRequested = f.cancelRequested) : Alike b pre pre' s' f' where
  fields := by rw [hs.1, hf.1, h.fields]
  req := ⟨hs.2.1.trans h.req.1, hf.2.1.trans h.req.2⟩
  out := by rw [hs.2.2, hf.2.2]; exact h.out
  uncanceled := hCanceled.trans h.uncanceled

theorem emit (h : Alike b pre pre' s f) (o : OrOutput) : Alike b pre pre' (s.emit o) (f.emit o) where
  fields := h.fields
  req := h.req
  out := by
    obtain ⟨new, hs, hf⟩ := h.out
    refine ⟨new ++ [o], ?_, ?_⟩
    · rw [emit_out, hs, List.append_assoc]
    · rw [emit_out, hf, List.append_assoc]
  uncanceled := h.uncanceled

theorem setCall (h : Alike b pre pre' s f) (i : Fin maxToolCalls) (call : OrToolCall) :
    Alike b pre pre' (s.setCall i call) (f.setCall i call) :=
  h.map (fun a => { a with toolCalls := Function.update a.toolCalls i call })
    ⟨rfl, rfl, rfl⟩ ⟨rfl, rfl, rfl⟩ rfl

theorem touch (h : Alike b pre pre' s f) (i : Fin maxToolCalls) :
    Alike b pre pre' (s.touch i) (f.touch i) :=
  h.map (fun a => { a with
    toolCalls := Function.update a.toolCalls i { a.toolCalls i with present := true }
    toolCallsHwm := max a.toolCallsHwm (i.val + 1) }) ⟨rfl, rfl, rfl⟩ ⟨rfl, rfl, rfl⟩ rfl

theorem finish (h : Alike b pre pre' s f) :
    Alike b pre pre' { s with finished := true } { f with finished := true } :=
  h.map (fun a => { a with finished := true }) ⟨rfl, rfl, rfl⟩ ⟨rfl, rfl, rfl⟩ rfl

theorem fireError (h : Alike b pre pre' s f) (err : Error) :
    Alike b pre pre' (fireError s err) (fireError f err) :=
  h.finish.emit _

theorem fireErrorMsg (h : Alike b pre pre' s f) (type : ErrorType) (msg : Bytes) :
    Alike b pre pre' (fireErrorMsg s type msg) (fireErrorMsg f type msg) := by
  unfold Openrouter.fireErrorMsg
  rw [h.finished]
  split
  · exact h
  · exact h.fireError _

theorem slots (h : Alike b pre pre' s f) : s.slots = f.slots := by
  unfold OpenrouterStream.slots
  rw [h.toolCalls, h.hwm]

theorem fireDone (h : Alike b pre pre' s f) : Alike b pre pre' (fireDone s) (fireDone f) := by
  have hMessage : assembleMessage s = assembleMessage f := by
    unfold assembleMessage
    rw [h.slots, h.content]
  unfold Openrouter.fireDone
  rw [h.finished, h.slots, hMessage, h.finishReason, h.usage]
  split
  · exact h
  · split
    · exact h.fireErrorMsg _ _
    · exact h.finish.emit _

theorem accumulateFunction (h : Alike b pre pre' s f) (i : Fin maxToolCalls) (function : CJson) :
    AlikeResult b pre pre' (accumulateFunction s i function) (accumulateFunction f i function) := by
  unfold Openrouter.accumulateFunction
  rw [h.toolCalls]
  split
  · exact ⟨h.fireErrorMsg _ _, rfl⟩
  · dsimp only
    simp only [setCall_toolCalls_self, setCall_setCall]
    split
    · exact ⟨h.setCall i _, rfl⟩
    · split
      · exact ⟨(h.setCall i _).fireErrorMsg _ _, rfl⟩
      · exact ⟨h.setCall i _, rfl⟩

theorem accumulateFragment (h : Alike b pre pre' s f) (i : Fin maxToolCalls) (item : CJson) :
    AlikeResult b pre pre' (accumulateFragment s i item) (accumulateFragment f i item) := by
  unfold Openrouter.accumulateFragment
  dsimp only
  rw [(h.touch i).toolCalls]
  split
  · exact ⟨(h.touch i).fireErrorMsg _ _, rfl⟩
  · split
    · exact ⟨(h.touch i).setCall i _, rfl⟩
    · exact ((h.touch i).setCall i _).accumulateFunction i _

theorem accumulateToolCalls (h : Alike b pre pre' s f) (lib : JsonLib) (count : Nat)
    (items : List CJson) : AlikeResult b pre pre' (accumulateToolCalls lib s count items)
      (accumulateToolCalls lib f count items) := by
  induction items generalizing s f count with
  | nil => exact ⟨h, rfl⟩
  | cons item items ih =>
    rw [Openrouter.accumulateToolCalls, Openrouter.accumulateToolCalls]
    split
    · exact ⟨h.fireErrorMsg _ _, rfl⟩
    · split
      · exact ⟨h.fireErrorMsg _ _, rfl⟩
      · rename_i index _
        have hItem := h.accumulateFragment index item
        generalize Openrouter.accumulateFragment s index item = r at hItem
        generalize Openrouter.accumulateFragment f index item = r' at hItem
        obtain ⟨s', ok⟩ := r
        obtain ⟨f', ok'⟩ := r'
        obtain ⟨hAlike, hOk⟩ := hItem
        cases hOk
        cases ok with
        | true => exact ih hAlike _
        | false => exact ⟨hAlike, rfl⟩

theorem handleCalls (h : Alike b pre pre' s f) (lib : JsonLib) (delta : Option CJson) :
    AlikeResult b pre pre' (handleCalls lib s delta) (handleCalls lib f delta) := by
  unfold Openrouter.handleCalls
  split
  · exact ⟨h, rfl⟩
  · exact h.accumulateToolCalls lib 0 _

theorem cancel (h : Alike true pre pre' s f) : Alike true pre pre' (openrouterCancel s) f := by
  unfold openrouterCancel
  dsimp only
  split
  · exact h
  · rw [if_pos h.req.1]
    exact ⟨h.fields, h.req, h.out, h.uncanceled⟩

theorem fireText (h : Alike true pre pre' s f) (cancels : CancelsInText) (text : Bytes) :
    Alike true pre pre' (fireText cancels s text) (fireText never f text) := by
  have hDelivered : Alike true pre pre' { s with delivered := true } { f with delivered := true } :=
    h.map id ⟨rfl, rfl, rfl⟩ ⟨rfl, rfl, rfl⟩ rfl
  have hText := hDelivered.emit (.onText text)
  unfold Openrouter.fireText
  dsimp only
  rw [if_neg (show ¬never _ = true from nofun)]
  split
  · exact hText.cancel
  · exact hText

theorem handleContent (h : Alike true pre pre' s f) (cancels : CancelsInText) (delta : Option CJson) :
    AlikeResult true pre pre' (handleContent cancels s delta) (handleContent never f delta) := by
  unfold Openrouter.handleContent
  rw [h.content]
  split
  · exact ⟨h, rfl⟩
  · split
    · exact ⟨h.fireErrorMsg _ _, rfl⟩
    · rename_i buf _
      have hBuf : Alike true pre pre' { s with content := buf } { f with content := buf } :=
        h.map (fun a => { a with content := buf }) ⟨rfl, rfl, rfl⟩ ⟨rfl, rfl, rfl⟩ rfl
      exact ⟨hBuf.fireText cancels _, rfl⟩

theorem handleFinish (h : Alike b pre pre' s f) (choice : CJson) :
    Alike b pre pre' (handleFinish s choice) (handleFinish f choice) := by
  unfold Openrouter.handleFinish
  split
  · exact h
  · rename_i finish _
    exact h.map (fun a => { a with finishReason := boundedReason finish })
      ⟨rfl, rfl, rfl⟩ ⟨rfl, rfl, rfl⟩ rfl

theorem handleUsage (h : Alike b pre pre' s f) (lib : JsonLib) (doc : CJson) :
    Alike b pre pre' (handleUsage lib s doc) (handleUsage lib f doc) := by
  unfold Openrouter.handleUsage
  split
  · exact h
  · rename_i usage _
    exact h.map (fun a => { a with usage :=
      ⟨(jsonGetInt lib usage (ascii "prompt_tokens")).getD a.usage.promptTokens,
        (jsonGetInt lib usage (ascii "completion_tokens")).getD a.usage.completionTokens,
        (jsonGetInt lib usage (ascii "total_tokens")).getD a.usage.totalTokens⟩ })
      ⟨rfl, rfl, rfl⟩ ⟨rfl, rfl, rfl⟩ rfl

theorem handleChoice (h : Alike true pre pre' s f) (lib : JsonLib) (cancels : CancelsInText)
    (choice : CJson) : AlikeResult true pre pre' (handleChoice lib cancels s choice)
      (handleChoice lib never f choice) := by
  unfold Openrouter.handleChoice
  dsimp only
  have hContent := h.handleContent cancels (jsonGetObj choice (ascii "delta"))
  generalize Openrouter.handleContent cancels s _ = r at hContent
  generalize Openrouter.handleContent never f _ = r' at hContent
  obtain ⟨s₁, ok⟩ := r
  obtain ⟨f₁, ok'⟩ := r'
  obtain ⟨hAlike, hOk⟩ := hContent
  cases hOk
  cases ok with
  | false => exact ⟨hAlike, rfl⟩
  | true =>
    have hCalls := hAlike.handleCalls lib (jsonGetObj choice (ascii "delta"))
    dsimp only
    generalize Openrouter.handleCalls lib s₁ _ = r at hCalls
    generalize Openrouter.handleCalls lib f₁ _ = r' at hCalls
    obtain ⟨s₂, ok⟩ := r
    obtain ⟨f₂, ok'⟩ := r'
    obtain ⟨hAlike, hOk⟩ := hCalls
    cases hOk
    cases ok with
    | false => exact ⟨hAlike, rfl⟩
    | true => exact ⟨hAlike.handleFinish choice, rfl⟩

theorem handleDoc (h : Alike true pre pre' s f) (lib : JsonLib) (cancels : CancelsInText)
    (doc : CJson) : AlikeResult true pre pre' (handleDoc lib cancels s doc)
      (handleDoc lib never f doc) := by
  unfold Openrouter.handleDoc
  split
  · exact ⟨h.fireError _, rfl⟩
  · split
    · exact ⟨h.handleUsage lib doc, rfl⟩
    · rename_i choice _
      have hChoice := h.handleChoice lib cancels choice
      generalize Openrouter.handleChoice lib cancels s _ = r at hChoice
      generalize Openrouter.handleChoice lib never f _ = r' at hChoice
      obtain ⟨s₁, ok⟩ := r
      obtain ⟨f₁, ok'⟩ := r'
      obtain ⟨hAlike, hOk⟩ := hChoice
      cases hOk
      cases ok with
      | false => exact ⟨hAlike, rfl⟩
      | true => exact ⟨hAlike.handleUsage lib doc, rfl⟩

theorem handleEvent (h : Alike true pre pre' s f) (lib : JsonLib) (cancels : CancelsInText)
    (data : Bytes) : AlikeResult true pre pre' (handleEvent lib cancels s data)
      (handleEvent lib never f data) := by
  unfold Openrouter.handleEvent
  rw [h.finished]
  split
  · exact ⟨h, rfl⟩
  · split
    · exact ⟨h.fireDone, rfl⟩
    · split
      · exact ⟨h.fireErrorMsg _ _, rfl⟩
      · exact h.handleDoc lib cancels _

theorem orOnStatus (h : Alike b pre pre' s f) (status : Int) (contentType : Option Bytes) :
    Alike b pre pre' (orOnStatus s status contentType) (orOnStatus f status contentType) := by
  unfold Openrouter.orOnStatus
  dsimp only
  split
  · split
    · exact h.map (fun a => { a with httpStatus := status, mode := .sse })
        ⟨rfl, rfl, rfl⟩ ⟨rfl, rfl, rfl⟩ rfl
    · exact h.map (fun a => { a with httpStatus := status, mode := .errorBody, wrongCtype := true })
        ⟨rfl, rfl, rfl⟩ ⟨rfl, rfl, rfl⟩ rfl
  · exact h.map (fun a => { a with httpStatus := status, mode := .errorBody })
      ⟨rfl, rfl, rfl⟩ ⟨rfl, rfl, rfl⟩ rfl

end Alike

structure AlikeState (pre pre' : List OrOutput) (s f : OrState) : Prop where
  stream : Alike true pre pre' s.stream f.stream
  sse : s.sse = f.sse

theorem AlikeState.orOnChunk {s f : OrState} (h : AlikeState pre pre' s f) (lib : JsonLib)
    (cancels : CancelsInText) (bytes : Bytes) :
    AlikeState pre pre' (orOnChunk lib cancels s bytes).1 (orOnChunk lib never f bytes).1 := by
  unfold Openrouter.orOnChunk
  rw [h.stream.mode, h.stream.errorBody]
  split
  · have hVerdict : SameVerdict (Alike true pre pre') (orOnEvent lib cancels) (orOnEvent lib never) :=
      fun _ _ event hAlike => hAlike.handleEvent lib cancels event.data
    have hFeed := sseParserFeed_same hVerdict s.sse h.stream bytes
    rw [h.sse] at hFeed ⊢
    generalize sseParserFeed (orOnEvent lib cancels) f.sse s.stream bytes = r at hFeed
    generalize sseParserFeed (orOnEvent lib never) f.sse f.stream bytes = r' at hFeed
    obtain ⟨p, u, err⟩ := r
    obtain ⟨p', u', err'⟩ := r'
    obtain ⟨hParser, hUd, hErr⟩ := hFeed
    cases hParser
    cases hErr
    cases err with
    | some err => exact ⟨hUd.fireErrorMsg _ _, rfl⟩
    | none => exact ⟨hUd, rfl⟩
  · split
    · rename_i errorBody _
      exact ⟨h.stream.map (fun a => { a with errorBody := errorBody })
        ⟨rfl, rfl, rfl⟩ ⟨rfl, rfl, rfl⟩ rfl, h.sse⟩
    · exact ⟨h.stream.map (fun a => { a with errorBodyTruncated := true })
        ⟨rfl, rfl, rfl⟩ ⟨rfl, rfl, rfl⟩ rfl, h.sse⟩

def Done (message : CJson) (reason : Bytes) (usage : Usage) (s : OpenrouterStream) : Prop :=
  .onDone message reason usage ∈ s.out

section Done

variable {message : CJson} {reason : Bytes} {usage : Usage}

theorem done_congr (hOut : s'.out = s.out) : Done message reason usage s' ↔ Done message reason usage s := by
  rw [Done, Done, hOut]

theorem done_destroy : Done message reason usage (streamDestroy s) ↔ Done message reason usage s := by
  simp [Done, streamDestroy]

theorem done_fireError (err : Error) :
    Done message reason usage (fireError s err) ↔ Done message reason usage s := by
  simp [Done, fireError]

theorem done_fireErrorMsg (type : ErrorType) (msg : Bytes) :
    Done message reason usage (fireErrorMsg s type msg) ↔ Done message reason usage s := by
  unfold fireErrorMsg
  split
  · exact Iff.rfl
  · exact done_fireError _

theorem done_scheduleRetry (retryAfterS : Int) (timerStarts : Bool) :
    Done message reason usage (scheduleRetry s retryAfterS timerStarts) ↔
      Done message reason usage s := by
  unfold scheduleRetry
  dsimp only
  split
  · exact done_congr rfl
  · rw [done_destroy, done_fireErrorMsg]
    exact done_congr rfl

theorem done_reportHttpFailure (lib : JsonLib) :
    Done message reason usage (reportHttpFailure lib s) ↔ Done message reason usage s := by
  unfold reportHttpFailure
  split <;> exact done_fireErrorMsg _ _

theorem done_fireDone_of_done (h : Done message reason usage s) :
    Done message reason usage (fireDone s) := by
  unfold fireDone
  split
  · exact h
  · split
    · exact (done_fireErrorMsg _ _).mpr h
    · exact List.mem_append_left _ h

/-- The one completion that hands a message over: a clean end of stream after a reason. -/
def CleanEnd (s : OrState) (res : HttpResult) : Prop :=
  s.stream.finished = false ∧ s.stream.cancelRequested = false ∧
    (s.stream.mode = .sse ∧ res.result = .ok) ∧
    (s.stream.finishReason.data ≠ [] ∧ sseParserFinish s.sse = .clean)

instance (s : OrState) (res : HttpResult) : Decidable (CleanEnd s res) :=
  inferInstanceAs (Decidable (_ ∧ _ ∧ (_ ∧ _) ∧ (_ ∧ _)))

theorem done_orOnComplete (lib : JsonLib) (s : OrState) (res : HttpResult) (timerStarts : Bool) :
    Done message reason usage (orOnComplete lib s res timerStarts).stream ↔
      if CleanEnd s res then Done message reason usage (fireDone { s.stream with req := false })
      else Done message reason usage { s.stream with req := false } := by
  unfold orOnComplete
  dsimp only
  split
  · rename_i hFinished
    have hNot : ¬CleanEnd s res := fun h => absurd (h.1.symm.trans hFinished) nofun
    rw [if_neg hNot, done_destroy]
  · rename_i hLive
    split
    · rename_i hCanceled
      have hNot : ¬CleanEnd s res := fun h => absurd (h.2.1.symm.trans hCanceled) nofun
      rw [if_neg hNot, done_destroy, done_fireErrorMsg]
    · rename_i hUncanceled
      split
      · rename_i hOk
        split
        · rename_i hClean
          have hEnd : CleanEnd s res := ⟨by simpa using hLive, by simpa using hUncanceled, hOk, hClean⟩
          rw [if_pos hEnd, done_destroy]
        · rename_i hClean
          have hNot : ¬CleanEnd s res := fun h => hClean h.2.2.2
          rw [if_neg hNot, done_destroy, done_fireErrorMsg]
      · rename_i hOk
        have hNot : ¬CleanEnd s res := fun h => hOk h.2.2.1
        rw [if_neg hNot]
        split
        · exact done_scheduleRetry _ _
        · split
          · rw [done_destroy, done_reportHttpFailure]
          · rw [done_destroy, done_fireError]

theorem Alike.done (h : Alike b pre pre' s f)
    (hPre : ¬.onDone message reason usage ∈ pre) (hDone : Done message reason usage s) :
    Done message reason usage f := by
  obtain ⟨new, hs, hf⟩ := h.out
  rw [Done, hs] at hDone
  rw [Done, hf]
  exact List.mem_append_right _ ((List.mem_append.mp hDone).resolve_left hPre)

theorem AlikeState.orOnComplete {s f : OrState} (h : AlikeState pre pre' s f) (lib : JsonLib)
    (res : HttpResult) (timerStarts : Bool)
    (hPre : ¬.onDone message reason usage ∈ pre)
    (hDone : Done message reason usage (orOnComplete lib s res timerStarts).stream) :
    Done message reason usage (orOnComplete lib f res timerStarts).stream := by
  have hIdle : Alike false pre pre' { s.stream with req := false } { f.stream with req := false } :=
    ⟨h.stream.fields, ⟨rfl, rfl⟩, h.stream.out, h.stream.uncanceled⟩
  rw [done_orOnComplete] at hDone ⊢
  by_cases hEnd : CleanEnd s res
  · have hEnd' : CleanEnd f res := by
      obtain ⟨hLive, -, hMode, hReason, hSse⟩ := hEnd
      rw [h.stream.finished] at hLive
      rw [h.stream.mode] at hMode
      rw [h.stream.finishReason] at hReason
      rw [h.sse] at hSse
      exact ⟨hLive, h.stream.uncanceled, hMode, hReason, hSse⟩
    rw [if_pos hEnd] at hDone
    rw [if_pos hEnd']
    exact hIdle.fireDone.done hPre hDone
  · rw [if_neg hEnd] at hDone
    have hDone' := hIdle.done hPre hDone
    split
    · exact done_fireDone_of_done hDone'
    · exact hDone'

theorem done_openrouterCancel :
    Done message reason usage (openrouterCancel s) ↔ Done message reason usage s := by
  unfold openrouterCancel
  dsimp only
  split
  · exact Iff.rfl
  · split
    · exact done_congr rfl
    · rw [done_destroy, done_fireErrorMsg]
      exact done_congr rfl

end Done

structure Carries (s s' : OpenrouterStream) : Prop where
  req : s'.req = s.req
  attempt : s'.attempt = s.attempt
  delivered : s'.delivered = s.delivered

theorem Carries.refl (s : OpenrouterStream) : Carries s s := ⟨rfl, rfl, rfl⟩

theorem fireErrorMsg_carries (s : OpenrouterStream) (type : ErrorType) (msg : Bytes) :
    Carries s (fireErrorMsg s type msg) := by
  unfold fireErrorMsg
  split
  · exact .refl s
  · exact ⟨rfl, rfl, rfl⟩

theorem Carries.destroy (h : Carries s s') : Carries s (streamDestroy s') :=
  ⟨h.req, h.attempt, h.delivered⟩

theorem openrouterCancel_carries (s : OpenrouterStream) : Carries s (openrouterCancel s) := by
  unfold openrouterCancel
  dsimp only
  split
  · exact .refl s
  · split
    · exact ⟨rfl, rfl, rfl⟩
    · have h := fireErrorMsg_carries { s with cancelRequested := true, retryTimer := none }
        .exception (ascii "canceled")
      exact ⟨h.req, h.attempt, h.delivered⟩

theorem fireDone_carries (s : OpenrouterStream) : Carries s (fireDone s) := by
  unfold fireDone
  split
  · exact .refl s
  · split
    · exact fireErrorMsg_carries _ _ _
    · exact ⟨rfl, rfl, rfl⟩

theorem scheduleRetry_carries (s : OpenrouterStream) (retryAfterS : Int) (timerStarts : Bool) :
    Carries s (scheduleRetry s retryAfterS timerStarts) := by
  unfold scheduleRetry
  dsimp only
  split
  · exact ⟨rfl, rfl, rfl⟩
  · have h := fireErrorMsg_carries { s with prngState := prngNext s.prngState } .exception
      (ascii "failed to schedule a retry")
    exact ⟨h.req, h.attempt, h.delivered⟩

theorem orOnComplete_carries (lib : JsonLib) (s : OrState) (res : HttpResult) (timerStarts : Bool) :
    Carries { s.stream with req := false } (orOnComplete lib s res timerStarts).stream := by
  unfold orOnComplete
  dsimp only
  split
  · exact (Carries.refl _).destroy
  · split
    · exact (fireErrorMsg_carries _ _ _).destroy
    · split
      · split
        · exact (fireDone_carries _).destroy
        · exact (fireErrorMsg_carries _ _ _).destroy
      · split
        · exact scheduleRetry_carries _ _ _
        · split
          · unfold reportHttpFailure
            split <;> exact (fireErrorMsg_carries _ _ _).destroy
          · exact ⟨rfl, rfl, rfl⟩

def lastAttempt (inputs : List OrInput) : List OrInput :=
  inputs.foldl (fun acc input => match input with
    | .timer _ => []
    | input => acc ++ [input]) []

/-- Status, body chunks and completion: what the server and the transport contribute. -/
def transferInputs (inputs : List OrInput) : List OrInput :=
  inputs.filter fun input => match input with
    | .status _ _ | .chunk _ | .complete _ _ => true
    | .timer _ | .cancel => false

def freshAttempt (body : Bytes) (seed : UInt64) : OrState :=
  startAttempt ⟨newStream body seed, sseParserNew orLimits⟩ .started

/-- Either both are in flight and alike, or the attempt is over and its message, if any, is
the new stream's. -/
inductive Linked (message : CJson) (reason : Bytes) (usage : Usage) (s f : OrState) : Prop
  | inFlight (pre pre' : List OrOutput) (hPre : ¬.onDone message reason usage ∈ pre)
    (h : AlikeState pre pre' s f)
  | ended (hReq : s.stream.req = false)
    (h : Done message reason usage s.stream → Done message reason usage f.stream)

section Runs

variable {lib : JsonLib} {cancels : CancelsInText} {message : CJson} {reason : Bytes} {usage : Usage}

theorem Quiet.not_done {out : List OrOutput} (h : Quiet out) :
    ¬.onDone message reason usage ∈ out := fun hMem => absurd (h _ hMem).1 nofun

theorem startAttempt_linked {s : OrState} (h : Settled s.stream) (start : HttpStart) (body : Bytes)
    (seed : UInt64) :
    Linked message reason usage (startAttempt s start) (freshAttempt body seed) := by
  have hQuiet : Quiet (s.stream.out ++ [.httpRequest s.stream.body]) := h.quiet.append rfl rfl
  cases start with
  | started =>
    refine .inFlight (s.stream.out ++ [.httpRequest s.stream.body]) [.httpRequest body]
      hQuiet.not_done ⟨⟨?_, ⟨rfl, rfl⟩, ⟨[], (List.append_nil _).symm, rfl⟩, rfl⟩, rfl⟩
    have hFinished : (startAttempt s .started).stream.fields.finished = false := h.live
    show _ = ({ (freshAttempt body seed).stream.fields with finished := false } : AttemptFields)
    rw [← hFinished]
    rfl
  | refused msg =>
    refine .ended (fireErrorMsg_carries _ _ _).req fun hDone => ?_
    unfold startAttempt at hDone
    dsimp only at hDone
    rw [done_destroy, done_fireErrorMsg] at hDone
    exact absurd hDone hQuiet.not_done

/-- One event of the loop keeps the link; the new stream takes the transfer inputs only. -/
theorem Linked.step {s f s' : OrState} (h : Linked message reason usage s f) (input : OrInput)
    (hTimer : ∀ start, input ≠ .timer start) (hStep : step lib cancels s input = some s') :
    ∃ f', run (Openrouter.step lib never) f (transferInputs [input]) = some f' ∧
      Linked message reason usage s' f' := by
  cases h with
  | ended hReq hDone =>
    cases input with
    | cancel =>
      obtain ⟨-, hStep⟩ := Option.ite_none_left_eq_some.mp hStep
      cases hStep
      refine ⟨f, rfl, .ended ((openrouterCancel_carries _).req.trans hReq) fun h => hDone ?_⟩
      exact done_openrouterCancel.mp h
    | timer start => exact absurd rfl (hTimer start)
    | status status contentType => simp [Openrouter.step, hReq] at hStep
    | chunk bytes => simp [Openrouter.step, hReq] at hStep
    | complete res timerStarts => simp [Openrouter.step, hReq] at hStep
  | inFlight pre pre' hPre hAlike =>
    obtain ⟨hs, hf⟩ := hAlike.stream.req
    cases input with
    | cancel =>
      obtain ⟨-, hStep⟩ := Option.ite_none_left_eq_some.mp hStep
      cases hStep
      exact ⟨f, rfl, .inFlight pre pre' hPre ⟨hAlike.stream.cancel, hAlike.sse⟩⟩
    | timer start => exact absurd rfl (hTimer start)
    | status status contentType =>
      obtain ⟨-, hStep⟩ := Option.ite_none_right_eq_some.mp hStep
      cases hStep
      refine ⟨_, run_cons_eq_some.mpr ⟨_, if_pos hf, rfl⟩, .inFlight pre pre' hPre ?_⟩
      exact ⟨hAlike.stream.orOnStatus status contentType, hAlike.sse⟩
    | chunk bytes =>
      obtain ⟨-, hStep⟩ := Option.ite_none_right_eq_some.mp hStep
      cases hStep
      refine ⟨_, run_cons_eq_some.mpr ⟨_, if_pos hf, rfl⟩, .inFlight pre pre' hPre ?_⟩
      exact hAlike.orOnChunk lib cancels bytes
    | complete res timerStarts =>
      obtain ⟨-, hStep⟩ := Option.ite_none_right_eq_some.mp hStep
      cases hStep
      refine ⟨_, run_cons_eq_some.mpr ⟨_, if_pos hf, rfl⟩, .ended (orOnComplete_carries _ _ _ _).req ?_⟩
      exact hAlike.orOnComplete lib res timerStarts hPre

theorem run_linked {opts : OpenrouterOpts} {hrtime : UInt64} {timerInits : Bool} {start : HttpStart}
    {inputs : List OrInput} {s₀ s : OrState}
    (hOpen : openrouterStream lib opts hrtime timerInits start = .ok s₀)
    (hRun : run (step lib cancels) s₀ inputs = some s) (body : Bytes) (seed : UInt64) :
    ∃ f, run (step lib never) (freshAttempt body seed) (transferInputs (lastAttempt inputs)) = some f ∧
      Linked message reason usage s f := by
  induction inputs using List.reverseRecOn generalizing s with
  | nil =>
    cases hRun
    rw [openrouterStream_eq hOpen]
    exact ⟨_, rfl, startAttempt_linked (newStream_settled _ _) start body seed⟩
  | append_singleton inputs input ih =>
    obtain ⟨mid, hFirst, hLast⟩ := run_append_eq_some.mp hRun
    obtain ⟨s', hStep, hNil⟩ := run_cons_eq_some.mp hLast
    cases hNil
    obtain ⟨f, hFresh, hLinked⟩ := ih hFirst
    by_cases hTimer : ∃ start, input = .timer start
    · obtain ⟨start', rfl⟩ := hTimer
      obtain ⟨hTimer, hStep⟩ := Option.ite_none_right_eq_some.mp hStep
      cases hStep
      have hSound := run_sound hOpen hFirst
      have hWaiting := hSound.waiting_of_timer hTimer
      refine ⟨freshAttempt body seed, ?_, ?_⟩
      · rw [lastAttempt, List.foldl_append]
        rfl
      · exact startAttempt_linked
          (s := { mid with stream := { mid.stream with retryTimer := none } })
          (hWaiting.settled hSound.counted) start' body seed
    · have hTimer := not_exists.mp hTimer
      obtain ⟨f', hRun', hLinked'⟩ := hLinked.step input hTimer hStep
      refine ⟨f', ?_, hLinked'⟩
      have hLast' : lastAttempt (inputs ++ [input]) = lastAttempt inputs ++ [input] := by
        rw [lastAttempt, List.foldl_append]
        cases input with
        | timer start' => exact absurd rfl (hTimer start')
        | _ => rfl
      rw [hLast', transferInputs, List.filter_append]
      exact run_append_eq_some.mpr ⟨f, hFresh, hRun'⟩

theorem Emits.attempt (h : Emits s s') :
    s'.attempt = s.attempt ∧ (s.delivered = true → s'.delivered = true) := by
  induction h with
  | silent hSame => exact ⟨hSame.attempt, hSame.delivered⟩
  | text _ _ => exact ⟨rfl, fun _ => rfl⟩
  | error _ _ => exact ⟨rfl, id⟩
  | canceled _ _ => exact ⟨rfl, id⟩
  | trans _ _ ih ih' => exact ⟨ih'.1.trans ih.1, fun h => ih'.2 (ih.2 h)⟩

theorem Handles.attempt (h : Handles s s') :
    s'.attempt = s.attempt ∧ (s.delivered = true → s'.delivered = true) := by
  cases h with
  | emits hEmits => exact hEmits.attempt
  | done _ _ _ _ => exact ⟨rfl, id⟩

theorem orOnChunk_attempt (lib : JsonLib) (cancels : CancelsInText) {s : OrState}
    (h : s.stream.delivered = true) (bytes : Bytes) :
    (orOnChunk lib cancels s bytes).1.stream.attempt = s.stream.attempt ∧
      (orOnChunk lib cancels s bytes).1.stream.delivered = true := by
  unfold orOnChunk
  split
  · have hFeed := sseParserFeed_invariant
      (P := fun t => t.attempt = s.stream.attempt ∧ t.delivered = true) (orOnEvent lib cancels)
      (fun t event ht =>
        have hHandles := (handleEvent_handles lib cancels t event.data).attempt
        ⟨hHandles.1.trans ht.1, hHandles.2 ht.2⟩)
      s.sse ⟨rfl, h⟩ bytes
    split
    · rename_i heq
      rw [heq] at hFeed
      have hReport := fireErrorMsg_carries
      exact ⟨(hReport _ _ _).attempt.trans hFeed.1, (hReport _ _ _).delivered.trans hFeed.2⟩
    · rename_i heq
      rw [heq] at hFeed
      exact hFeed
  · split
    · exact ⟨rfl, h⟩
    · exact ⟨rfl, h⟩

theorem step_attempt {s s' : OrState} {input : OrInput} (hSound : Sound s.stream)
    (h : s.stream.delivered = true) (hStep : step lib cancels s input = some s') :
    s'.stream.attempt = s.stream.attempt ∧ s'.stream.delivered = true := by
  cases input with
  | status status contentType =>
    obtain ⟨-, hStep⟩ := Option.ite_none_right_eq_some.mp hStep
    cases hStep
    unfold orOnStatus
    dsimp only
    split
    · split
      · exact ⟨rfl, h⟩
      · exact ⟨rfl, h⟩
    · exact ⟨rfl, h⟩
  | chunk bytes =>
    obtain ⟨-, hStep⟩ := Option.ite_none_right_eq_some.mp hStep
    cases hStep
    exact orOnChunk_attempt lib cancels h bytes
  | complete res timerStarts =>
    obtain ⟨-, hStep⟩ := Option.ite_none_right_eq_some.mp hStep
    cases hStep
    have hCarries := orOnComplete_carries lib s res timerStarts
    exact ⟨hCarries.attempt, hCarries.delivered.trans h⟩
  | timer start =>
    obtain ⟨hTimer, -⟩ := Option.ite_none_right_eq_some.mp hStep
    exact absurd (h.symm.trans (hSound.waiting_of_timer hTimer).delivered) nofun
  | cancel =>
    obtain ⟨-, hStep⟩ := Option.ite_none_left_eq_some.mp hStep
    cases hStep
    have hCarries := openrouterCancel_carries s.stream
    exact ⟨hCarries.attempt, hCarries.delivered.trans h⟩

def Delivering (s : OpenrouterStream) : Prop :=
  (∃ o ∈ s.out, o.isText = true) ∨ ∃ i, (s.toolCalls i).present = true

theorem Counted.delivered (h : Counted s) (hDelivering : Delivering s) : s.delivered = true := by
  by_contra hNot
  obtain ⟨hTexts, hCalls⟩ := h.undelivered (by simpa using hNot)
  rcases hDelivering with ⟨o, ho, hText⟩ | ⟨i, hPresent⟩
  · exact absurd ((hTexts o ho).symm.trans hText) nofun
  · exact absurd ((hCalls i).symm.trans hPresent) nofun

theorem run_delivering {s₁ s₂ : OrState} {inputs : List OrInput} (hSound : Sound s₁.stream)
    (h : Delivering s₁.stream) (hRun : run (step lib cancels) s₁ inputs = some s₂) :
    s₂.stream.out.countP OrOutput.isRequest = s₁.stream.out.countP OrOutput.isRequest := by
  have hInv := run_invariant
    (I := fun t : OrState => Sound t.stream ∧ t.stream.attempt = s₁.stream.attempt ∧
      t.stream.delivered = true)
    (fun t input t' ht hStep =>
      have hKept := step_attempt ht.1 ht.2.2 hStep
      ⟨step_sound t input t' ht.1 hStep, hKept.1.trans ht.2.1, hKept.2⟩)
    ⟨hSound, rfl, hSound.counted.delivered h⟩ hRun
  rw [hInv.1.counted.requests, hSound.counted.requests, hInv.2.1]

/-- At most five attempts; none after something was delivered; and what `on_done` hands over
is what a new stream makes of the last attempt's status, chunks and completion. -/
theorem attempts_independent {opts : OpenrouterOpts} {hrtime : UInt64} {timerInits : Bool}
    {start : HttpStart} {inputs : List OrInput} {s₀ s : OrState}
    (hOpen : openrouterStream lib opts hrtime timerInits start = .ok s₀)
    (hRun : run (step lib cancels) s₀ inputs = some s) :
    s.stream.out.countP OrOutput.isRequest ≤ 5 ∧
    (∀ earlier later mid, inputs = earlier ++ later →
      run (step lib cancels) s₀ earlier = some mid → Delivering mid.stream →
      s.stream.out.countP OrOutput.isRequest = mid.stream.out.countP OrOutput.isRequest) ∧
    (∀ message reason usage, Done message reason usage s.stream → ∀ body seed,
      ∃ f, run (step lib never) (freshAttempt body seed) (transferInputs (lastAttempt inputs)) = some f ∧
        Done message reason usage f.stream) := by
  refine ⟨?_, ?_, ?_⟩
  · have hCounted := (run_sound hOpen hRun).counted
    rw [hCounted.requests]
    exact hCounted.attempts
  · intro earlier later mid hInputs hEarlier hDelivering
    rw [hInputs] at hRun
    obtain ⟨mid', hFirst, hLater⟩ := run_append_eq_some.mp hRun
    cases hEarlier.symm.trans hFirst
    exact run_delivering (run_sound hOpen hEarlier) hDelivering hLater
  · intro message reason usage hDone body seed
    obtain ⟨f, hFresh, hLinked⟩ := run_linked hOpen hRun body seed
    refine ⟨f, hFresh, ?_⟩
    cases hLinked with
    | inFlight pre pre' hPre hAlike => exact hAlike.stream.done hPre hDone
    | ended hReq h => exact h hDone

theorem attempts_independent_sample :
    ∃ s₀ s, openrouterStream nulLib sampleOpts 6 true .started = .ok s₀ ∧
      run (step nulLib never) s₀ retryInputs = some s ∧
      s.stream.out.countP OrOutput.isRequest ≤ 5 ∧
      (∀ message reason usage, Done message reason usage s.stream → ∀ body seed,
        ∃ f, run (step nulLib never) (freshAttempt body seed)
          [.status 200 (some (ascii "text/event-stream")), .chunk (ascii "data: [DONE]\n\n")] = some f ∧
          Done message reason usage f.stream) := by
  obtain ⟨s₀, s, hOpen, hRun⟩ := retryInputs_run
  obtain ⟨hCount, -, hDone⟩ := attempts_independent hOpen hRun
  exact ⟨s₀, s, hOpen, hRun, hCount, hDone⟩

end Runs

end Mua.Openrouter
