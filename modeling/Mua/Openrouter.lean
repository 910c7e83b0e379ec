import Mua.Json
import Mua.Sse

/-! # The OpenRouter chat-completions stream

openrouter.c, function by function. The callbacks a stream fires, the requests
it sends and its destruction are appended to its history `out`. The user's
`on_text` may call `openrouter_cancel`; whether it does is a function of the
history, so every behaviour of the callback is one such function.
-/

namespace Mua.Openrouter

open Sse

def kOrEventJsonCap : Nat := 1024 * 1024
def kOrErrorBodyCap : Nat := 64 * 1024
def kOrFinishReasonCap : Nat := 32
def kOrBackoffBaseMs : Nat := 500
def kOrBackoffCapMs : Nat := 30000
def kOrRetryAfterCapS : Int := 60
def kOrToolIdCap : Nat := 64
def kOrToolNameCap : Nat := 128
def kOrToolArgsCap : Nat := 256 * 1024
def kOrContentCap : Nat := 1024 * 1024
def kOrToolItemsPerEvent : Nat := 64
def maxHttpAttempts : Nat := 5
def maxToolCalls : Nat := 16

inductive OrMode
  | undecided
  | sse
  | errorBody
  deriving DecidableEq, Repr

structure OrToolCall where
  present : Bool
  id : FixedStr kOrToolIdCap
  name : FixedStr kOrToolNameCap
  args : Buf kOrToolArgsCap

structure Usage where
  promptTokens : Int
  completionTokens : Int
  totalTokens : Int
  deriving DecidableEq, Repr

inductive OrOutput
  | httpRequest (body : Bytes)
  | onText (text : Bytes)
  | onDone (message : CJson) (finishReason : Bytes) (usage : Usage)
  | onError (err : Error)
  | destroy

structure OpenrouterStream where
  body : Bytes
  errorBody : Buf kOrErrorBodyCap
  errorBodyTruncated : Bool
  retryTimer : Option Nat
  req : Bool
  attempt : Nat
  mode : OrMode
  wrongCtype : Bool
  httpStatus : Int
  delivered : Bool
  finished : Bool
  cancelRequested : Bool
  finishReason : FixedStr kOrFinishReasonCap
  promptTokens : Int
  completionTokens : Int
  totalTokens : Int
  content : Buf kOrContentCap
  toolCalls : Fin maxToolCalls → OrToolCall
  toolCallsHwm : Nat
  prngState : UInt64
  out : List OrOutput

/-- Whether `on_text`, fired as the last entry of the history, cancels the stream. -/
abbrev CancelsInText := List OrOutput → Bool

variable (lib : JsonLib) (cancels : CancelsInText)

def OpenrouterStream.emit (stream : OpenrouterStream) (o : OrOutput) : OpenrouterStream :=
  { stream with out := stream.out ++ [o] }

def OpenrouterStream.setCall (stream : OpenrouterStream) (index : Fin maxToolCalls)
    (call : OrToolCall) : OpenrouterStream :=
  { stream with toolCalls := Function.update stream.toolCalls index call }

def fireError (stream : OpenrouterStream) (err : Error) : OpenrouterStream :=
  { stream with finished := true }.emit (.onError err)

def fireErrorMsg (stream : OpenrouterStream) (type : ErrorType) (msg : Bytes) : OpenrouterStream :=
  if stream.finished then stream else fireError stream ⟨type, msg⟩

def streamDestroy (stream : OpenrouterStream) : OpenrouterStream := stream.emit .destroy

def OpenrouterStream.slots (stream : OpenrouterStream) : List OrToolCall :=
  ((List.finRange maxToolCalls).filter fun i => i.val < stream.toolCallsHwm).map stream.toolCalls

def assembleCall (call : OrToolCall) : CJson :=
  let entry := jsonAddCstr (jsonAddCstr jsonNewObj (ascii "id") call.id.data)
    (ascii "type") (ascii "function")
  let function := jsonAddStr (jsonAddCstr jsonNewObj (ascii "name") call.name.data)
    (ascii "arguments") call.args.data
  entry.addItem (ascii "function") function

def assembleMessage (stream : OpenrouterStream) : CJson :=
  let msg := jsonAddCstr jsonNewObj (ascii "role") (ascii "assistant")
  let msg :=
    if stream.content.data ≠ [] then jsonAddStr msg (ascii "content") stream.content.data
    else msg.addItem (ascii "content") .null
  if stream.slots.any (·.present) then
    msg.addItem (ascii "tool_calls") (.array ((stream.slots.filter (·.present)).map assembleCall))
  else msg

def OrToolCall.incomplete (call : OrToolCall) : Bool :=
  call.present && (call.id.data.isEmpty || call.name.data.isEmpty)

def fireDone (stream : OpenrouterStream) : OpenrouterStream :=
  if stream.finished then stream
  else if stream.slots.any OrToolCall.incomplete then
    fireErrorMsg stream .exception (ascii "incomplete tool call in stream")
  else
    { stream with finished := true }.emit (.onDone (assembleMessage stream) stream.finishReason.data
      ⟨stream.promptTokens, stream.completionTokens, stream.totalTokens⟩)

def jsonGetText (obj : CJson) (key : Bytes) : Option Bytes :=
  (jsonGetCstr obj key).filter (· ≠ [])

/-- Latches the first non-empty value; `none` when it does not fit its slot. -/
def latch {cap : Nat} (slot : FixedStr cap) (val : Option Bytes) : Option (FixedStr cap) :=
  match val with
  | some v => if slot.data = [] then FixedStr.copy? cap v else some slot
  | none => some slot

def OpenrouterStream.touch (stream : OpenrouterStream) (index : Fin maxToolCalls) :
    OpenrouterStream :=
  { stream.setCall index { stream.toolCalls index with present := true } with
    toolCallsHwm := max stream.toolCallsHwm (index.val + 1)
    delivered := true }

/-- The `function` part of a fragment: the name latches, the arguments accumulate. -/
def accumulateFunction (stream : OpenrouterStream) (index : Fin maxToolCalls) (function : CJson) :
    OpenrouterStream × Bool :=
  match latch (stream.toolCalls index).name (jsonGetText function (ascii "name")) with
  | none => (fireErrorMsg stream .exception (ascii "tool_call name exceeds cap"), false)
  | some name =>
    let stream := stream.setCall index { stream.toolCalls index with name := name }
    match jsonGetText function (ascii "arguments") with
    | none => (stream, true)
    | some args =>
      match bufAppend (stream.toolCalls index).args args with
      | none => (fireErrorMsg stream .exception (ascii "tool_call arguments exceed cap"), false)
      | some args =>
        (stream.setCall index { stream.toolCalls index with args := args }, true)

def accumulateFragment (stream : OpenrouterStream) (index : Fin maxToolCalls) (item : CJson) :
    OpenrouterStream × Bool :=
  let stream := stream.touch index
  match latch (stream.toolCalls index).id (jsonGetText item (ascii "id")) with
  | none => (fireErrorMsg stream .exception (ascii "tool_call id exceeds cap"), false)
  | some id =>
    let stream := stream.setCall index { stream.toolCalls index with id := id }
    match jsonGetObj item (ascii "function") with
    | none => (stream, true)
    | some function => accumulateFunction stream index function

/-- The slot an item names, if its index is an integer of a slot. -/
def itemIndex (item : CJson) : Option (Fin maxToolCalls) :=
  match jsonGetInt lib item (ascii "index") with
  | none => none
  | some index =>
    if h : 0 ≤ index ∧ index < maxToolCalls then some ⟨index.toNat, by omega⟩ else none

def accumulateToolCalls (stream : OpenrouterStream) (count : Nat) :
    List CJson → OpenrouterStream × Bool
  | [] => (stream, true)
  | item :: items =>
    if count + 1 > kOrToolItemsPerEvent then
      (fireErrorMsg stream .exception (ascii "too many tool_call items in one event"), false)
    else
      match itemIndex lib item with
      | none =>
        (fireErrorMsg stream .exception (ascii "tool_call index missing or out of range"), false)
      | some index =>
        match accumulateFragment stream index item with
        | (stream', true) => accumulateToolCalls stream' (count + 1) items
        | (stream', false) => (stream', false)

/-- `openrouter_cancel`. With a request in flight its completion reports the cancellation. -/
def openrouterCancel (stream : OpenrouterStream) : OpenrouterStream :=
  if stream.finished || stream.cancelRequested then stream
  else
    let stream := { stream with cancelRequested := true }
    if stream.req then stream
    else
      streamDestroy (fireErrorMsg { stream with retryTimer := none } .exception (ascii "canceled"))

def fireText (stream : OpenrouterStream) (text : Bytes) : OpenrouterStream :=
  let stream := { stream with delivered := true }.emit (.onText text)
  if cancels stream.out then openrouterCancel stream else stream

def handleContent (stream : OpenrouterStream) (delta : Option CJson) : OpenrouterStream × Bool :=
  match delta.bind fun d => jsonGetText d (ascii "content") with
  | none => (stream, true)
  | some content =>
    match bufAppend stream.content content with
    | none => (fireErrorMsg stream .exception (ascii "assistant content exceeds cap"), false)
    | some buf => (fireText cancels { stream with content := buf } content, true)

def handleCalls (stream : OpenrouterStream) (delta : Option CJson) : OpenrouterStream × Bool :=
  match delta.bind fun d => jsonGetArr d (ascii "tool_calls") with
  | none => (stream, true)
  | some calls => accumulateToolCalls lib stream 0 calls.children

def boundedReason (finish : Bytes) : FixedStr kOrFinishReasonCap where
  data := (cstr finish).take (kOrFinishReasonCap - 1)
  fits := by
    rw [List.length_take]
    exact (Nat.min_le_left _ _).trans_lt (by decide)
  nulFree := fun h => nulFree_cstr finish (List.mem_of_mem_take h)

def handleFinish (stream : OpenrouterStream) (choice : CJson) : OpenrouterStream :=
  match jsonGetCstr choice (ascii "finish_reason") with
  | none => stream
  | some finish => { stream with finishReason := boundedReason finish }

def handleUsage (stream : OpenrouterStream) (doc : CJson) : OpenrouterStream :=
  match jsonGetObj doc (ascii "usage") with
  | none => stream
  | some usage =>
    { stream with
      promptTokens := (jsonGetInt lib usage (ascii "prompt_tokens")).getD stream.promptTokens
      completionTokens :=
        (jsonGetInt lib usage (ascii "completion_tokens")).getD stream.completionTokens
      totalTokens := (jsonGetInt lib usage (ascii "total_tokens")).getD stream.totalTokens }

def firstChoice (doc : CJson) : Option CJson :=
  (jsonGetArr doc (ascii "choices")).bind fun choices => choices.getArrayItem 0

def handleChoice (stream : OpenrouterStream) (choice : CJson) : OpenrouterStream × Bool :=
  let delta := jsonGetObj choice (ascii "delta")
  match handleContent cancels stream delta with
  | (stream, false) => (stream, false)
  | (stream, true) =>
    match handleCalls lib stream delta with
    | (stream, false) => (stream, false)
    | (stream, true) => (handleFinish stream choice, true)

def handleDoc (stream : OpenrouterStream) (doc : CJson) : OpenrouterStream × Bool :=
  match jsonGetObj doc (ascii "error") with
  | some errorObj =>
    let message := (jsonGetCstr errorObj (ascii "message")).getD (ascii "(no message)")
    (fireError stream ⟨.exception, ascii "api error: " ++ message⟩, false)
  | none =>
    match firstChoice doc with
    | none => (handleUsage lib stream doc, true)
    | some choice =>
      match handleChoice lib cancels stream choice with
      | (stream, false) => (stream, false)
      | (stream, true) => (handleUsage lib stream doc, true)

def handleEvent (stream : OpenrouterStream) (data : Bytes) : OpenrouterStream × Bool :=
  if stream.finished then (stream, false)
  else if data = ascii "[DONE]" then (fireDone stream, false)
  else
    match jsonParse lib data kOrEventJsonCap with
    | .error err => (fireErrorMsg stream .exception err.msg, false)
    | .ok doc => handleDoc lib cancels stream doc

def orLimits : SseLimits := ⟨0, 0, 0, 0⟩

structure OrState where
  stream : OpenrouterStream
  sse : SseParser orLimits.resolve

def orOnEvent : SseEventCb OpenrouterStream := fun stream event =>
  handleEvent lib cancels stream event.data

def orOnStatus (stream : OpenrouterStream) (status : Int) (contentType : Option Bytes) :
    OpenrouterStream :=
  let stream := { stream with httpStatus := status }
  if status = 200 then
    if (contentType.map fun c => (cstr c).take 17) = some (ascii "text/event-stream") then
      { stream with mode := .sse }
    else { stream with mode := .errorBody, wrongCtype := true }
  else { stream with mode := .errorBody }

def orOnChunk (s : OrState) (bytes : Bytes) : OrState × Bool :=
  if s.stream.mode = .sse then
    match sseParserFeed (orOnEvent lib cancels) s.sse s.stream bytes with
    | (sse, stream, some err) => (⟨fireErrorMsg stream .exception err.msg, sse⟩, false)
    | (sse, stream, none) => (⟨stream, sse⟩, true)
  else
    match bufAppend s.stream.errorBody bytes with
    | some errorBody => (⟨{ s.stream with errorBody := errorBody }, s.sse⟩, true)
    | none => (⟨{ s.stream with errorBodyTruncated := true }, s.sse⟩, true)

inductive CurlCode
  | ok
  | couldntResolveHost
  | couldntConnect
  | sslConnectError
  | sendError
  | recvError
  | operationTimedout
  | gotNothing
  | http2
  | http2Stream
  | other (code : Nat)
  deriving DecidableEq, Repr

def statusIsRetryable (status : Int) : Bool :=
  status == 408 || status == 429 || status == 500 || status == 502 || status == 503 ||
    status == 504

def curlCodeIsRetryable : CurlCode → Bool
  | .ok | .other _ => false
  | _ => true

def prngNext (x : UInt64) : UInt64 :=
  let x := x ^^^ (x <<< 13)
  let x := x ^^^ (x >>> 7)
  x ^^^ (x <<< 17)

/-- Full jitter in [delay/2, delay], or the server's Retry-After when that is longer. -/
def retryDelay (attempt : Nat) (random : UInt64) (retryAfterS : Int) : Nat :=
  let delay := min (kOrBackoffBaseMs <<< min attempt 6) kOrBackoffCapMs
  let delay := delay / 2 + random.toNat % (delay / 2 + 1)
  if 0 ≤ retryAfterS then max delay (min retryAfterS kOrRetryAfterCapS * 1000).toNat else delay

def scheduleRetry (stream : OpenrouterStream) (retryAfterS : Int) (timerStarts : Bool) :
    OpenrouterStream :=
  let random := prngNext stream.prngState
  let stream := { stream with prngState := random }
  if timerStarts then
    { stream with retryTimer := some (retryDelay stream.attempt random retryAfterS) }
  else
    streamDestroy (fireErrorMsg stream .exception (ascii "failed to schedule a retry"))

def httpFailureMessage (stream : OpenrouterStream) : Bytes :=
  let doc :=
    if stream.errorBody.data = [] then none
    else (jsonParse lib stream.errorBody.data kOrErrorBodyCap).toOption
  let message := doc.bind fun d =>
    (jsonGetObj d (ascii "error")).bind fun e => jsonGetCstr e (ascii "message")
  let status := ascii ("api error (HTTP " ++ toString stream.httpStatus ++ ")")
  match message with
  | some message =>
    status ++ ascii ": " ++ message ++
      if stream.errorBodyTruncated then ascii " [truncated]" else []
  | none => status

def reportHttpFailure (stream : OpenrouterStream) : OpenrouterStream :=
  if stream.wrongCtype then
    fireErrorMsg stream .exception (ascii "unexpected content-type on HTTP 200 response")
  else fireErrorMsg stream .exception (httpFailureMessage lib stream)

structure HttpResult where
  result : CurlCode
  httpStatus : Int
  errmsg : Bytes
  retryAfterS : Int

def retryable (stream : OpenrouterStream) (res : HttpResult) : Bool :=
  (stream.mode ≠ .sse &&
    statusIsRetryable (if res.httpStatus ≠ 0 then res.httpStatus else stream.httpStatus)) ||
  (res.result ≠ .ok && curlCodeIsRetryable res.result)

def orOnComplete (s : OrState) (res : HttpResult) (timerStarts : Bool) : OrState :=
  let stream := { s.stream with req := false }
  if stream.finished then ⟨streamDestroy stream, s.sse⟩
  else if stream.cancelRequested then
    ⟨streamDestroy (fireErrorMsg stream .exception (ascii "canceled")), s.sse⟩
  else if stream.mode = .sse ∧ res.result = .ok then
    if stream.finishReason.data ≠ [] ∧ sseParserFinish s.sse = .clean then
      ⟨streamDestroy (fireDone stream), s.sse⟩
    else
      ⟨streamDestroy (fireErrorMsg stream .exception (ascii "stream ended before completion")),
        s.sse⟩
  else if retryable stream res && !stream.delivered && decide (stream.attempt < maxHttpAttempts) then
    ⟨scheduleRetry stream res.retryAfterS timerStarts, s.sse⟩
  else if stream.mode = .errorBody then ⟨streamDestroy (reportHttpFailure lib stream), s.sse⟩
  else
    ⟨streamDestroy (fireError stream ⟨.exception, ascii "request failed: " ++ res.errmsg⟩), s.sse⟩

/-- What `http_request` answers: a request in flight, or an error. -/
inductive HttpStart
  | started
  | refused (msg : Bytes)
  deriving DecidableEq, Repr

/-- The per-attempt reset of `start_attempt`. `delivered` persists: it gates the retry. -/
def resetAttempt (stream : OpenrouterStream) : OpenrouterStream :=
  { stream with
    errorBody := bufReset stream.errorBody
    errorBodyTruncated := false
    mode := .undecided
    wrongCtype := false
    httpStatus := 0
    finishReason := stream.finishReason.clear
    promptTokens := 0
    completionTokens := 0
    totalTokens := 0
    content := bufReset stream.content
    toolCalls := fun i =>
      { present := false
        id := (stream.toolCalls i).id.clear
        name := (stream.toolCalls i).name.clear
        args := bufReset (stream.toolCalls i).args }
    toolCallsHwm := 0
    attempt := stream.attempt + 1 }

def startAttempt (s : OrState) (start : HttpStart) : OrState :=
  let sse := sseParserReset s.sse
  let stream := (resetAttempt s.stream).emit (.httpRequest s.stream.body)
  match start with
  | .started => ⟨{ stream with req := true }, sse⟩
  | .refused msg => ⟨streamDestroy (fireErrorMsg { stream with req := false } .exception msg), sse⟩

structure OpenrouterOpts where
  model : Option Bytes
  maxTokens : Int
  messages : CJson
  tools : Option CJson
  apiKey : Option Bytes

def buildBody (opts : OpenrouterOpts) : Bytes :=
  let body := jsonAddCstr jsonNewObj (ascii "model")
    (opts.model.getD (ascii "anthropic/claude-sonnet-4.6"))
  let body := jsonAddBool body (ascii "stream") true
  let body := if opts.maxTokens > 0 then jsonAddInt body (ascii "max_tokens") opts.maxTokens else body
  let body := body.addItem (ascii "messages") (.array opts.messages.children)
  let body := match opts.tools with
    | some tools =>
      if tools.children.isEmpty then body
      else body.addItem (ascii "tools") (.array tools.children)
    | none => body
  lib.print body

def newStream (body : Bytes) (prngSeed : UInt64) : OpenrouterStream where
  body := body
  errorBody := bufInit _
  errorBodyTruncated := false
  retryTimer := none
  req := false
  attempt := 0
  mode := .undecided
  wrongCtype := false
  httpStatus := 0
  delivered := false
  finished := false
  cancelRequested := false
  finishReason := ⟨[], by decide, nulFree_nil⟩
  promptTokens := 0
  completionTokens := 0
  totalTokens := 0
  content := bufInit _
  toolCalls := fun _ =>
    ⟨false, ⟨[], by decide, nulFree_nil⟩, ⟨[], by decide, nulFree_nil⟩, bufInit _⟩
  toolCallsHwm := 0
  prngState := prngSeed
  out := []

def openrouterStream (opts : OpenrouterOpts) (hrtime : UInt64) (timerInits : Bool)
    (start : HttpStart) : Except Error OrState :=
  if opts.apiKey = none ∨ opts.apiKey = some [] then
    .error ⟨.validation, ascii "openrouter: api key is required"⟩
  else if !opts.messages.isArray || opts.messages.children.isEmpty then
    .error ⟨.validation, ascii "openrouter: messages must be a non-empty array"⟩
  else if opts.tools.any fun tools => !tools.isArray then
    .error ⟨.validation, ascii "openrouter: tools must be an array"⟩
  else if timerInits then
    .ok (startAttempt ⟨newStream (buildBody lib opts) (hrtime ||| 1), sseParserNew orLimits⟩ start)
  else .error ⟨.exception, ascii "openrouter: timer init failed"⟩

inductive OrInput
  | status (status : Int) (contentType : Option Bytes)
  | chunk (bytes : Bytes)
  | complete (res : HttpResult) (timerStarts : Bool)
  | timer (start : HttpStart)
  | cancel

/-- One step of the loop. HTTP callbacks come only for a request in flight, the timer
callback only from an armed timer, and `openrouter_cancel` only for a stream not yet freed;
`none` is an event the loop cannot deliver. -/
def step (s : OrState) : OrInput → Option OrState
  | .status status contentType =>
    if s.stream.req then some ⟨orOnStatus s.stream status contentType, s.sse⟩ else none
  | .chunk bytes => if s.stream.req then some (orOnChunk lib cancels s bytes).1 else none
  | .complete res timerStarts =>
    if s.stream.req then some (orOnComplete lib s res timerStarts) else none
  | .timer start =>
    if s.stream.retryTimer.isSome then
      some (startAttempt { s with stream := { s.stream with retryTimer := none } } start)
    else none
  | .cancel =>
    if s.stream.out.any fun o => o matches .destroy then none
    else some { s with stream := openrouterCancel s.stream }

end Mua.Openrouter
