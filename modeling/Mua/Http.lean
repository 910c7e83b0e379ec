import Mua.Openrouter
import Mua.Options
import Mua.Lib.Linked

/-! # The HTTP client

http.c without its sockets and timers for curl: the requests of a client, its
intrusive list of the live ones, and the three places where a request dies. What
libcurl tells of a transfer and what the callbacks of a caller do are functions of
the history so far; a callback may start requests and cancel live ones.
-/

namespace Mua.Http

open Openrouter Linked

def httpMaxHeaders : Nat := 32

def curlAbortedByCallback : CurlCode := .other 42

/-- Which callbacks are not NULL. -/
structure HttpCallbacks where
  onStatus : Bool
  onChunk : Bool
  onComplete : Bool
  deriving DecidableEq, Repr

structure HttpRequest where
  cb : HttpCallbacks := ⟨false, false, false⟩
  statusReported : Bool := false
  cancelRequested : Bool := false
  next : Option Nat := none
  deriving DecidableEq, Repr

inductive Entry
  | accepted (req : Nat) (cb : HttpCallbacks)
  | cancelled (req : Nat)
  | status (req : Nat) (status : Int) (contentType : Option Bytes)
  | chunk (req : Nat) (bytes : Bytes)
  | complete (req : Nat) (res : HttpResult)

abbrev History := List Entry

/-- What a caller asks for, and what libcurl answers while the request is set up. -/
structure RequestCall where
  url : Option Bytes
  headerCount : Nat
  cb : HttpCallbacks
  easyInit : Bool
  configured : Bool
  addFailed : Option Bytes
  deriving DecidableEq, Repr

inductive Call
  | request (r : RequestCall)
  | cancel (req : Nat)
  deriving DecidableEq, Repr

structure World where
  onStatus : History → Nat → List Call
  onChunk : History → Nat → List Call × Bool
  onComplete : History → Nat → List Call
  responseCode : History → Nat → Option Int
  contentType : History → Nat → Option Bytes
  retryAfter : History → Nat → Option Bytes
  errbuf : History → Nat → Bytes
  strerror : CurlCode → Bytes
  timerStarts : History → Bool

inductive Msg
  | done (req : Nat) (result : CurlCode)
  | other

structure HttpClient where
  active : Int := 0
  closing : Bool := false
  requests : Option Nat := none
  heap : Nat → HttpRequest := fun _ => {}
  /-- The address of the next allocation; those below are used up. -/
  fresh : Nat := 0
  allocated : Nat → Bool := fun _ => false
  added : Nat → Bool := fun _ => false
  /-- The handles libcurl has reported DONE for. -/
  reported : Nat → Bool := fun _ => false
  msgs : List Msg := []
  reapArmed : Bool := false
  out : History := []

namespace HttpClient

def log (c : HttpClient) (e : Entry) : HttpClient := { c with out := c.out ++ [e] }

def modify (c : HttpClient) (req : Nat) (f : HttpRequest → HttpRequest) : HttpClient :=
  { c with heap := fun i => if i = req then f (c.heap i) else c.heap i }

def next (c : HttpClient) (req : Nat) : Option Nat := (c.heap req).next

end HttpClient

def invalid (msg : Bytes) : Error := ⟨.validation, msg⟩

def httpRequest (c : HttpClient) (r : RequestCall) : HttpClient × Except Error Nat :=
  if c.closing then (c, .error (invalid (ascii "http: client is closing")))
  else if r.url = none then (c, .error (invalid (ascii "http: url is required")))
  else if httpMaxHeaders < r.headerCount then
    (c, .error (invalid (ascii "http: " ++ decimal r.headerCount ++ ascii " headers exceeds cap of " ++
      decimal httpMaxHeaders)))
  else if !r.easyInit then (c, .error ⟨.exception, ascii "http: curl_easy_init failed"⟩)
  else if !r.configured then
    (c, .error ⟨.exception, ascii "http: configuring the request failed"⟩)
  else
    match r.addFailed with
    | some reason => (c, .error ⟨.exception, ascii "http: " ++ reason⟩)
    | none =>
      let req := c.fresh
      let c := { c with
        fresh := req + 1
        allocated := fun i => if i = req then true else c.allocated i
        added := fun i => if i = req then true else c.added i
        active := c.active + 1 }
      let c := c.modify req fun _ => { cb := r.cb, next := c.requests }
      ({ c with requests := some req }.log (.accepted req r.cb), .ok req)

def httpCancel (w : World) (c : HttpClient) (req : Nat) : HttpClient :=
  if (c.heap req).cancelRequested then c
  else
    let c := (c.modify req fun r => { r with cancelRequested := true }).log (.cancelled req)
    if w.timerStarts c.out then { c with reapArmed := true } else c

/-- One call out of a callback; only a request whose handle is not dead is cancelled. -/
def call (w : World) (c : HttpClient) : Call → HttpClient
  | .request r => (httpRequest c r).1
  | .cancel req => if c.allocated req then httpCancel w c req else c

def calls (w : World) (c : HttpClient) (cs : List Call) : HttpClient := cs.foldl (call w) c

def reportStatus (w : World) (c : HttpClient) (req : Nat) : HttpClient :=
  let status := (w.responseCode c.out req).getD 0
  let contentType := w.contentType c.out req
  let c := c.modify req fun r => { r with statusReported := true }
  if (c.heap req).cb.onStatus then
    let c := c.log (.status req status contentType)
    calls w c (w.onStatus c.out req)
  else c

/-- None is `CURL_WRITEFUNC_ERROR`. -/
def writeCb (w : World) (c : HttpClient) (req : Nat) (data : Bytes) : HttpClient × Option Nat :=
  if (c.heap req).cancelRequested then (c, none)
  else
    let c := if !(c.heap req).statusReported then reportStatus w c req else c
    if (c.heap req).cb.onChunk && decide (0 < data.length) then
      let c := c.log (.chunk req data)
      let (cs, goOn) := w.onChunk c.out req
      let c := calls w c cs
      if !goOn then (c, none) else (c, some data.length)
    else (c, some data.length)

/-- Seconds; the date form, garbage and negative values count as absent. -/
def getRetryAfter (header : Option Bytes) : Int :=
  match header.bind strtol with
  | none => -1
  | some (value, _) => if value < 0 then -1 else value

/-- The walk to the predecessor is bounded by the number of live requests. -/
def unlinkRequest (c : HttpClient) (req : Nat) : HttpClient :=
  if c.requests = some req then { c with requests := c.next req }
  else
    match seek c.next req c.active.toNat c.requests with
    | none => c
    | some prev => c.modify prev fun r => { r with next := c.next req }

def multiRemoveHandle (c : HttpClient) (req : Nat) : HttpClient :=
  { c with
    added := fun i => if i = req then false else c.added i
    msgs := c.msgs.filter fun
      | .done i _ => i != req
      | .other => true }

def finishRequest (w : World) (c : HttpClient) (req : Nat) (result : CurlCode) : HttpClient :=
  let status := (w.responseCode c.out req).getD 0
  let c := if !(c.heap req).statusReported && decide (0 < status) then reportStatus w c req else c
  let retryAfter := getRetryAfter (w.retryAfter c.out req)
  let errbuf := w.errbuf c.out req
  let errmsg := if errbuf = [] then w.strerror result else errbuf
  let c := multiRemoveHandle (unlinkRequest c req) req
  let c := { c with active := c.active - 1 }
  let c :=
    if (c.heap req).cb.onComplete then
      let c := c.log (.complete req ⟨result, status, errmsg, retryAfter⟩)
      calls w c (w.onComplete c.out req)
    else c
  { c with allocated := fun i => if i = req then false else c.allocated i }

/-- The messages of the multi handle, `left` of them at most; one more is read and dropped. -/
def drain (w : World) (c : HttpClient) : Nat → HttpClient
  | 0 => { c with msgs := c.msgs.tail }
  | left + 1 =>
    match c.msgs with
    | [] => c
    | .other :: rest => drain w { c with msgs := rest } left
    | .done req result :: rest => drain w (finishRequest w { c with msgs := rest } req result) left

def checkMultiInfo (w : World) (c : HttpClient) : HttpClient := drain w c (c.active + 1).toNat

/-- The walk of the reap, bounded by the number of live requests; the link is read before
the callbacks of the request run. -/
def reapLoop (w : World) (c : HttpClient) : Nat → Option Nat → HttpClient
  | 0, _ => c
  | _ + 1, none => c
  | fuel + 1, some req =>
    let next := c.next req
    let c := if (c.heap req).cancelRequested then finishRequest w c req curlAbortedByCallback else c
    reapLoop w c fuel next

def reapCb (w : World) (c : HttpClient) : HttpClient := reapLoop w c c.active.toNat c.requests

def closeLoop (w : World) (c : HttpClient) : Nat → HttpClient
  | 0 => c
  | fuel + 1 =>
    match c.requests with
    | none => c
    | some req => closeLoop w (finishRequest w c req curlAbortedByCallback) fuel

def httpClientClose (w : World) (c : HttpClient) : HttpClient :=
  if c.closing then c
  else closeLoop w { c with closing := true } c.active.toNat

inductive Event
  | request (r : RequestCall)
  | cancel (req : Nat)
  | write (req : Nat) (data : Bytes)
  | report (req : Nat) (result : CurlCode)
  | note
  | multi
  | reap
  | close

/-- libcurl calls nothing for a handle that is not in the multi handle and reports DONE once for
one that is. After the close both the multi handle and the timers are gone. -/
def step (w : World) (c : HttpClient) : Event → Option HttpClient
  | .request r => some (httpRequest c r).1
  | .cancel req => if c.allocated req then some (httpCancel w c req) else none
  | .write req data => if c.added req then some (writeCb w c req data).1 else none
  | .report req result =>
    if c.added req && !c.reported req then
      some { c with
        reported := fun i => if i = req then true else c.reported i
        msgs := c.msgs ++ [.done req result] }
    else none
  | .note => if c.closing then none else some { c with msgs := c.msgs ++ [.other] }
  | .multi => if c.closing then none else some (checkMultiInfo w c)
  | .reap =>
    if c.reapArmed && !c.closing then some (reapCb w { c with reapArmed := false }) else none
  | .close => some (httpClientClose w c)

end Mua.Http
