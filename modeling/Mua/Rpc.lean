import Mua.ApiSound

/-! # The RPC channel

rpc.c over its reads. The bytes written are `out`; `stopping` is set by
`begin_stop`, after which the loop reads no more. None stands for a failed
assertion of the codec or of a copy.
-/

namespace Mua.Rpc

open Api Msgpack

def kRpcMaxMessage : Nat := 16 * 2 ^ 20

structure RpcServer where
  buf : Bytes
  stopping : Bool
  stores : Stores
  out : Bytes

def beginStop (s : RpcServer) : RpcServer := { s with stopping := true }

/-- The four encodings of a response, behind the header of an array. -/
def responseBytes (msgid : Int64) (error result : Object) : Option Bytes :=
  (msgpackEncodeArrayHeader 4).bind fun header =>
    (msgpackEncode (.integer 1)).bind fun type => (msgpackEncode (.integer msgid)).bind fun id =>
      (msgpackEncode error).bind fun error => (msgpackEncode result).map fun result =>
        header ++ type ++ id ++ error ++ result

def writeResponse (s : RpcServer) (msgid : Int64) (error result : Object) : Option RpcServer :=
  (responseBytes msgid error result).map fun bytes => { s with out := s.out ++ bytes }

def errorCode : ErrorType → Int64
  | .exception => 0
  | .validation => 1

def errorObject (err : Error) : Object :=
  .array [.integer (errorCode err.type), .string (cstr err.msg)]

def unknownMethod (method : Bytes) : Error :=
  ⟨.validation, ascii "unknown method: " ++ cstr method⟩

def paramsNotArray : Error := validation "params must be an array"

def invoke (st : Stores) (method : Bytes) (params : Object) : Outcome :=
  match apiDispatchFind method with
  | none => some (.error (unknownMethod method))
  | some fn =>
    match params with
    | .array args => fn.call .rpc st args
    | _ => some (.error paramsNotArray)

def dispatchAndRespond (s : RpcServer) (msgid : Int64) (method : Bytes) (params : Object) :
    Option RpcServer :=
  (invoke s.stores method params).bind fun outcome =>
    match outcome with
    | .error err => writeResponse s msgid (errorObject err) .nil
    | .ok (result, stores) => writeResponse { s with stores } msgid .nil result

def dispatchNotify (s : RpcServer) (method : Bytes) (params : Object) : Option RpcServer :=
  match apiDispatchFind method, params with
  | some fn, .array args => (fn.call .rpc s.stores args).map fun outcome =>
    match outcome with
    | .error _ => s
    | .ok (_, stores) => { s with stores }
  | _, _ => some s

/-- What is not a request or a notification closes the channel. -/
def handleFrame (s : RpcServer) : Object → Option RpcServer
  | .array [.integer kind, id, method, params] =>
    if kind = 0 then
      match id, method with
      | .integer msgid, .string method => dispatchAndRespond s msgid method params
      | _, _ => some (beginStop s)
    else some (beginStop s)
  | .array [.integer kind, method, params] =>
    if kind = 2 then
      match method with
      | .string method => dispatchNotify s method params
      | _ => some (beginStop s)
    else some (beginStop s)
  | _ => some (beginStop s)

def rpcAppend (s : RpcServer) (data : Bytes) : RpcServer := { s with buf := s.buf ++ data }

theorem consumed_pos {buf : Bytes} {frame : Object} {consumed : Nat}
    (h : msgpackToObject buf = .ok (frame, consumed)) : 0 < consumed := by
  have hEnc := (ok_iff.mp h).2
  rcases Nat.eq_zero_or_pos consumed with rfl | hPos
  · exact absurd rfl hEnc.ne_nil
  · exact hPos

/-- Every complete frame is pulled out of the buffer, from its start each time. -/
def rpcDrain (s : RpcServer) : Option RpcServer :=
  if _hLoop : s.stopping = false ∧ s.buf ≠ [] then
    match _hDecode : msgpackToObject s.buf with
    | .error .incomplete =>
      if kRpcMaxMessage < s.buf.length then some (beginStop s) else some s
    | .error (.error _) => some (beginStop s)
    | .ok (frame, consumed) =>
      (handleFrame s frame).bind fun s' => rpcDrain { s' with buf := s.buf.drop consumed }
  else some s
termination_by s.buf.length
decreasing_by
  have hPos := consumed_pos _hDecode
  have hBuf := List.length_pos_of_ne_nil _hLoop.2
  simp only [List.length_drop]
  omega

/-- A read of no bytes is ignored; end of input stops the channel. -/
def readCb (s : RpcServer) (data : Bytes) : Option RpcServer :=
  if data = [] then some s else rpcDrain (rpcAppend s data)

def rpcReads (s : RpcServer) : List Bytes → Option RpcServer
  | [] => some s
  | data :: rest => if s.stopping then some s else (readCb s data).bind fun s' => rpcReads s' rest

def rpcServe (st : Stores) (reads : List Bytes) : Option RpcServer :=
  rpcReads ⟨[], false, st, []⟩ reads

inductive Frame
  | request (msgid : Int64) (method : Bytes) (params : Object)
  | notification (method : Bytes) (params : Object)

def Frame.object : Frame → Object
  | .request msgid method params => .array [.integer 0, .integer msgid, .string method, params]
  | .notification method params => .array [.integer 2, .string method, params]

structure Response where
  msgid : Int64
  error : Object
  result : Object

def Response.object (r : Response) : Object :=
  .array [.integer 1, .integer r.msgid, r.error, r.result]

/-- One frame: the call is applied to the stores, and a request has its response. -/
def Frame.serve (st : Stores) (frame : Frame) : Option (Stores × List Response) :=
  match frame with
  | .request msgid method params =>
    (invoke st method params).map fun outcome =>
      match outcome with
      | .error err => (st, [⟨msgid, errorObject err, .nil⟩])
      | .ok (result, st') => (st', [⟨msgid, .nil, result⟩])
  | .notification method params =>
    (invoke st method params).map fun outcome =>
      match outcome with
      | .error _ => (st, [])
      | .ok (_, st') => (st', [])

def serveAll (st : Stores) : List Frame → Option (Stores × List Response)
  | [] => some (st, [])
  | frame :: rest => (frame.serve st).bind fun (st', first) =>
    (serveAll st' rest).map fun (st'', responses) => (st'', first ++ responses)

end Mua.Rpc
