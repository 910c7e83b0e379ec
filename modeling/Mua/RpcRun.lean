import Mua.Rpc

/-! # The channel serves frames in order

However the input is cut into reads, the channel has answered the frames whose
last byte has arrived, and holds the beginning of the next one.
-/

namespace Mua.Rpc

open Api Msgpack

theorem encodes_of_encodable {obj : Object} (h : obj.Encodable) :
    ∃ b, msgpackEncode obj = some b ∧ Encodes kMarshalDepthCap obj.wire b := by
  obtain ⟨b, hEmits, hEnc⟩ := encoded kMarshalDepthCap (Nat.zero_add _) obj h.1 h.2
  exact ⟨b, msgpackEncode_of_emits hEmits, hEnc⟩

theorem integer_encodable (n : Int64) : (Object.integer n).Encodable := ⟨Nat.zero_le _, trivial⟩

def Response.Written (r : Response) (b : Bytes) : Prop :=
  responseBytes r.msgid r.error r.result = some b ∧
    Encodes (kMarshalDepthCap + 1) r.object.wire b

theorem Response.written {r : Response} (hError : r.error.Encodable) (hResult : r.result.Encodable) :
    ∃ b, r.Written b := by
  obtain ⟨header, hHeader, hHead⟩ := mpEmitCount_head counted_array (by decide : 4 < 2 ^ 32)
  obtain ⟨type, hType, hTypeEnc⟩ := encodes_of_encodable (integer_encodable 1)
  obtain ⟨id, hId, hIdEnc⟩ := encodes_of_encodable (integer_encodable r.msgid)
  obtain ⟨error, hErr, hErrorEnc⟩ := encodes_of_encodable hError
  obtain ⟨result, hRes, hResultEnc⟩ := encodes_of_encodable hResult
  have hItems : List.Forall₂ (Encodes kMarshalDepthCap)
      [.integer 1, .integer r.msgid, r.error.wire, r.result.wire] [type, id, error, result] :=
    .cons hTypeEnc (.cons hIdEnc (.cons hErrorEnc (.cons hResultEnc .nil)))
  refine ⟨header ++ [type, id, error, result].flatten, ?_, .inr (.array hHead hItems)⟩
  rw [responseBytes, msgpackEncodeArrayHeader, hHeader, hType, hId, hErr, hRes]
  simp

theorem errorObject_encodable {err : Error} (h : err.msg.length ≤ maxText) :
    (errorObject err).Encodable := by
  have hCstr := length_cstr_le err.msg
  refine ⟨(by decide : 1 ≤ kMarshalDepthCap), (by decide : 2 < 2 ^ 32), trivial, ?_, trivial⟩
  change (cstr err.msg).length < 2 ^ 32
  rw [maxText] at h
  omega

/-- A frame as it stands on the wire, no longer than the channel takes. -/
def Framed (frame : Frame) (b : Bytes) : Prop :=
  Encodes kMarshalDepthCap frame.object b ∧ b.length ≤ kRpcMaxMessage

theorem maxMessage_le {b : Bytes} (h : b.length ≤ kRpcMaxMessage) : b.length ≤ 2 ^ 31 := by
  rw [kRpcMaxMessage] at h
  omega

/-- The method and the parameters of a call, within the bounds of a frame. -/
def CallBounded (method : Bytes) (params : Object) : Prop := method.length ≤ 2 ^ 31 ∧ Bounded params

theorem bounded_item {items : List Object} (h : Bounded (.array items)) :
    ∀ item ∈ items, Bounded item := by
  intro item hItem
  have hNesting := Object.nesting_item hItem
  exact ⟨Nat.le_trans (Nat.le_of_lt hNesting) h.1, Object.itemsFit_iff.mp h.2.2 item hItem⟩

theorem Framed.bounded {frame : Frame} {b : Bytes} (h : Framed frame b) : Bounded frame.object := by
  obtain ⟨hNesting, hFits⟩ := h.1.bounds
  exact ⟨hNesting, hFits.mono (maxMessage_le h.2)⟩

theorem Framed.request {msgid : Int64} {method b : Bytes} {params : Object}
    (h : Framed (.request msgid method params) b) : CallBounded method params := by
  have hItems := bounded_item h.bounded
  have hMethod := hItems (.string method) (by simp)
  exact ⟨hMethod.2, hItems params (by simp)⟩

theorem Framed.notification {method b : Bytes} {params : Object}
    (h : Framed (.notification method params) b) : CallBounded method params := by
  have hItems := bounded_item h.bounded
  have hMethod := hItems (.string method) (by simp)
  exact ⟨hMethod.2, hItems params (by simp)⟩

theorem invoke_sound {st : Stores} (hSound : st.Sound) {method : Bytes} {params : Object}
    (h : CallBounded method params) : (invoke st method params).Sound := by
  rw [invoke]
  cases apiDispatchFind method with
  | none =>
    have := length_cstr_le method
    have := h.1
    have : (ascii "unknown method: ").length = 16 := by decide
    change (unknownMethod method).msg.length ≤ maxText
    simp only [unknownMethod, List.length_append, maxText]
    omega
  | some fn =>
    cases params with
    | array args => exact call_sound fn .rpc hSound (bounded_item h.2)
    | _ => exact validation_length (by decide)

/-- What a channel does for frames: their responses in order, and the calls on the stores. -/
structure Served (s : RpcServer) (frames : List Frame) (s' : RpcServer) : Prop where
  responses : ∃ responses bytes, serveAll s.stores frames = some (s'.stores, responses) ∧
    List.Forall₂ Response.Written responses bytes ∧ s'.out = s.out ++ bytes.flatten
  sound : s'.stores.Sound
  open' : s'.stopping = s.stopping

theorem Served.refl {s : RpcServer} (hSound : s.stores.Sound) : Served s [] s :=
  ⟨⟨[], [], rfl, .nil, (List.append_nil _).symm⟩, hSound, rfl⟩

theorem serveAll_append {st st' : Stores} {before after : List Frame} {responses : List Response}
    (h : serveAll st before = some (st', responses)) :
    serveAll st (before ++ after) =
      (serveAll st' after).map fun (st'', more) => (st'', responses ++ more) := by
  induction before generalizing st responses with
  | nil =>
    cases h
    rw [List.nil_append]
    cases serveAll st' after <;> rfl
  | cons frame rest ih =>
    rw [serveAll] at h
    obtain ⟨⟨st₁, first⟩, hFirst, hRest⟩ := Option.bind_eq_some_iff.mp h
    obtain ⟨⟨st₂, others⟩, hOthers, hEq⟩ := Option.map_eq_some_iff.mp hRest
    cases hEq
    rw [List.cons_append, serveAll, hFirst, Option.bind_some]
    dsimp only
    rw [ih hOthers]
    cases serveAll st' after with
    | none => rfl
    | some result => simp

theorem Served.trans {s s₁ s₂ : RpcServer} {before after : List Frame} (h : Served s before s₁)
    (h' : Served s₁ after s₂) : Served s (before ++ after) s₂ := by
  obtain ⟨responses, bytes, hServe, hWritten, hOut⟩ := h.responses
  obtain ⟨responses', bytes', hServe', hWritten', hOut'⟩ := h'.responses
  refine ⟨⟨responses ++ responses', bytes ++ bytes', ?_, List.rel_append hWritten hWritten', ?_⟩,
    h'.sound, h'.open'.trans h.open'⟩
  · rw [serveAll_append hServe, hServe']
    rfl
  · rw [hOut', hOut, List.flatten_append, List.append_assoc]

theorem serveAll_single {st : Stores} {frame : Frame} :
    serveAll st [frame] = frame.serve st := by
  rw [serveAll]
  cases frame.serve st with
  | none => rfl
  | some result => simp [serveAll]

/-- A frame is served as its call says, whatever the buffer holds. -/
theorem handleFrame_served {s : RpcServer} (hSound : s.stores.Sound) {frame : Frame} {b : Bytes}
    (h : Framed frame b) :
    ∃ s', handleFrame s frame.object = some s' ∧ Served s [frame] s' := by
  cases frame with
  | request msgid method params =>
    have hInvoke := invoke_sound hSound h.request
    have hHandle : handleFrame s (Frame.request msgid method params).object =
        dispatchAndRespond s msgid method params := rfl
    rw [hHandle, dispatchAndRespond]
    rcases hOutcome : invoke s.stores method params with _ | err | ⟨result, st'⟩
    · rw [hOutcome] at hInvoke
      cases hInvoke
    · rw [hOutcome] at hInvoke
      obtain ⟨bytes, hWritten⟩ :=
        (Response.mk msgid (errorObject err) .nil).written (errorObject_encodable hInvoke) nil_encodable
      refine ⟨{ s with out := s.out ++ bytes }, ?_, ⟨[⟨msgid, errorObject err, .nil⟩], [bytes], ?_,
        .cons hWritten .nil, by simp⟩, hSound, rfl⟩
      · rw [Option.bind_some]
        dsimp only
        rw [writeResponse, hWritten.1]
        rfl
      · rw [serveAll_single, Frame.serve, hOutcome]
        rfl
    · rw [hOutcome] at hInvoke
      obtain ⟨bytes, hWritten⟩ := (Response.mk msgid .nil result).written nil_encodable hInvoke.1
      refine ⟨{ s with stores := st', out := s.out ++ bytes }, ?_, ⟨[⟨msgid, .nil, result⟩], [bytes],
        ?_, .cons hWritten .nil, by simp⟩, hInvoke.2, rfl⟩
      · rw [Option.bind_some]
        dsimp only
        rw [writeResponse, hWritten.1]
        rfl
      · rw [serveAll_single, Frame.serve, hOutcome]
        rfl
  | notification method params =>
    have hInvoke := invoke_sound hSound h.notification
    have hHandle : handleFrame s (Frame.notification method params).object =
        (invoke s.stores method params).map fun outcome =>
          (outcome.toOption.map fun answer => { s with stores := answer.2 }).getD s := by
      change dispatchNotify s method params = _
      unfold dispatchNotify invoke
      cases apiDispatchFind method with
      | none => rfl
      | some fn =>
        cases params with
        | array args => exact congrArg (Option.map · _) (funext fun outcome => by cases outcome <;> rfl)
        | _ => rfl
    rw [hHandle]
    rcases hOutcome : invoke s.stores method params with _ | err | ⟨result, st'⟩
    · rw [hOutcome] at hInvoke
      cases hInvoke
    · refine ⟨s, rfl, ⟨[], [], ?_, .nil, by simp⟩, hSound, rfl⟩
      rw [serveAll_single, Frame.serve, hOutcome]
      rfl
    · rw [hOutcome] at hInvoke
      refine ⟨{ s with stores := st' }, rfl, ⟨[], [], ?_, .nil, by simp⟩, hInvoke.2, rfl⟩
      rw [serveAll_single, Frame.serve, hOutcome]
      rfl

theorem Framed.ne_nil {frame : Frame} {b : Bytes} (h : Framed frame b) : b ≠ [] := h.1.ne_nil

theorem drain_stop {s : RpcServer} (h : s.buf = []) : rpcDrain s = some s := by
  rw [rpcDrain, dif_neg]
  rintro ⟨-, hBuf⟩
  exact hBuf h

theorem drain_partial {s : RpcServer} {frame : Frame} {b more : Bytes} (h : Framed frame b)
    (hBuf : s.buf ++ more = b) (hMore : more ≠ []) : rpcDrain s = some s := by
  rcases eq_or_ne s.buf [] with hEmpty | hBuf'
  · exact drain_stop hEmpty
  · have hLt : s.buf.length < b.length := by
      rw [← hBuf, List.length_append]
      have := List.length_pos_of_ne_nil hMore
      omega
    have hDecode := decoded_of_encodes h.1 []
    rw [List.append_nil] at hDecode
    have hStop : msgpackToObject s.buf = .error .incomplete := by
      have hTake : b.take s.buf.length = s.buf := by
        rw [← hBuf, List.take_left]
      have := (msgpackToObject_stable b []).2.2 _ _ hDecode _ hLt
      rwa [hTake] at this
    have hFits : ¬ kRpcMaxMessage < s.buf.length := by
      have := h.2
      omega
    rw [rpcDrain]
    split
    · split
      · rfl
      · rename_i hError
        rw [hStop] at hError
        cases hError
      · rename_i hOk
        rw [hStop] at hOk
        cases hOk
    · rfl

theorem drain_frame {s : RpcServer} {frame : Frame} {b rest : Bytes} (h : Framed frame b)
    (hOpen : s.stopping = false) (hBuf : s.buf = b ++ rest) :
    rpcDrain s = (handleFrame s frame.object).bind fun s' => rpcDrain { s' with buf := rest } := by
  have hDecode : msgpackToObject s.buf = .ok (frame.object, b.length) := by
    rw [hBuf]
    exact decoded_of_encodes h.1 rest
  have hNonempty : s.buf ≠ [] := by
    rw [hBuf]
    exact List.append_ne_nil_of_left_ne_nil h.ne_nil rest
  have hDrop : s.buf.drop b.length = rest := by rw [hBuf, List.drop_left]
  rw [rpcDrain, dif_pos ⟨hOpen, hNonempty⟩]
  split
  · rename_i hStop
    rw [hDecode] at hStop
    cases hStop
  · rename_i hStop
    rw [hDecode] at hStop
    cases hStop
  · rename_i hOk
    rw [hDecode] at hOk
    cases hOk
    rw [hDrop]

def Short (buf : Bytes) : List Bytes → Prop
  | [] => buf = []
  | b :: _ => buf.length < b.length

/-- What `s` becomes when the frames whose bytes are all there are served: the rest of the
buffer is the beginning of the next frame. -/
def Drained (s : RpcServer) (frames : List Frame) (future : Bytes) (s' : RpcServer) : Prop :=
  ∃ before after afterEncs, frames = before ++ after ∧ Served s before s' ∧
    List.Forall₂ Framed after afterEncs ∧ s'.buf ++ future = afterEncs.flatten ∧
    Short s'.buf afterEncs

theorem drain_spec {frames : List Frame} {encs : List Bytes} (h : List.Forall₂ Framed frames encs)
    {s : RpcServer} (hSound : s.stores.Sound) (hOpen : s.stopping = false) {future : Bytes}
    (hBytes : s.buf ++ future = encs.flatten) :
    ∃ s', rpcDrain s = some s' ∧ Drained s frames future s' := by
  induction h generalizing s with
  | nil =>
    have hBuf : s.buf = [] := (List.append_eq_nil_iff.mp hBytes).1
    exact ⟨s, drain_stop hBuf, [], [], [], rfl, .refl hSound, .nil, hBytes, hBuf⟩
  | @cons frame b frames encs hFrame hFrames ih =>
    rw [List.flatten_cons] at hBytes
    rcases Nat.lt_or_ge s.buf.length b.length with hShort | hLong
    · obtain ⟨more, hMore, hFuture⟩ : ∃ more, s.buf ++ more = b ∧ future = more ++ encs.flatten := by
        have hPrefix := List.append_eq_append_iff.mp hBytes
        rcases hPrefix with ⟨more, hb, hFuture⟩ | ⟨extra, hBuf, -⟩
        · exact ⟨more, hb.symm, hFuture⟩
        · rw [hBuf, List.length_append] at hShort
          omega
      have hMore' : more ≠ [] := by
        rintro rfl
        rw [← hMore, List.append_nil] at hShort
        omega
      refine ⟨s, drain_partial hFrame hMore hMore', [], frame :: _, b :: encs, rfl, .refl hSound,
        .cons hFrame hFrames, ?_, hShort⟩
      rw [List.flatten_cons]
      exact hBytes
    · obtain ⟨rest, hBuf, hRest⟩ : ∃ rest, s.buf = b ++ rest ∧ rest ++ future = encs.flatten := by
        rcases List.append_eq_append_iff.mp hBytes with ⟨more, hb, hFuture⟩ | ⟨extra, hBuf, hRest⟩
        · rw [hb, List.length_append] at hLong
          obtain rfl := List.eq_nil_of_length_eq_zero (show more.length = 0 by omega)
          rw [List.append_nil] at hb
          exact ⟨[], by rw [hb, List.append_nil], hFuture⟩
        · exact ⟨extra, hBuf, hRest.symm⟩
      obtain ⟨s₁, hHandle, hServed⟩ := handleFrame_served hSound hFrame
      rw [drain_frame hFrame hOpen hBuf, hHandle, Option.bind_some]
      obtain ⟨s', hDrain, before, after, afterEncs, rfl, hServed', hAfter, hFuture, hShort⟩ :=
        ih (s := ⟨rest, s₁.stopping, s₁.stores, s₁.out⟩) hServed.sound (hServed.open'.trans hOpen) hRest
      refine ⟨s', hDrain, frame :: before, after, afterEncs, rfl, ?_, hAfter, hFuture, hShort⟩
      have hBoth : Served s ([frame] ++ before) s' :=
        hServed.trans ⟨hServed'.responses, hServed'.sound, hServed'.open'⟩
      exact hBoth

theorem short_nil {frames : List Frame} {encs : List Bytes}
    (h : List.Forall₂ Framed frames encs) : Short [] encs := by
  cases h with
  | nil => rfl
  | cons hFrame hFrames => exact List.length_pos_of_ne_nil hFrame.ne_nil

theorem short_all {buf : Bytes} {frames : List Frame} {encs : List Bytes}
    (h : List.Forall₂ Framed frames encs) (hBytes : buf = encs.flatten) (hShort : Short buf encs) :
    frames = [] ∧ buf = [] := by
  cases h with
  | nil => exact ⟨rfl, hShort⟩
  | cons hFrame hFrames =>
    rw [Short, hBytes, List.flatten_cons, List.length_append] at hShort
    omega

theorem reads_spec (reads : List Bytes) {frames : List Frame} {encs : List Bytes}
    (h : List.Forall₂ Framed frames encs) {s : RpcServer} (hSound : s.stores.Sound)
    (hOpen : s.stopping = false) (hBytes : s.buf ++ reads.flatten = encs.flatten)
    (hShort : Short s.buf encs) :
    ∃ s', rpcReads s reads = some s' ∧ Served s frames s' ∧ s'.buf = [] := by
  induction reads generalizing s frames encs with
  | nil =>
    rw [List.flatten_nil, List.append_nil] at hBytes
    obtain ⟨rfl, hBuf⟩ := short_all h hBytes hShort
    exact ⟨s, rfl, .refl hSound, hBuf⟩
  | cons data reads ih =>
    rw [rpcReads, if_neg (by rw [hOpen]; exact Bool.false_ne_true), readCb]
    rcases eq_or_ne data [] with rfl | hData
    · rw [if_pos rfl, Option.bind_some]
      exact ih h hSound hOpen hBytes hShort
    · rw [if_neg hData]
      rw [List.flatten_cons, ← List.append_assoc] at hBytes
      obtain ⟨s₁, hDrain, before, after, afterEncs, rfl, hServed, hAfter, hFuture, hShort₁⟩ :=
        drain_spec h (s := rpcAppend s data) hSound hOpen hBytes
      rw [hDrain, Option.bind_some]
      obtain ⟨s', hReads, hServed', hBuf⟩ :=
        ih hAfter hServed.sound (hServed.open'.trans hOpen) hFuture hShort₁
      have hFirst : Served s before s₁ := ⟨hServed.responses, hServed.sound, hServed.open'⟩
      exact ⟨s', hReads, hFirst.trans hServed', hBuf⟩

def Frame.requestId : Frame → Option Int64
  | .request msgid .. => some msgid
  | .notification .. => none

theorem serveAll_ids {frames : List Frame} {st st' : Stores} {responses : List Response}
    (h : serveAll st frames = some (st', responses)) :
    responses.map (·.msgid) = frames.filterMap Frame.requestId := by
  induction frames generalizing st responses with
  | nil =>
    cases h
    rfl
  | cons frame rest ih =>
    rw [serveAll] at h
    obtain ⟨⟨st₁, first⟩, hFirst, hRest⟩ := Option.bind_eq_some_iff.mp h
    obtain ⟨⟨st₂, others⟩, hOthers, hEq⟩ := Option.map_eq_some_iff.mp hRest
    cases hEq
    rw [List.map_append, ih hOthers]
    cases frame with
    | request msgid method params =>
      obtain ⟨outcome, -, hServe⟩ := Option.map_eq_some_iff.mp hFirst
      rcases outcome with err | ⟨result, st₂⟩ <;> cases hServe <;> rfl
    | notification method params =>
      obtain ⟨outcome, -, hServe⟩ := Option.map_eq_some_iff.mp hFirst
      rcases outcome with err | ⟨result, st₂⟩ <;> cases hServe <;> rfl

/-- However well-formed frames are cut into reads, the channel applies their calls one after
another, writes the response of each request in turn and nothing else, and stays open. -/
theorem rpcServe_serves (st : Stores) (hSound : st.Sound) (frames : List Frame)
    (encs reads : List Bytes) (hFrames : List.Forall₂ Framed frames encs)
    (hReads : reads.flatten = encs.flatten) :
    ∃ s responses bytes, rpcServe st reads = some s ∧
      serveAll st frames = some (s.stores, responses) ∧
      responses.map (·.msgid) = frames.filterMap Frame.requestId ∧
      List.Forall₂ Response.Written responses bytes ∧ s.out = bytes.flatten ∧
      s.stopping = false ∧ s.buf = [] := by
  have hStart : Short [] encs := short_nil hFrames
  obtain ⟨s, hServe, hServed, hBuf⟩ :=
    reads_spec reads hFrames (s := ⟨[], false, st, []⟩) hSound rfl hReads hStart
  obtain ⟨responses, bytes, hAll, hWritten, hOut⟩ := hServed.responses
  exact ⟨s, responses, bytes, hServe, hAll, serveAll_ids hAll, hWritten, hOut, hServed.open', hBuf⟩

/-- A request for a method without a name, cut after its second byte. -/
theorem rpcServe_serves_sample :
    ∃ s responses bytes,
      rpcServe ⟨.empty, .empty, none⟩ [[0x94, 0x00], [0x07, 0xa0, 0xc0]] = some s ∧
      serveAll ⟨.empty, .empty, none⟩ [.request 7 [] .nil] = some (s.stores, responses) ∧
      responses.map (·.msgid) = [7] ∧
      List.Forall₂ Response.Written responses bytes ∧ s.out = bytes.flatten ∧
      s.stopping = false ∧ s.buf = [] := by
  have hHead : arrayFamily.Head
      ([.integer 0, .integer 7, .string [], .nil] : List Object).length [0x94] :=
    .fix (b := 0x94) (by decide) (by decide)
  have hZero : Encodes 31 (.integer 0) [0x00] := .inl (.positive (b := 0x00) (by decide))
  have hId : Encodes 31 (.integer 7) [0x07] := .inl (.positive (b := 0x07) (by decide))
  have hName : strFamily.Head ([] : Bytes).length [0xa0] :=
    .fix (b := 0xa0) (by decide) (by decide)
  have hMethod : Encodes 31 (.string []) ([0xa0] ++ []) := .inl (.str (.mk hName))
  have hItems : List.Forall₂ (Encodes 31) [.integer 0, .integer 7, .string [], .nil]
      [[0x00], [0x07], [0xa0], [0xc0]] :=
    .cons hZero (.cons hId (.cons hMethod (.cons (.inl .nil) .nil)))
  have hFrame : Framed (.request 7 [] .nil) [0x94, 0x00, 0x07, 0xa0, 0xc0] :=
    ⟨.inr (.array hHead hItems), by decide⟩
  exact rpcServe_serves ⟨.empty, .empty, none⟩ empty_sound [.request 7 [] .nil]
    [[0x94, 0x00, 0x07, 0xa0, 0xc0]] [[0x94, 0x00], [0x07, 0xa0, 0xc0]] (.cons hFrame .nil) rfl

end Mua.Rpc
