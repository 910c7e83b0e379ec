import Mua.Lib.Framing
import Mua.RpcRun

/-! # The cut of the input into reads

The channel as a capped stream of frames. What it dispatches and whether it closes
do not depend on the reads, unless a frame passes the cap by no more than one read:
the cap is looked at where the decoder wants more, and one read completes the frame.
-/

namespace Mua.Rpc

open Api Msgpack Framing

def kRpcReadChunk : Nat := 65536

def verdict (buf : Bytes) : Verdict Object :=
  match msgpackToObject buf with
  | .ok (frame, consumed) => .frame frame consumed
  | .error .incomplete => .more
  | .error (.error _) => .bad

theorem verdict_frame {buf : Bytes} {f : Object} {n : Nat} :
    verdict buf = .frame f n ↔ msgpackToObject buf = .ok (f, n) := by
  unfold verdict
  rcases msgpackToObject buf with (_ | _) | ⟨f', n'⟩ <;> simp

theorem verdict_more {buf : Bytes} :
    verdict buf = .more ↔ msgpackToObject buf = .error .incomplete := by
  unfold verdict
  rcases msgpackToObject buf with (_ | _) | ⟨f', n'⟩ <;> simp

theorem verdict_bad {buf : Bytes} :
    verdict buf = .bad ↔ ∃ err, msgpackToObject buf = .error (.error err) := by
  unfold verdict
  rcases msgpackToObject buf with (_ | _) | ⟨f', n'⟩ <;> simp

def rpcCodec : Codec Object Byte where
  decode := verdict
  size_pos := fun h => consumed_pos (verdict_frame.mp h)
  size_le := fun h => (ok_iff.mp (verdict_frame.mp h)).1
  frame_append := fun more h => verdict_frame.mpr (ok_append (verdict_frame.mp h) more)
  bad_append := by
    intro b more h
    obtain ⟨err, hErr⟩ := verdict_bad.mp h
    exact verdict_bad.mpr ⟨err, error_append hErr more⟩
  frame_take := by
    intro b f n h
    obtain ⟨hLe, hEnc⟩ := ok_iff.mp (verdict_frame.mp h)
    have hTake := decoded_of_encodes hEnc []
    rw [List.append_nil, List.length_take_of_le hLe] at hTake
    exact verdict_frame.mpr hTake

/-- A frame as `handleFrame` takes it: what it leaves, and whether it closes the channel. -/
def rpcHandle (state : Stores × Bytes) (f : Object) : Option ((Stores × Bytes) × Bool) :=
  (handleFrame ⟨[], false, state.1, state.2⟩ f).map fun s => ((s.stores, s.out), s.stopping)

def server (c : Channel (Stores × Bytes) Object Byte) : RpcServer :=
  ⟨c.buf, c.stopping, c.state.1, c.state.2⟩

/-- The channel over the reads of its input, with the frames it dispatches. -/
def rpcDispatched (st : Stores) (reads : List Bytes) :
    Option (Channel (Stores × Bytes) Object Byte) :=
  run rpcCodec kRpcMaxMessage rpcHandle ⟨(st, []), [], false, []⟩ reads

/-- The frames dispatched, and whether the channel is closed before the end of its input. -/
def observed (st : Stores) (reads : List Bytes) : Option (List Object × Bool) :=
  (rpcDispatched st reads).map Channel.observe

theorem writeResponse_buf (s : RpcServer) (buf : Bytes) (msgid : Int64) (error result : Object) :
    writeResponse { s with buf } msgid error result =
      (writeResponse s msgid error result).map fun s' => { s' with buf } := by
  unfold writeResponse
  rw [Option.map_map]
  rfl

theorem dispatchAndRespond_buf (s : RpcServer) (buf : Bytes) (msgid : Int64) (method : Bytes)
    (params : Object) :
    dispatchAndRespond { s with buf } msgid method params =
      (dispatchAndRespond s msgid method params).map fun s' => { s' with buf } := by
  unfold dispatchAndRespond
  rcases invoke s.stores method params with _ | (err | ⟨result, stores⟩)
  · rfl
  · exact writeResponse_buf s buf msgid (errorObject err) .nil
  · exact writeResponse_buf { s with stores } buf msgid .nil result

theorem dispatchNotify_buf (s : RpcServer) (buf : Bytes) (method : Bytes) (params : Object) :
    dispatchNotify { s with buf } method params =
      (dispatchNotify s method params).map fun s' => { s' with buf } := by
  unfold dispatchNotify
  cases apiDispatchFind method with
  | none => rfl
  | some fn =>
    cases params with
    | array args =>
      dsimp only
      rw [Option.map_map]
      rcases fn.call .rpc s.stores args with _ | (err | ⟨result, stores⟩) <;> rfl
    | _ => rfl

theorem handleFrame_buf (s : RpcServer) (buf : Bytes) (f : Object) :
    handleFrame { s with buf } f = (handleFrame s f).map fun s' => { s' with buf } := by
  unfold handleFrame
  split
  · split
    · split
      · exact dispatchAndRespond_buf s buf _ _ _
      · rfl
    · rfl
  · split
    · split
      · exact dispatchNotify_buf s buf _ _
      · rfl
    · rfl
  · rfl

theorem handleFrame_server {s : RpcServer} (h : s.stopping = false) (f : Object) :
    handleFrame s f = (rpcHandle (s.stores, s.out) f).map fun answer =>
      ⟨s.buf, answer.2, answer.1.1, answer.1.2⟩ := by
  rcases s with ⟨buf, stopping, stores, out⟩
  dsimp only at h ⊢
  subst h
  rw [rpcHandle, Option.map_map]
  exact handleFrame_buf ⟨[], false, stores, out⟩ buf f

theorem rpcDrain_server (c : Channel (Stores × Bytes) Object Byte) :
    rpcDrain (server c) = (drain rpcCodec kRpcMaxMessage rpcHandle c).map server := by
  induction hLength : c.buf.length using Nat.strong_induction_on generalizing c with
  | h length ih =>
    rcases c with ⟨⟨stores, out⟩, buf, stopping, frames⟩
    dsimp only [server] at hLength ⊢
    rw [rpcDrain]
    split
    · rename_i hLoop
      obtain ⟨rfl, hBuf⟩ := hLoop
      split
      · rename_i hMore
        rw [drain_more rfl hBuf (verdict_more.mpr hMore)]
        split <;> rfl
      · rename_i hBad
        rw [drain_bad rfl hBuf (verdict_bad.mpr ⟨_, hBad⟩)]
        rfl
      · rename_i f n hDecode
        have hPos := consumed_pos hDecode
        have hNonempty : 0 < buf.length := List.length_pos_of_ne_nil hBuf
        rw [Framing.drain_frame rfl (verdict_frame.mpr hDecode), handleFrame_server rfl]
        dsimp only
        cases rpcHandle (stores, out) f with
        | none => rfl
        | some answer =>
          refine ih (buf.drop n).length ?_
            ⟨answer.1, buf.drop n, answer.2, frames ++ [f]⟩ rfl
          rw [List.length_drop]
          omega
    · rename_i hLoop
      rcases Bool.eq_false_or_eq_true stopping with hStop | hOpen
      · rw [drain_stopped hStop]
        rfl
      · rw [drain_nil (not_not.mp fun hBuf => hLoop ⟨hOpen, hBuf⟩)]
        rfl

theorem rpcReads_server (c : Channel (Stores × Bytes) Object Byte) (reads : List Bytes) :
    rpcReads (server c) reads = (run rpcCodec kRpcMaxMessage rpcHandle c reads).map server := by
  induction reads generalizing c with
  | nil => rfl
  | cons data rest ih =>
    rw [rpcReads, run]
    change (if c.stopping then _ else _) = _
    split
    · rfl
    · rw [readCb, feed, Option.map_bind]
      split
      · exact ih c
      · have hAppend : rpcAppend (server c) data = server { c with buf := c.buf ++ data } := rfl
        rw [hAppend, rpcDrain_server, Option.bind_map]
        congr 1
        funext c'
        exact ih c'

theorem rpcServe_eq (st : Stores) (reads : List Bytes) :
    rpcServe st reads = (rpcDispatched st reads).map server :=
  rpcReads_server ⟨(st, []), [], false, []⟩ reads

theorem handleFrame_call {s s' : RpcServer} {f : Object} (h : handleFrame s f = some s')
    (hOpen : s'.stopping = false) : ∃ call : Frame, f = call.object := by
  unfold handleFrame at h
  split at h
  · split at h
    · rename_i hKind
      subst hKind
      split at h
      · exact ⟨.request _ _ _, rfl⟩
      · cases h
        cases hOpen
    · cases h
      cases hOpen
  · split at h
    · rename_i hKind
      subst hKind
      split at h
      · exact ⟨.notification _ _, rfl⟩
      · cases h
        cases hOpen
    · cases h
      cases hOpen
  · cases h
    cases hOpen

theorem rpcHandle_call {state state' : Stores × Bytes} {f : Object}
    (h : rpcHandle state f = some (state', false)) : ∃ call : Frame, f = call.object := by
  obtain ⟨s, hHandle, hAnswer⟩ := Option.map_eq_some_iff.mp h
  exact handleFrame_call hHandle (Prod.ext_iff.mp hAnswer).2

theorem rpcHandle_framed {state : Stores × Bytes} (hSound : state.1.Sound) {call : Frame}
    {b : Bytes} (h : Framed call b) :
    ∃ state', rpcHandle state call.object = some (state', false) ∧ state'.1.Sound := by
  obtain ⟨s, hHandle, hServed⟩ :=
    handleFrame_served (s := ⟨[], false, state.1, state.2⟩) hSound h
  refine ⟨(s.stores, s.out), ?_, hServed.sound⟩
  rw [rpcHandle, hHandle, Option.map_some, hServed.open']

theorem calls_of_reaches {state last : Stores × Bytes} {stream rest : Bytes} {frames : List Object}
    (h : Reaches rpcCodec kRpcMaxMessage rpcHandle state stream frames last rest) :
    ∃ calls encs, List.Forall₂ Framed calls encs ∧ stream = encs.flatten ++ rest ∧
      frames = calls.map Frame.object := by
  induction h with
  | here state stream => exact ⟨[], [], .nil, rfl, rfl⟩
  | @next state state' last stream rest f size frames hDecode hSize hHandle _ ih =>
    obtain ⟨calls, encs, hFramed, hStream, rfl⟩ := ih
    obtain ⟨call, rfl⟩ := rpcHandle_call hHandle
    obtain ⟨hLe, hEnc⟩ := ok_iff.mp (verdict_frame.mp hDecode)
    have hFirst : Framed call (stream.take size) := by
      refine ⟨hEnc, ?_⟩
      rw [List.length_take_of_le hLe]
      exact hSize
    refine ⟨call :: calls, stream.take size :: encs, .cons hFirst hFramed, ?_, rfl⟩
    rw [List.flatten_cons, List.append_assoc, ← hStream, List.take_append_drop]

theorem reaches_of_calls {calls : List Frame} {encs : List Bytes}
    (h : List.Forall₂ Framed calls encs) (state : Stores × Bytes) (hSound : state.1.Sound)
    (rest : Bytes) :
    ∃ last, Reaches rpcCodec kRpcMaxMessage rpcHandle state (encs.flatten ++ rest)
      (calls.map Frame.object) last rest := by
  induction h generalizing state with
  | nil => exact ⟨state, .here state rest⟩
  | @cons call b calls encs hFirst _ ih =>
    obtain ⟨state', hHandle, hSound'⟩ := rpcHandle_framed hSound hFirst
    obtain ⟨last, hReaches⟩ := ih state' hSound'
    refine ⟨last, ?_⟩
    rw [List.flatten_cons, List.append_assoc]
    refine .next (verdict_frame.mpr (decoded_of_encodes hFirst.1 _)) hFirst.2 hHandle ?_
    rwa [List.drop_left]

/-- Every cut into reads shows the same, and a frame over the cap closes the channel undispatched. -/
structure CutsAgree (st : Stores) (stream : Bytes) : Prop where
  same : ∀ reads reads', Splits kRpcReadChunk reads stream → Splits kRpcReadChunk reads' stream →
    observed st reads = observed st reads'
  capped : ∀ reads, Splits kRpcReadChunk reads stream → ∀ calls encs f b rest,
    List.Forall₂ Framed calls encs → stream = encs.flatten ++ (b ++ rest) →
      Encodes kMarshalDepthCap f b → kRpcMaxMessage < b.length →
        observed st reads = some (calls.map Frame.object, true)

/-- Behind calls within the cap stands a frame that is over it by one read at most. -/
def NearCap (stream : Bytes) : Prop :=
  ∃ calls encs f b rest, List.Forall₂ Framed calls encs ∧ stream = encs.flatten ++ (b ++ rest) ∧
    Encodes kMarshalDepthCap f b ∧ kRpcMaxMessage < b.length ∧
    b.length ≤ kRpcMaxMessage + kRpcReadChunk

theorem straddles_iff {st : Stores} (hSound : st.Sound) {stream : Bytes} :
    Straddles rpcCodec kRpcMaxMessage rpcHandle kRpcReadChunk (st, []) stream ↔
      NearCap stream := by
  constructor
  · rintro ⟨frames, last, rest, f, n, hReaches, hDecode, hOver, hNear⟩
    obtain ⟨calls, encs, hFramed, hStream, -⟩ := calls_of_reaches hReaches
    obtain ⟨hLe, hEnc⟩ := ok_iff.mp (verdict_frame.mp hDecode)
    refine ⟨calls, encs, f, rest.take n, rest.drop n, hFramed, ?_, hEnc, ?_⟩
    · rw [List.take_append_drop, hStream]
    · rw [List.length_take_of_le hLe]
      exact ⟨hOver, hNear⟩
  · rintro ⟨calls, encs, f, b, rest, hFramed, rfl, hEnc, hOver, hNear⟩
    obtain ⟨last, hReaches⟩ := reaches_of_calls hFramed (st, []) hSound (b ++ rest)
    exact ⟨_, last, _, f, b.length, hReaches, verdict_frame.mpr (decoded_of_encodes hEnc rest),
      hOver, hNear⟩

theorem cutsAgree_iff_splitSafe {st : Stores} (hSound : st.Sound) {stream : Bytes} :
    CutsAgree st stream ↔
      SplitSafe rpcCodec kRpcMaxMessage rpcHandle kRpcReadChunk (st, []) stream := by
  constructor
  · rintro ⟨hSame, hCapped⟩
    refine ⟨hSame, ?_⟩
    intro reads hReads frames last rest f n hReaches hDecode hOver
    obtain ⟨calls, encs, hFramed, hStream, rfl⟩ := calls_of_reaches hReaches
    obtain ⟨hLe, hEnc⟩ := ok_iff.mp (verdict_frame.mp hDecode)
    refine hCapped reads hReads calls encs f (rest.take n) (rest.drop n) hFramed ?_ hEnc ?_
    · rw [List.take_append_drop, hStream]
    · rw [List.length_take_of_le hLe]
      exact hOver
  · rintro ⟨hSame, hCapped⟩
    refine ⟨hSame, ?_⟩
    intro reads hReads calls encs f b rest hFramed hStream hEnc hOver
    obtain ⟨last, hReaches⟩ := reaches_of_calls hFramed (st, []) hSound (b ++ rest)
    rw [← hStream] at hReaches
    exact hCapped reads hReads _ last _ f b.length hReaches
      (verdict_frame.mpr (decoded_of_encodes hEnc rest)) hOver

theorem not_cutsAgree {st : Stores} (hSound : st.Sound) {stream : Bytes} (h : NearCap stream) :
    ¬CutsAgree st stream := by
  rw [cutsAgree_iff_splitSafe hSound, splitSafe_iff (by decide), not_not]
  exact (straddles_iff hSound).mpr h

/-- The cut of the input does not matter exactly where no frame is just over the cap. -/
theorem cutsAgree_iff (st : Stores) (hSound : st.Sound) (stream : Bytes) :
    CutsAgree st stream ↔ ¬NearCap stream := by
  rw [cutsAgree_iff_splitSafe hSound, splitSafe_iff (by decide), straddles_iff hSound]

/-- A notification with a string of 16 MiB: the string fits the cap, its notification does not. -/
def bigNotification (text : Bytes) : Bytes :=
  [0x93] ++ [[0x02], [0xa1, 0x78], [0xdb, 0x01, 0x00, 0x00, 0x00] ++ text].flatten

theorem bigNotification_encodes {text : Bytes} (h : text.length = 2 ^ 24) :
    Encodes kMarshalDepthCap (.array [.integer 2, .string [0x78], .string text])
      (bigNotification text) := by
  have hHead : arrayFamily.Head 3 [0x93] := .fix (b := 0x93) (by decide) (by decide)
  have hName : strFamily.Head ([0x78] : Bytes).length [0xa1] :=
    .fix (b := 0xa1) (by decide) (by decide)
  have hText : strFamily.Head text.length [0xdb, 0x01, 0x00, 0x00, 0x00] := by
    rw [h]
    exact .wide (p := [0x01, 0x00, 0x00, 0x00]) (by decide)
  exact .inr (.array hHead (.cons (.inl (.positive (b := 0x02) (by decide)))
    (.cons (.inl (.str (.mk hName))) (.cons (.inl (.str (.mk hText))) .nil))))

theorem bigNotification_near {text : Bytes} (h : text.length = 2 ^ 24) :
    NearCap (bigNotification text) := by
  have hLength : (bigNotification text).length = kRpcMaxMessage + 9 := by
    simp [bigNotification, kRpcMaxMessage, h]
  refine ⟨[], [], _, bigNotification text, [], .nil, ?_, bigNotification_encodes h, ?_, ?_⟩
  · rw [List.flatten_nil, List.nil_append, List.append_nil]
  · rw [hLength]
    exact Nat.lt_add_of_pos_right (by decide)
  · rw [hLength]
    exact Nat.add_le_add_left (by decide) _

/-- Two cuts of it tell apart a channel that closes and one that dispatches it. -/
theorem bigNotification_cuts :
    ¬CutsAgree ⟨.empty, .empty, none⟩ (bigNotification (List.replicate (2 ^ 24) 0x41)) :=
  not_cutsAgree empty_sound (bigNotification_near List.length_replicate)

/-- A request cut anywhere. -/
theorem cutsAgree_sample : CutsAgree ⟨.empty, .empty, none⟩ [0x94, 0x00, 0x07, 0xa0, 0xc0] := by
  refine (cutsAgree_iff ⟨.empty, .empty, none⟩ empty_sound _).mpr ?_
  rintro ⟨calls, encs, f, b, rest, -, hStream, -, hOver, -⟩
  have hLength := congrArg List.length hStream
  simp only [List.length_append, List.length_cons, List.length_nil, kRpcMaxMessage] at hLength hOver
  omega

end Mua.Rpc
