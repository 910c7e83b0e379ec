import Mua.Lib.Walk
import Mua.Marshal

/-! # The msgpack codec

msgpack.c. A read takes the bytes from its position to the end of the buffer and
returns those after the value. A C frame points into the half-built tree; a frame
here holds the children read so far and is handed the next one when it is complete.
-/

namespace Mua

/-- `(double)f` of the float with these bits: exact, and a NaN becomes a quiet one. -/
def Double.ofFloat32 (bits : UInt32) : Double :=
  let sign := bits.toNat / 2 ^ 31
  let exponent := bits.toNat / 2 ^ 23 % 256
  let fraction := bits.toNat % 2 ^ 23
  let magnitude :=
    if exponent = 255 then
      if fraction = 0 then 2047 * 2 ^ 52 else 2047 * 2 ^ 52 + 2 ^ 51 + fraction % 2 ^ 22 * 2 ^ 29
    else if exponent = 0 then
      if fraction = 0 then 0
      else
        let k := Nat.log2 fraction
        (874 + k) * 2 ^ 52 + (fraction - 2 ^ k) * 2 ^ (52 - k)
    else (exponent + 896) * 2 ^ 52 + fraction * 2 ^ 29
  ⟨UInt64.ofNat (sign * 2 ^ 63 + magnitude)⟩

namespace Msgpack

def mpPutBe (v : UInt64) : Nat → Bytes
  | 0 => []
  | i + 1 => (v >>> UInt64.ofNat (8 * i)).toUInt8 :: mpPutBe v i

def mpEmitInt (v : Int64) : Bytes :=
  let low := v.toUInt64.toUInt8
  if -32 ≤ v ∧ v ≤ 0x7f then [low]
  else if 0 ≤ v then
    if v ≤ 0xff then [0xcc, low]
    else if v ≤ 0xffff then 0xcd :: mpPutBe v.toUInt64 2
    else if v ≤ 0xffffffff then 0xce :: mpPutBe v.toUInt64 4
    else 0xcf :: mpPutBe v.toUInt64 8
  else if -128 ≤ v then [0xd0, low]
  else if -32768 ≤ v then 0xd1 :: mpPutBe v.toUInt64 2
  else if -2147483648 ≤ v then 0xd2 :: mpPutBe v.toUInt64 4
  else 0xd3 :: mpPutBe v.toUInt64 8

/-- None where the assertion on the count fails. -/
def mpEmitCount (n : Nat) (fix f16 f32 : Byte) : Option Bytes :=
  let fixmax := if fix = 0xa0 then 0x1f else 0x0f
  if 0xffffffff < n then none
  else if n ≤ fixmax then some [fix ||| UInt8.ofNat n]
  else if n ≤ 0xffff then some (f16 :: mpPutBe (UInt64.ofNat n) 2)
  else some (f32 :: mpPutBe (UInt64.ofNat n) 4)

def mpEmitStr (s : Bytes) : Option Bytes := (mpEmitCount s.length 0xa0 0xda 0xdb).map (· ++ s)

def msgpackEncodeArrayHeader (n : Nat) : Option Bytes := mpEmitCount n 0x90 0xdc 0xdd

def mpEmitNode : Object → Option Bytes
  | .nil | .session => some [0xc0]
  | .boolean b => some [if b then 0xc3 else 0xc2]
  | .integer n => some (mpEmitInt n)
  | .float d => some (0xcb :: mpPutBe d.bits 8)
  | .string s => mpEmitStr s
  | .array items => msgpackEncodeArrayHeader items.length
  | .dict items => mpEmitCount items.length 0x80 0xde 0xdf

inductive MpEncFrame
  | array (items : List Object)
  | map (items : List (Bytes × Object))

def mpEncFrame : Object → Option MpEncFrame
  | .array items => some (.array items)
  | .dict items => some (.map items)
  | _ => none

/-- The entry written next, its key as it goes out, and the entries after it. -/
def MpEncFrame.take : MpEncFrame → Option (Option Bytes × Object × MpEncFrame)
  | .array [] | .map [] => none
  | .array (item :: rest) => some (some [], item, .array rest)
  | .map ((key, value) :: rest) => some (mpEmitStr key, value, .map rest)

noncomputable def MpEncFrame.size : MpEncFrame → Nat
  | .array items => sizeOf items
  | .map items => sizeOf items

open Walk in
/-- One turn of the loop; it halts where an assertion fails. -/
def mpEncMove (depth : Nat) (f : MpEncFrame) (buf : Bytes) : Move MpEncFrame Bytes Unit Unit :=
  match f.take with
  | none => .pop () buf
  | some (key, child, rest) =>
    match key, mpEmitNode child with
    | some k, some node =>
      match mpEncFrame child with
      | none => .next rest (buf ++ k ++ node)
      | some frame =>
        if depth < kMarshalDepthCap then .push rest frame (buf ++ k ++ node)
        else .halt () rest (buf ++ k ++ node)
    | _, _ => .halt () rest buf

theorem MpEncFrame.size_pos (f : MpEncFrame) : 0 < f.size := by
  cases f with
  | array items => cases items <;> simp +arith [MpEncFrame.size]
  | map items => cases items <;> simp +arith [MpEncFrame.size]

theorem MpEncFrame.take_size {f rest : MpEncFrame} {key : Option Bytes} {child : Object}
    (h : f.take = some (key, child, rest)) : sizeOf child + rest.size < f.size := by
  cases f with
  | array items =>
    cases items with
    | nil => cases h
    | cons item items =>
      cases h
      simp +arith [MpEncFrame.size]
  | map items =>
    cases items with
    | nil => cases h
    | cons member items =>
      obtain ⟨key, value⟩ := member
      cases h
      simp +arith [MpEncFrame.size]

theorem mpEncFrame_size {obj : Object} {frame : MpEncFrame} (h : mpEncFrame obj = some frame) :
    frame.size < sizeOf obj := by
  cases obj with
  | array items =>
    cases h
    simp +arith [MpEncFrame.size]
  | dict items =>
    cases h
    simp +arith [MpEncFrame.size]
  | _ => cases h

theorem mpEncMove_eq_next {depth : Nat} {f f' : MpEncFrame} {buf buf' : Bytes}
    (h : mpEncMove depth f buf = .next f' buf') :
    ∃ key child, f.take = some (key, child, f') := by
  unfold mpEncMove at h
  repeat' split at h
  all_goals cases h
  exact ⟨_, _, ‹_›⟩

theorem mpEncMove_eq_push {depth : Nat} {f f' frame : MpEncFrame} {buf buf' : Bytes}
    (h : mpEncMove depth f buf = .push f' frame buf') :
    ∃ key child, f.take = some (key, child, f') ∧ mpEncFrame child = some frame := by
  unfold mpEncMove at h
  repeat' split at h
  all_goals cases h
  exact ⟨_, _, ‹_›, ‹_›⟩

theorem mpEncMove_bound : Walk.Bound mpEncMove (fun f _ => f)
    fun frames _ => (frames.map MpEncFrame.size).sum where
  pop_lt f parent below s v s' _ := by
    have := f.size_pos
    simp only [List.map_cons, List.sum_cons]
    omega
  next_lt f below s f' s' h := by
    obtain ⟨key, child, hTake⟩ := mpEncMove_eq_next h
    have := MpEncFrame.take_size hTake
    simp only [List.map_cons, List.sum_cons]
    omega
  push_lt f below s f' frame s' h := by
    obtain ⟨key, child, hTake, hFrame⟩ := mpEncMove_eq_push h
    have := MpEncFrame.take_size hTake
    have := mpEncFrame_size hFrame
    simp only [List.map_cons, List.sum_cons]
    omega

/-- The loop of `msgpack_encode`. -/
def mpEncoder : Walk.Machine MpEncFrame Bytes Unit Unit where
  move := mpEncMove
  give f _ := f
  bounded := ⟨_, mpEncMove_bound⟩

def msgpackEncode (obj : Object) : Option Bytes :=
  (mpEmitNode obj).bind fun node =>
    match mpEncFrame obj with
    | none => some node
    | some frame =>
      match mpEncoder.run frame [] node with
      | .done _ buf => some buf
      | .halted .. => none

inductive MsgpackStop
  | incomplete
  | error (err : Error)

abbrev Take (α : Type) := Except MsgpackStop (α × Bytes)

def Take.into {α β : Type} (slot : α → β) (taken : Take α) : Take β :=
  taken.map fun (a, rest) => (slot a, rest)

def mpBe (p : Bytes) (nbytes : Nat) : UInt64 :=
  (p.take nbytes).foldl (fun v b => v <<< 8 ||| b.toUInt64) 0

/-- The payload after the format byte, `nbytes` wide. -/
def mpTakeUint (buf : Bytes) (nbytes : Nat) : Take UInt64 :=
  if buf.length < nbytes + 1 then .error .incomplete
  else .ok (mpBe (buf.drop 1) nbytes, buf.drop (nbytes + 1))

def mpTakeStr (buf : Bytes) (hdr : Nat) (payload : UInt64) : Take Bytes :=
  if buf.length < hdr ∨ buf.length - hdr < payload.toNat then .error .incomplete
  else .ok ((buf.drop hdr).take payload.toNat, buf.drop (hdr + payload.toNat))

/-- A container being filled: how many elements or pairs its header declared, and those
read. A map has a key while it awaits the value. -/
inductive MpDecFrame
  | array (remaining : Nat) (items : List Object)
  | map (remaining : Nat) (items : List (Bytes × Object)) (awaitingValue : Option Bytes)

/-- What one header stands for: a value, or a container to fill. -/
inductive MpNode
  | value (obj : Object)
  | container (frame : MpDecFrame)

def msgpackNestingExceeded : Error :=
  ⟨.validation, ascii "msgpack nesting exceeds " ++ decimal kMarshalDepthCap⟩

def mpOpen (buf : Bytes) (hdr : Nat) (count : UInt64) (isMap : Bool) (depth : Nat) : Take MpNode :=
  -- each element takes at least a byte, so the container cannot be complete yet
  if buf.length - hdr < count.toNat then .error .incomplete
  else if kMarshalDepthCap ≤ depth then .error (.error msgpackNestingExceeded)
  else
    .ok (.container (if isMap then .map count.toNat [] none else .array count.toNat []),
      buf.drop hdr)

def int64Max : Nat := 2 ^ 63 - 1

def mpReadNumber (b : Byte) (buf : Bytes) : Take Object :=
  if b = 0xca then (mpTakeUint buf 4).into fun u => .float (Double.ofFloat32 u.toUInt32)
  else if b = 0xcb then (mpTakeUint buf 8).into fun u => .float ⟨u⟩
  else if b = 0xcc then (mpTakeUint buf 1).into fun u => .integer u.toUInt8.toUInt64.toInt64
  else if b = 0xcd then (mpTakeUint buf 2).into fun u => .integer u.toUInt16.toUInt64.toInt64
  else if b = 0xce then (mpTakeUint buf 4).into fun u => .integer u.toUInt32.toUInt64.toInt64
  else if b = 0xcf then
    (mpTakeUint buf 8).into fun u =>
      if u.toNat ≤ int64Max then .integer u.toInt64 else .float (Double.ofInt u.toNat)
  else if b = 0xd0 then (mpTakeUint buf 1).into fun u => .integer u.toUInt8.toInt8.toInt64
  else if b = 0xd1 then (mpTakeUint buf 2).into fun u => .integer u.toUInt16.toInt16.toInt64
  else if b = 0xd2 then (mpTakeUint buf 4).into fun u => .integer u.toUInt32.toInt32.toInt64
  else (mpTakeUint buf 8).into fun u => .integer u.toInt64

def hexDigits (b : Byte) : Bytes :=
  let digit (n : Nat) : Byte := UInt8.ofNat (if n < 10 then 48 + n else 87 + n)
  [digit (b.toNat / 16), digit (b.toNat % 16)]

def unsupportedType (b : Byte) : Error :=
  ⟨.validation, ascii "msgpack: unsupported type 0x" ++ hexDigits b⟩

/-- The read of a length of `nbytes` and of what follows it. -/
def mpSized {α : Type} (buf : Bytes) (nbytes : Nat) (take : UInt64 → Take α) : Take α :=
  if buf.length < nbytes + 1 then .error .incomplete else take (mpBe (buf.drop 1) nbytes)

/-- The formats 0xc4 to 0xdf; 0xc1 and the ext family are errors. -/
def mpReadExt (b : Byte) (buf : Bytes) (depth : Nat) : Take MpNode :=
  if 0xca ≤ b ∧ b ≤ 0xd3 then (mpReadNumber b buf).into .value
  else if b = 0xc4 then (mpSized buf 1 (mpTakeStr buf 2)).into fun s => .value (.string s)
  else if b = 0xc5 then (mpSized buf 2 (mpTakeStr buf 3)).into fun s => .value (.string s)
  else if b = 0xc6 then (mpSized buf 4 (mpTakeStr buf 5)).into fun s => .value (.string s)
  else if b = 0xd9 then (mpSized buf 1 (mpTakeStr buf 2)).into fun s => .value (.string s)
  else if b = 0xda then (mpSized buf 2 (mpTakeStr buf 3)).into fun s => .value (.string s)
  else if b = 0xdb then (mpSized buf 4 (mpTakeStr buf 5)).into fun s => .value (.string s)
  else if b = 0xdc then mpSized buf 2 fun count => mpOpen buf 3 count false depth
  else if b = 0xdd then mpSized buf 4 fun count => mpOpen buf 5 count false depth
  else if b = 0xde then mpSized buf 2 fun count => mpOpen buf 3 count true depth
  else if b = 0xdf then mpSized buf 4 fun count => mpOpen buf 5 count true depth
  else .error (.error (unsupportedType b))

/-- One value's header at the start of `buf`, with `depth` containers open. -/
def mpReadInto (buf : Bytes) (depth : Nat) : Take MpNode :=
  match buf with
  | [] => .error .incomplete
  | b :: rest =>
    if b ≤ 0x7f then .ok (.value (.integer b.toUInt64.toInt64), rest)
    else if 0xe0 ≤ b then .ok (.value (.integer b.toInt8.toInt64), rest)
    else if 0x80 ≤ b ∧ b ≤ 0x8f then mpOpen buf 1 (b &&& 0x0f).toUInt64 true depth
    else if 0x90 ≤ b ∧ b ≤ 0x9f then mpOpen buf 1 (b &&& 0x0f).toUInt64 false depth
    else if 0xa0 ≤ b ∧ b ≤ 0xbf then
      (mpTakeStr buf 1 (b &&& 0x1f).toUInt64).into fun s => .value (.string s)
    else if b = 0xc0 then .ok (.value .nil, rest)
    else if b = 0xc2 ∨ b = 0xc3 then .ok (.value (.boolean (b == 0xc3)), rest)
    else mpReadExt b buf depth

def mapKeyNotString : Error := ⟨.validation, ascii "msgpack: map key must be a string"⟩

def mpReadKey (buf : Bytes) : Take Bytes :=
  match buf with
  | [] => .error .incomplete
  | b :: _ =>
    if 0xa0 ≤ b ∧ b ≤ 0xbf then mpTakeStr buf 1 (b &&& 0x1f).toUInt64
    else if b = 0xd9 then mpSized buf 1 (mpTakeStr buf 2)
    else if b = 0xda then mpSized buf 2 (mpTakeStr buf 3)
    else if b = 0xdb then mpSized buf 4 (mpTakeStr buf 5)
    else .error (.error mapKeyNotString)

def MpDecFrame.object : MpDecFrame → Object
  | .array _ items => .array items
  | .map _ items _ => .dict items

def MpDecFrame.full : MpDecFrame → Bool
  | .array remaining items => remaining ≤ items.length
  | .map remaining items _ => remaining ≤ items.length

def MpDecFrame.give : MpDecFrame → Object → MpDecFrame
  | .array remaining items, item => .array remaining (items ++ [item])
  | .map remaining items (some key), value => .map remaining (items ++ [(key, value)]) none
  | .map remaining items none, _ => .map remaining items none

def MpDecFrame.atKey : MpDecFrame → Bool
  | .map _ _ none => true
  | _ => false

def MpDecFrame.setKey : MpDecFrame → Bytes → MpDecFrame
  | .map remaining items _, key => .map remaining items (some key)
  | frame, _ => frame

open Walk in
/-- One turn of the loop of `msgpack_to_object`. -/
def mpDecMove (depth : Nat) (f : MpDecFrame) (buf : Bytes) :
    Move MpDecFrame Bytes Object MsgpackStop :=
  if f.full then .pop f.object buf
  else if f.atKey then
    match mpReadKey buf with
    | .ok (key, rest) => .next (f.setKey key) rest
    | .error stop => .halt stop f buf
  else
    match mpReadInto buf depth with
    | .ok (.value obj, rest) => .next (f.give obj) rest
    | .ok (.container child, rest) => .push f child rest
    | .error stop => .halt stop f buf

/-- A read that leaves fewer than `n` bytes. -/
def Take.Below {α : Type} (n : Nat) (taken : Take α) : Prop :=
  ∀ a rest, taken = .ok (a, rest) → rest.length < n

theorem Take.Below.error {α : Type} (n : Nat) (stop : MsgpackStop) :
    Take.Below n (.error stop : Take α) := nofun

theorem Take.Below.ok {α : Type} {n : Nat} (a : α) {rest : Bytes} (h : rest.length < n) :
    Take.Below n (.ok (a, rest)) := by
  intro a' rest' hEq
  cases hEq
  exact h

theorem Take.Below.into {α β : Type} {n : Nat} {taken : Take α} (h : taken.Below n)
    (slot : α → β) : (taken.into slot).Below n := by
  cases taken with
  | error stop => exact .error n stop
  | ok result => exact .ok _ (h _ _ rfl)

theorem Take.Below.ite {α : Type} {n : Nat} {c : Prop} [Decidable c] {a b : Take α}
    (ha : a.Below n) (hb : b.Below n) : (if c then a else b).Below n := by
  split
  · exact ha
  · exact hb

theorem mpTakeUint_below (buf : Bytes) (nbytes : Nat) :
    (mpTakeUint buf nbytes).Below buf.length := by
  unfold mpTakeUint
  split
  · exact .error _ _
  · refine .ok _ ?_
    rw [List.length_drop]
    omega

theorem mpTakeStr_below (buf : Bytes) {hdr : Nat} (hHdr : 0 < hdr) (payload : UInt64) :
    (mpTakeStr buf hdr payload).Below buf.length := by
  unfold mpTakeStr
  split
  · exact .error _ _
  · refine .ok _ ?_
    rw [List.length_drop]
    omega

theorem mpOpen_below {buf : Bytes} (hBuf : buf ≠ []) {hdr : Nat} (hHdr : 0 < hdr) (count : UInt64)
    (isMap : Bool) (depth : Nat) : (mpOpen buf hdr count isMap depth).Below buf.length := by
  have := List.length_pos_of_ne_nil hBuf
  unfold mpOpen
  split
  · exact .error _ _
  split
  · exact .error _ _
  · refine .ok _ ?_
    rw [List.length_drop]
    omega

theorem mpSized_below {α : Type} {buf : Bytes} (nbytes : Nat) {take : UInt64 → Take α}
    (h : ∀ count, (take count).Below buf.length) : (mpSized buf nbytes take).Below buf.length := by
  unfold mpSized
  split
  · exact .error _ _
  · exact h _

theorem mpReadNumber_below (b : Byte) (buf : Bytes) : (mpReadNumber b buf).Below buf.length := by
  unfold mpReadNumber
  repeat' apply Take.Below.ite
  all_goals exact (mpTakeUint_below buf _).into _

theorem mpReadExt_below (b : Byte) {buf : Bytes} (hBuf : buf ≠ []) (depth : Nat) :
    (mpReadExt b buf depth).Below buf.length := by
  have hStr : ∀ nbytes hdr, 0 < hdr →
      ((mpSized buf nbytes (mpTakeStr buf hdr)).into fun s => MpNode.value (.string s)).Below
        buf.length := by
    intro nbytes hdr hHdr
    exact (mpSized_below nbytes (mpTakeStr_below buf hHdr)).into _
  have hOpen : ∀ nbytes hdr isMap, 0 < hdr →
      (mpSized buf nbytes fun count => mpOpen buf hdr count isMap depth).Below buf.length := by
    intro nbytes hdr isMap hHdr
    exact mpSized_below nbytes fun count => mpOpen_below hBuf hHdr count isMap depth
  unfold mpReadExt
  refine .ite ((mpReadNumber_below b buf).into _) ?_
  -- bin and str, then array and map, each in order of width
  refine .ite (hStr 1 2 ?_) (.ite (hStr 2 3 ?_) (.ite (hStr 4 5 ?_) ?_))
  any_goals decide
  refine .ite (hStr 1 2 ?_) (.ite (hStr 2 3 ?_) (.ite (hStr 4 5 ?_) ?_))
  any_goals decide
  refine .ite (hOpen 2 3 false ?_) (.ite (hOpen 4 5 false ?_) ?_)
  any_goals decide
  refine .ite (hOpen 2 3 true ?_) (.ite (hOpen 4 5 true ?_) (.error _ _))
  all_goals decide

theorem mpReadInto_below (buf : Bytes) (depth : Nat) :
    (mpReadInto buf depth).Below buf.length := by
  unfold mpReadInto
  split
  · exact .error _ _
  · refine .ite ?_ (.ite ?_ (.ite ?_ (.ite ?_ (.ite ?_ (.ite ?_ (.ite ?_ ?_))))))
    · exact .ok _ (by simp)
    · exact .ok _ (by simp)
    · exact mpOpen_below (by simp) (by decide) _ _ _
    · exact mpOpen_below (by simp) (by decide) _ _ _
    · exact (mpTakeStr_below _ (by decide) _).into _
    · exact .ok _ (by simp)
    · exact .ok _ (by simp)
    · exact mpReadExt_below _ (by simp) _

theorem mpReadKey_below (buf : Bytes) : (mpReadKey buf).Below buf.length := by
  unfold mpReadKey
  split
  · exact .error _ _
  · refine .ite ?_ (.ite ?_ (.ite ?_ (.ite ?_ ?_)))
    · exact mpTakeStr_below _ (by decide) _
    any_goals exact mpSized_below _ (mpTakeStr_below _ (by decide))
    exact .error _ _

theorem mpDecMove_eq_next {depth : Nat} {f f' : MpDecFrame} {buf rest : Bytes}
    (h : mpDecMove depth f buf = .next f' rest) : rest.length < buf.length := by
  unfold mpDecMove at h
  split at h
  · cases h
  split at h
  · split at h
    · rename_i hKey
      cases h
      exact mpReadKey_below buf _ _ hKey
    · cases h
  · split at h
    · rename_i hNode
      cases h
      exact mpReadInto_below buf depth _ _ hNode
    · cases h
    · cases h

theorem mpDecMove_eq_push {depth : Nat} {f f' child : MpDecFrame} {buf rest : Bytes}
    (h : mpDecMove depth f buf = .push f' child rest) : rest.length < buf.length := by
  unfold mpDecMove at h
  split at h
  · cases h
  split at h
  · split at h
    · cases h
    · cases h
  · split at h
    · cases h
    · rename_i hNode
      cases h
      exact mpReadInto_below buf depth _ _ hNode
    · cases h

theorem mpDecMove_eq_pop {depth : Nat} {f : MpDecFrame} {obj : Object} {buf rest : Bytes}
    (h : mpDecMove depth f buf = .pop obj rest) : rest = buf := by
  unfold mpDecMove at h
  split at h
  · cases h
    rfl
  split at h
  · split at h
    · cases h
    · cases h
  · split at h
    · cases h
    · cases h
    · cases h

theorem mpDecMove_bound : Walk.Bound mpDecMove MpDecFrame.give
    fun frames buf => 2 * buf.length + frames.length where
  pop_lt f parent below buf obj rest h := by
    rw [mpDecMove_eq_pop h]
    simp
  next_lt f below buf f' rest h := by
    have := mpDecMove_eq_next h
    simp only [List.length_cons]
    omega
  push_lt f below buf f' child rest h := by
    have := mpDecMove_eq_push h
    simp only [List.length_cons]
    omega

/-- The loop of `msgpack_to_object`. -/
def mpDecoder : Walk.Machine MpDecFrame Bytes Object MsgpackStop where
  move := mpDecMove
  give := MpDecFrame.give
  bounded := ⟨_, mpDecMove_bound⟩

def msgpackToObject (buf : Bytes) : Except MsgpackStop (Object × Nat) :=
  match mpReadInto buf 0 with
  | .ok (.value obj, rest) => .ok (obj, buf.length - rest.length)
  | .ok (.container frame, rest) =>
    match mpDecoder.run frame [] rest with
    | .done obj rest => .ok (obj, buf.length - rest.length)
    | .halted stop _ _ => .error stop
  | .error stop => .error stop

end Msgpack

end Mua
