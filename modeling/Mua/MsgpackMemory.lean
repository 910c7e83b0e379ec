import Mua.Lib.Visit
import Mua.MsgpackDecode

/-! # The decoder in memory

`msgpack_to_object` with its buffer by index, its tree in place and its blocks. A
pointer to a slot is the place of the slot in the tree: no container moves. Where C
would have undefined behaviour, or a subtraction would wrap, there is a fault.
-/

namespace Mua.Msgpack

open Walk (Place nodeAt)

inductive Fault
  | readOutside
  | wraps
  | stackFull
  | slotOutside
  | freeTooDeep
  | outOfFuel
  deriving DecidableEq, Repr

abbrev Checked (α : Type) := Except Fault α

/-- A `String`; its data is NULL where it has no block. -/
structure Text where
  block : Option Nat
  bytes : Bytes

def Text.unset : Text := ⟨none, []⟩

/-- An Object in place, with the blocks it owns. A slot that is not yet written is nil. -/
inductive Slot
  | nil
  | boolean (b : Bool)
  | integer (n : Int64)
  | float (d : Double)
  | string (text : Text)
  | array (block : Option Nat) (items : List Slot)
  | dict (block : Option Nat) (items : List (Text × Slot))

/-- The slots of a container, those of an array without a key. -/
def Slot.members : Slot → List (Text × Slot)
  | .array _ items => items.map fun item => (Text.unset, item)
  | .dict _ items => items
  | _ => []

def Slot.kids (s : Slot) : List Slot := s.members.map fun m => m.2

def Slot.isMap : Slot → Option Bool
  | .array .. => some false
  | .dict .. => some true
  | _ => none

def Slot.setKid (s : Slot) (i : Nat) (x : Slot) : Slot :=
  match s with
  | .array block items => .array block (items.set i x)
  | .dict block items => .dict block (items.modify i fun m => (m.1, x))
  | s => s

def Slot.setKey (s : Slot) (i : Nat) (key : Text) : Slot :=
  match s with
  | .dict block items => .dict block (items.modify i fun m => (key, m.2))
  | s => s

def Slot.store : Slot → Place → Slot → Option Slot
  | _, [], x => some x
  | s, i :: p, x => (s.kids[i]?).bind fun kid => (kid.store p x).map fun kid => s.setKid i kid

/-- `xcalloc` of the items, and the container that has them. -/
def Slot.opened (isMap : Bool) (block : Option Nat) (count : Nat) : Slot :=
  if isMap then .dict block (List.replicate count (Text.unset, .nil))
  else .array block (List.replicate count .nil)

mutual

/-- The blocks of a tree, in the order `api_free_object` frees them. -/
def Slot.blocks : Slot → List Nat
  | .nil | .boolean _ | .integer _ | .float _ => []
  | .string text => text.block.toList
  | .array block items => Slot.itemsBlocks items ++ block.toList
  | .dict block items => Slot.membersBlocks items ++ block.toList

def Slot.itemsBlocks : List Slot → List Nat
  | [] => []
  | item :: rest => item.blocks ++ Slot.itemsBlocks rest

def Slot.membersBlocks : List (Text × Slot) → List Nat
  | [] => []
  | (key, value) :: rest => key.block.toList ++ value.blocks ++ Slot.membersBlocks rest

end

mutual

def Slot.object : Slot → Object
  | .nil => .nil
  | .boolean b => .boolean b
  | .integer n => .integer n
  | .float d => .float d
  | .string text => .string text.bytes
  | .array _ items => .array (Slot.itemsObject items)
  | .dict _ items => .dict (Slot.membersObject items)

def Slot.itemsObject : List Slot → List Object
  | [] => []
  | item :: rest => item.object :: Slot.itemsObject rest

def Slot.membersObject : List (Text × Slot) → List (Bytes × Object)
  | [] => []
  | (key, value) :: rest => (key.bytes, value.object) :: Slot.membersObject rest

end

structure MpFrame where
  container : Place
  remaining : Nat
  idx : Nat
  isMap : Bool
  awaitingValue : Bool

/-- `stack` is in the order of the C array. `blocks` are those allocated so far, and `opened` has
for each container its slots and the bytes that were left. -/
structure Dec where
  pos : Nat
  out : Slot
  stack : List MpFrame
  blocks : List Nat
  opened : List (Nat × Nat)

/-- The block of an allocation, of which one of no bytes is not made. -/
def Dec.fresh (d : Dec) (size : Nat) : Option Nat := if 0 < size then some d.blocks.length else none

def Dec.own (d : Dec) (block : Option Nat) : Dec := { d with blocks := d.blocks ++ block.toList }

def Dec.store (d : Dec) (slot : Place) (x : Slot) : Checked Dec :=
  match d.out.store slot x with
  | some out => .ok { d with out }
  | none => .error .slotOutside

def Dec.push (d : Dec) (f : MpFrame) : Checked Dec :=
  if d.stack.length < kMarshalDepthCap then .ok { d with stack := d.stack ++ [f] }
  else .error .stackFull

/-- The container of a frame, which must have a slot at the frame's index. -/
def Dec.container (d : Dec) (f : MpFrame) : Checked Slot :=
  match nodeAt Slot.kids d.out f.container with
  | some s =>
    if s.isMap = some f.isMap ∧ f.idx < s.kids.length then .ok s else .error .slotOutside
  | none => .error .slotOutside

def Dec.setTop (d : Dec) (f : MpFrame) : Dec := { d with stack := d.stack.dropLast ++ [f] }

def byteAt (buf : Bytes) (i : Nat) : Checked Byte :=
  match buf[i]? with
  | some b => .ok b
  | none => .error .readOutside

def minus (a b : Nat) : Checked Nat := if a < b then .error .wraps else .ok (a - b)

def mpBeFrom (buf : Bytes) (i : Nat) (v : UInt64) : Nat → Checked UInt64
  | 0 => .ok v
  | n + 1 => do
    let b ← byteAt buf i
    mpBeFrom buf (i + 1) (v <<< 8 ||| b.toUInt64) n

def mpBeAt (buf : Bytes) (i nbytes : Nat) : Checked UInt64 := mpBeFrom buf i 0 nbytes

def bytesAt (buf : Bytes) (i : Nat) : Nat → Checked Bytes
  | 0 => .ok []
  | n + 1 => do
    let b ← byteAt buf i
    let rest ← bytesAt buf (i + 1) n
    return b :: rest

abbrev Taken (α : Type) := Except MsgpackStop (α × Nat)

def mpTakeUintAt (buf : Bytes) (pos nbytes : Nat) : Checked (Taken UInt64) := do
  let left ← minus buf.length pos
  if left < nbytes + 1 then return .error .incomplete
  else
    let u ← mpBeAt buf (pos + 1) nbytes
    return .ok (u, pos + (nbytes + 1))

def mpTakeStrAt (buf : Bytes) (d : Dec) (hdr : Nat) (payload : UInt64) : Checked (Taken Text) := do
  let left ← minus buf.length d.pos
  if left < hdr then return .error .incomplete
  else
    let body ← minus left hdr
    if body < payload.toNat then return .error .incomplete
    else
      let data ← bytesAt buf (d.pos + hdr) payload.toNat
      return .ok (⟨d.fresh payload.toNat, data⟩, d.pos + (hdr + payload.toNat))

/-- A length of `nbytes` after the format byte, and what is read with it. -/
def mpSizedAt {α : Type} (buf : Bytes) (pos nbytes : Nat) (incomplete : α)
    (take : UInt64 → Checked α) : Checked α := do
  let left ← minus buf.length pos
  if left < nbytes + 1 then return incomplete
  else
    let count ← mpBeAt buf (pos + 1) nbytes
    take count

abbrev Step := Checked (Except MsgpackStop Unit × Dec)

def putStr (d : Dec) (slot : Place) (taken : Checked (Taken Text)) : Step := do
  match ← taken with
  | .error stop => return (.error stop, d)
  | .ok (text, pos) =>
    let d ← d.store slot (.string text)
    return (.ok (), { d.own text.block with pos })

/-- A number; the integer formats write their slot when the read is incomplete, too. -/
def putNumber (buf : Bytes) (d : Dec) (slot : Place) (nbytes : Nat) (always : Bool)
    (value : UInt64 → Slot) : Step := do
  match ← mpTakeUintAt buf d.pos nbytes with
  | .error stop =>
    if always then
      let d ← d.store slot (value 0)
      return (.error stop, d)
    else return (.error stop, d)
  | .ok (u, pos) =>
    let d ← d.store slot (value u)
    return (.ok (), { d with pos })

def mpOpenAt (buf : Bytes) (d : Dec) (hdr : Nat) (count : UInt64) (isMap : Bool) (slot : Place) :
    Step := do
  let left ← minus buf.length d.pos
  let body ← minus left hdr
  if body < count.toNat then return (.error .incomplete, d)
  else if kMarshalDepthCap ≤ d.stack.length then
    return (.error (.error msgpackNestingExceeded), d)
  else
    let block := d.fresh count.toNat
    let d ← d.store slot (Slot.opened isMap block count.toNat)
    let d := { d.own block with opened := d.opened ++ [(count.toNat, body)], pos := d.pos + hdr }
    let d ← d.push ⟨slot, count.toNat, 0, isMap, false⟩
    return (.ok (), d)

def mpReadNumberAt (b : Byte) (buf : Bytes) (d : Dec) (slot : Place) : Step :=
  if b = 0xca then putNumber buf d slot 4 false fun u => .float (Double.ofFloat32 u.toUInt32)
  else if b = 0xcb then putNumber buf d slot 8 false fun u => .float ⟨u⟩
  else if b = 0xcc then putNumber buf d slot 1 true fun u => .integer u.toUInt8.toUInt64.toInt64
  else if b = 0xcd then putNumber buf d slot 2 true fun u => .integer u.toUInt16.toUInt64.toInt64
  else if b = 0xce then putNumber buf d slot 4 true fun u => .integer u.toUInt32.toUInt64.toInt64
  else if b = 0xcf then
    putNumber buf d slot 8 true fun u =>
      if u.toNat ≤ int64Max then .integer u.toInt64 else .float (Double.ofInt u.toNat)
  else if b = 0xd0 then putNumber buf d slot 1 true fun u => .integer u.toUInt8.toInt8.toInt64
  else if b = 0xd1 then putNumber buf d slot 2 true fun u => .integer u.toUInt16.toInt16.toInt64
  else if b = 0xd2 then putNumber buf d slot 4 true fun u => .integer u.toUInt32.toInt32.toInt64
  else putNumber buf d slot 8 true fun u => .integer u.toInt64

/-- A string or bin, a length of `nbytes` before it. -/
def sizedStr (buf : Bytes) (d : Dec) (nbytes hdr : Nat) : Checked (Taken Text) :=
  mpSizedAt buf d.pos nbytes (.error .incomplete) (mpTakeStrAt buf d hdr)

def sizedOpen (buf : Bytes) (d : Dec) (nbytes hdr : Nat) (isMap : Bool) (slot : Place) : Step :=
  mpSizedAt buf d.pos nbytes (.error .incomplete, d) fun count => mpOpenAt buf d hdr count isMap slot

def mpReadExtAt (b : Byte) (buf : Bytes) (d : Dec) (slot : Place) : Step :=
  if 0xca ≤ b ∧ b ≤ 0xd3 then mpReadNumberAt b buf d slot
  else if b = 0xc4 then putStr d slot (sizedStr buf d 1 2)
  else if b = 0xc5 then putStr d slot (sizedStr buf d 2 3)
  else if b = 0xc6 then putStr d slot (sizedStr buf d 4 5)
  else if b = 0xd9 then putStr d slot (sizedStr buf d 1 2)
  else if b = 0xda then putStr d slot (sizedStr buf d 2 3)
  else if b = 0xdb then putStr d slot (sizedStr buf d 4 5)
  else if b = 0xdc then sizedOpen buf d 2 3 false slot
  else if b = 0xdd then sizedOpen buf d 4 5 false slot
  else if b = 0xde then sizedOpen buf d 2 3 true slot
  else if b = 0xdf then sizedOpen buf d 4 5 true slot
  else .ok (.error (.error (unsupportedType b)), d)

def putByte (d : Dec) (slot : Place) (x : Slot) : Step := do
  let d ← d.store slot x
  return (.ok (), { d with pos := d.pos + 1 })

def mpReadIntoAt (buf : Bytes) (d : Dec) (slot : Place) : Step := do
  let left ← minus buf.length d.pos
  if left < 1 then return (.error .incomplete, d)
  else
    let b ← byteAt buf d.pos
    if b ≤ 0x7f then putByte d slot (.integer b.toUInt64.toInt64)
    else if 0xe0 ≤ b then putByte d slot (.integer b.toInt8.toInt64)
    else if 0x80 ≤ b ∧ b ≤ 0x8f then mpOpenAt buf d 1 (b &&& 0x0f).toUInt64 true slot
    else if 0x90 ≤ b ∧ b ≤ 0x9f then mpOpenAt buf d 1 (b &&& 0x0f).toUInt64 false slot
    else if 0xa0 ≤ b ∧ b ≤ 0xbf then putStr d slot (mpTakeStrAt buf d 1 (b &&& 0x1f).toUInt64)
    else if b = 0xc0 then putByte d slot .nil
    else if b = 0xc2 ∨ b = 0xc3 then putByte d slot (.boolean (b == 0xc3))
    else mpReadExtAt b buf d slot

def mpReadKeyAt (buf : Bytes) (d : Dec) : Checked (Taken Text) := do
  let left ← minus buf.length d.pos
  if left < 1 then return .error .incomplete
  else
    let b ← byteAt buf d.pos
    if 0xa0 ≤ b ∧ b ≤ 0xbf then mpTakeStrAt buf d 1 (b &&& 0x1f).toUInt64
    else if b = 0xd9 then sizedStr buf d 1 2
    else if b = 0xda then sizedStr buf d 2 3
    else if b = 0xdb then sizedStr buf d 4 5
    else return .error (.error mapKeyNotString)

/-- The nodes of `api_free_object`, each as the frees it makes; NULL is not freed. -/
def slotFreeSource : Rebuild.Source Slot (List Nat) (Option Nat) (Option Nat) Unit Unit where
  isNode s := s.isMap.isSome
  leaf
    | .string text, s => .ok (text.block.toList, s)
    | _, s => .ok ([], s)
  enter
    | .array block _, s | .dict block _, s => .ok (block, s)
    | _, s => .ok (none, s)
  children s := s.members.map fun m => (m.1.block, m.2)
  build block frees := (frees.flatMap fun (key, child) => key.toList ++ child) ++ block.toList
  stub := []
  cap := kMarshalDepthCap
  tooDeep := ()

/-- `api_free_object`: the blocks it frees. -/
def freeSlot (s : Slot) : Checked (List Nat) :=
  match slotFreeSource.run s () with
  | .ok (frees, ()) => .ok frees
  | .error _ => .error .freeTooDeep

/-- The loop of `msgpack_to_object`, on the frame that ends the stack. -/
def mpLoop (buf : Bytes) : Nat → Dec → Step
  | 0, _ => .error .outOfFuel
  | fuel + 1, d =>
    match d.stack.getLast? with
    | none => .ok (.ok (), d)
    | some f =>
      if f.remaining ≤ f.idx then mpLoop buf fuel { d with stack := d.stack.dropLast }
      else do
        let container ← d.container f
        if f.isMap ∧ ¬f.awaitingValue then
          let awaiting := d.setTop { f with awaitingValue := true }
          match ← mpReadKeyAt buf d with
          | .error stop => return (.error stop, awaiting)
          | .ok (key, pos) =>
            let d ← awaiting.store f.container (container.setKey f.idx key)
            mpLoop buf fuel { d.own key.block with pos }
        else
          let taken := if f.isMap then { f with idx := f.idx + 1, awaitingValue := false }
            else { f with idx := f.idx + 1 }
          match ← mpReadIntoAt buf (d.setTop taken) (f.container ++ [f.idx]) with
          | (.error stop, d) => return (.error stop, d)
          | (.ok (), d) => mpLoop buf fuel d

/-- What `msgpack_to_object` leaves. -/
structure Decoded where
  status : Except MsgpackStop Nat
  out : Slot
  allocated : List Nat
  freed : List Nat
  opened : List (Nat × Nat)

/-- A turn of the loop takes a byte or a frame, so there are twice as many as bytes at most. -/
def mpFuel (buf : Bytes) : Nat := 2 * buf.length + 2

def mpLeave : Except MsgpackStop Unit × Dec → Checked Decoded
  | (.ok (), d) => .ok ⟨.ok d.pos, d.out, d.blocks, [], d.opened⟩
  | (.error stop, d) => do
    let freed ← freeSlot d.out
    return ⟨.error stop, .nil, d.blocks, freed, d.opened⟩

def msgpackToObjectIn (buf : Bytes) : Checked Decoded := do
  match ← mpReadIntoAt buf ⟨0, .nil, [], [], []⟩ [] with
  | (.ok (), d) => mpLeave (← mpLoop buf (mpFuel buf) d)
  | (.error stop, d) => mpLeave (.error stop, d)

end Mua.Msgpack
