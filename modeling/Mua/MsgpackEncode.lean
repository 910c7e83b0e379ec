import Mathlib.Tactic.Ring
import Mua.MsgpackDecode

/-! # The encoder against the grammar

What `msgpack_encode` writes is an encoding of the object, with a session as nil,
when no assertion fails: at most 32 nested containers and counts below 2^32. The
decoder then reads it back.
-/

namespace Mua

mutual

/-- Every string, array and dict has fewer than 2^32 bytes or entries. -/
def Object.Sized : Object → Prop
  | .nil | .boolean _ | .integer _ | .float _ | .session => True
  | .string s => s.length < 2 ^ 32
  | .array items => items.length < 2 ^ 32 ∧ Object.ItemsSized items
  | .dict items => items.length < 2 ^ 32 ∧ Object.MembersSized items

def Object.ItemsSized : List Object → Prop
  | [] => True
  | item :: rest => item.Sized ∧ Object.ItemsSized rest

def Object.MembersSized : List (Bytes × Object) → Prop
  | [] => True
  | (key, value) :: rest => key.length < 2 ^ 32 ∧ value.Sized ∧ Object.MembersSized rest

end

mutual

/-- The object as the other side sees it: a session has no wire form. -/
def Object.wire : Object → Object
  | .session => .nil
  | .array items => .array (Object.itemsWire items)
  | .dict items => .dict (Object.membersWire items)
  | .nil => .nil
  | .boolean b => .boolean b
  | .integer n => .integer n
  | .float d => .float d
  | .string s => .string s

def Object.itemsWire : List Object → List Object
  | [] => []
  | item :: rest => item.wire :: Object.itemsWire rest

def Object.membersWire : List (Bytes × Object) → List (Bytes × Object)
  | [] => []
  | (key, value) :: rest => (key, value.wire) :: Object.membersWire rest

end

theorem Object.itemsWire_length (items : List Object) :
    (Object.itemsWire items).length = items.length := by
  induction items with
  | nil => rfl
  | cons item rest ih => simp [Object.itemsWire, ih]

theorem Object.membersWire_length (items : List (Bytes × Object)) :
    (Object.membersWire items).length = items.length := by
  induction items with
  | nil => rfl
  | cons member rest ih => simp [Object.membersWire, ih]

namespace Msgpack

theorem foldl_be_eq (p : Bytes) (v : Nat) :
    p.foldl (fun v b => 256 * v + b.toNat) v = v * 256 ^ p.length + beValue p := by
  induction p generalizing v with
  | nil => simp [beValue]
  | cons b p ih =>
    have hValue : beValue (b :: p) = b.toNat * 256 ^ p.length + beValue p := by
      rw [beValue, List.foldl_cons, ih, Nat.mul_zero, Nat.zero_add]
    rw [List.foldl_cons, ih, hValue, List.length_cons, Nat.pow_succ]
    ring

theorem beValue_cons_eq (b : Byte) (p : Bytes) :
    beValue (b :: p) = b.toNat * 256 ^ p.length + beValue p := by
  rw [beValue, List.foldl_cons, foldl_be_eq, Nat.mul_zero, Nat.zero_add]

@[simp] theorem mpPutBe_length (v : UInt64) (n : Nat) : (mpPutBe v n).length = n := by
  induction n with
  | zero => rfl
  | succ n ih => simp [mpPutBe, ih]

theorem toNat_byte (v : UInt64) {i : Nat} (hi : i < 8) :
    (v >>> UInt64.ofNat (8 * i)).toUInt8.toNat = v.toNat / 256 ^ i % 256 := by
  have hShift : (UInt64.ofNat (8 * i)).toNat % 64 = 8 * i := by
    rw [UInt64.toNat_ofNat_of_lt' (by simp [UInt64.size]; omega)]
    omega
  rw [UInt64.toNat_toUInt8, UInt64.toNat_shiftRight, hShift, Nat.shiftRight_eq_div_pow, Nat.pow_mul]

theorem beValue_mpPutBe (v : UInt64) {n : Nat} (hn : n ≤ 8) :
    beValue (mpPutBe v n) = v.toNat % 256 ^ n := by
  induction n with
  | zero => simp [mpPutBe, beValue, Nat.mod_one]
  | succ n ih =>
    rw [mpPutBe, beValue_cons_eq, mpPutBe_length, ih (by omega), toNat_byte v (by omega),
      Nat.mod_pow_succ, Nat.mul_comm, Nat.add_comm]

theorem toNat_toUInt64 (v : Int64) : (v.toUInt64.toNat : Int) = v.toInt % 2 ^ 64 := by
  have h := BitVec.toInt_eq_toNat_bmod v.toBitVec
  have hLt := v.toUInt64.toNat_lt
  change v.toInt = Int.bmod (v.toUInt64.toNat : Int) (2 ^ 64) at h
  rw [Int.bmod_def] at h
  split at h <;> omega

theorem unsigned_emits {v : Int64} {tag : Byte} {k : Nat} (hTag : (tag, k) ∈ uintFormats)
    (hk : k ≤ 8) (hLow : 0 ≤ v.toInt) (hHigh : v.toInt < 256 ^ k) :
    Scalar (.integer v) (tag :: mpPutBe v.toUInt64 k) := by
  have hNat := toNat_toUInt64 v
  have hLt := v.toInt_lt
  have hValue : beValue (mpPutBe v.toUInt64 k) = v.toUInt64.toNat := by
    rw [beValue_mpPutBe _ hk]
    have hCast : ((256 ^ k : Nat) : Int) = 256 ^ k := by simp
    exact Nat.mod_eq_of_lt (by omega)
  have hObject : unsignedObject (beValue (mpPutBe v.toUInt64 k)) = .integer v := by
    rw [hValue, ← unsigned_object rfl (by simp only [int64Max]; omega), Int64.toInt64_toUInt64]
  rw [← hObject]
  exact .unsigned (by simpa using hTag)

theorem signed_emits {v : Int64} {tag : Byte} {k : Nat} (hTag : (tag, k) ∈ intFormats)
    (hLow : -(256 ^ k / 2) ≤ v.toInt) (hHigh : v.toInt < 256 ^ k / 2) :
    Scalar (.integer v) (tag :: mpPutBe v.toUInt64 k) := by
  have hNat := toNat_toUInt64 v
  have hWidth : k = 1 ∨ k = 2 ∨ k = 4 ∨ k = 8 := by
    simp only [intFormats, List.mem_cons, List.not_mem_nil, or_false, Prod.mk.injEq] at hTag
    omega
  have hExtend : signExtend (mpPutBe v.toUInt64 k) = v.toInt := by
    rw [signExtend, mpPutBe_length, beValue_mpPutBe _ (by omega), Int.bmod_def]
    rcases hWidth with rfl | rfl | rfl | rfl
    all_goals
      simp only [Nat.reducePow, Int.reducePow] at hLow hHigh ⊢
      split <;> omega
  have hObject : Int64.ofInt (signExtend (mpPutBe v.toUInt64 k)) = v := by
    rw [hExtend, Int64.ofInt_toInt]
  have h : Scalar (.integer (Int64.ofInt (signExtend (mpPutBe v.toUInt64 k))))
      (tag :: mpPutBe v.toUInt64 k) := .signed (by simpa using hTag)
  rwa [hObject] at h

theorem low_byte (v : UInt64) : [v.toUInt8] = mpPutBe v 1 := by
  have h := toNat_byte v (i := 0) (by decide)
  simp only [mpPutBe, List.cons.injEq, and_true]
  apply UInt8.toNat_inj.mp
  rw [h]
  simp

theorem toNat_low_byte (v : Int64) : (v.toUInt64.toUInt8.toNat : Int) = v.toInt % 256 := by
  have hNat := toNat_toUInt64 v
  rw [UInt64.toNat_toUInt8]
  omega

/-- Each width is used where it holds the integer. -/
theorem mpEmitInt_scalar (v : Int64) : Scalar (.integer v) (mpEmitInt v) := by
  have hLow := toNat_low_byte v
  have hMin := v.le_toInt
  have hMax := v.toInt_lt
  simp only [mpEmitInt, Int64.le_iff_toInt_le, Int64.reduceToInt]
  split
  · by_cases hSign : 0 ≤ v.toInt
    · have hByte : v.toUInt64.toUInt8.toNat = v.toInt.toNat := by omega
      have hObject : Int64.ofNat v.toUInt64.toUInt8.toNat = v := by
        rw [hByte, ← Int64.ofInt_eq_ofNat, Int.toNat_of_nonneg hSign, Int64.ofInt_toInt]
      have h : Scalar (.integer (Int64.ofNat v.toUInt64.toUInt8.toNat)) [v.toUInt64.toUInt8] :=
        .positive (by omega)
      rwa [hObject] at h
    · have hByte : (v.toUInt64.toUInt8.toNat : Int) - 256 = v.toInt := by omega
      have h : Scalar (.integer (Int64.ofInt (v.toUInt64.toUInt8.toNat - 256)))
          [v.toUInt64.toUInt8] := .negative (by omega)
      rwa [hByte, Int64.ofInt_toInt] at h
  split
  · split
    · rw [low_byte]
      exact unsigned_emits (by decide) (by decide) (by omega) (by omega)
    split
    · exact unsigned_emits (by decide) (by decide) (by omega) (by omega)
    split
    · exact unsigned_emits (by decide) (by decide) (by omega) (by omega)
    · exact unsigned_emits (by decide) (by decide) (by omega) (by omega)
  split
  · rw [low_byte]
    exact signed_emits (by decide) (by omega) (by omega)
  split
  · exact signed_emits (by decide) (by omega) (by omega)
  split
  · exact signed_emits (by decide) (by omega) (by omega)
  · exact signed_emits (by decide) (by omega) (by omega)

structure Counted (family : Family) (fix f16 f32 : Byte) : Prop where
  short : ∀ n, n < family.fixCount → family.Head n [fix ||| UInt8.ofNat n]
  limit : family.fixCount = (if fix = 0xa0 then 0x1f else 0x0f) + 1
  wide16 : (f16, 2) ∈ family.wide
  wide32 : (f32, 4) ∈ family.wide

theorem fix_head {family : Family} {fix : Byte} {k : Nat} (hBase : family.fixBase = fix.toNat)
    (hLow : fix.toNat % 2 ^ k = 0) (hTop : fix.toNat + 2 ^ k ≤ 256) {n : Nat}
    (hn : n < family.fixCount) (hCount : family.fixCount = 2 ^ k) :
    family.Head n [fix ||| UInt8.ofNat n] := by
  have hByte : (UInt8.ofNat n).toNat = n := UInt8.toNat_ofNat_of_lt' (by simp [UInt8.size]; omega)
  have hOr : (fix ||| UInt8.ofNat n).toNat = fix.toNat + n := by
    obtain ⟨j, hj⟩ := Nat.dvd_of_mod_eq_zero hLow
    rw [UInt8.toNat_or, hByte, hj, ← Nat.two_pow_add_eq_or_of_lt (by omega)]
  have h : family.Head ((fix ||| UInt8.ofNat n).toNat - family.fixBase) [fix ||| UInt8.ofNat n] :=
    .fix (by omega) (by omega)
  rwa [hOr, hBase, Nat.add_sub_cancel_left] at h

theorem counted_str : Counted strFamily 0xa0 0xda 0xdb where
  short _ hn := fix_head (k := 5) rfl (by decide) (by decide) hn rfl
  limit := rfl
  wide16 := by decide
  wide32 := by decide

theorem counted_array : Counted arrayFamily 0x90 0xdc 0xdd where
  short _ hn := fix_head (k := 4) rfl (by decide) (by decide) hn rfl
  limit := rfl
  wide16 := by decide
  wide32 := by decide

theorem counted_map : Counted mapFamily 0x80 0xde 0xdf where
  short _ hn := fix_head (k := 4) rfl (by decide) (by decide) hn rfl
  limit := rfl
  wide16 := by decide
  wide32 := by decide

theorem wide_head {family : Family} {tag : Byte} {k n : Nat} (hTag : (tag, k) ∈ family.wide)
    (hk : k ≤ 8) (hn : n < 256 ^ k) : family.Head n (tag :: mpPutBe (UInt64.ofNat n) k) := by
  have hPow : 256 ^ k ≤ 256 ^ 8 := Nat.pow_le_pow_right (by decide) hk
  have hNat : (UInt64.ofNat n).toNat = n := UInt64.toNat_ofNat_of_lt' (by simp [UInt64.size]; omega)
  have hValue : beValue (mpPutBe (UInt64.ofNat n) k) = n := by
    rw [beValue_mpPutBe _ hk, hNat, Nat.mod_eq_of_lt hn]
  have h : family.Head (beValue (mpPutBe (UInt64.ofNat n) k)) (tag :: mpPutBe (UInt64.ofNat n) k) :=
    .wide (by simpa using hTag)
  rwa [hValue] at h

theorem mpEmitCount_head {family : Family} {fix f16 f32 : Byte}
    (h : Counted family fix f16 f32) {n : Nat} (hn : n < 2 ^ 32) :
    ∃ head, mpEmitCount n fix f16 f32 = some head ∧ family.Head n head := by
  have hLimit := h.limit
  unfold mpEmitCount
  generalize (if fix = 0xa0 then 0x1f else 0x0f) = fixmax at hLimit ⊢
  dsimp only
  rw [if_neg (by omega)]
  split
  · exact ⟨_, rfl, h.short n (by omega)⟩
  split
  · exact ⟨_, rfl, wide_head h.wide16 (by decide) (by omega)⟩
  · exact ⟨_, rfl, wide_head h.wide32 (by decide) (by omega)⟩

theorem mpEmitStr_blob {s : Bytes} (h : s.length < 2 ^ 32) :
    ∃ b, mpEmitStr s = some b ∧ strFamily.Blob s b := by
  obtain ⟨head, hEmit, hHead⟩ := mpEmitCount_head counted_str h
  refine ⟨head ++ s, ?_, .mk hHead⟩
  rw [mpEmitStr, hEmit]
  rfl

/-- The encoder writes the object as `b`, with `depth` frames on its stack. -/
inductive Emits (depth : Nat) (obj : Object) : Bytes → Prop
  | scalar {node : Bytes} (hNode : mpEmitNode obj = some node) (hFrame : mpEncFrame obj = none) :
    Emits depth obj node
  | container {node body : Bytes} {frame : MpEncFrame} (hNode : mpEmitNode obj = some node)
    (hFrame : mpEncFrame obj = some frame) (hDepth : depth < kMarshalDepthCap)
    (inner : ∀ buf, mpEncoder.Reads (depth + 1) frame buf (.done () (buf ++ body))) :
    Emits depth obj (node ++ body)

theorem reads_entry {depth : Nat} {f rest : MpEncFrame} {k b buf : Bytes} {child : Object}
    {r : Walk.Verdict MpEncFrame Bytes Unit Unit} (hTake : f.take = some (some k, child, rest))
    (hChild : Emits depth child b) (hRest : mpEncoder.Reads depth rest (buf ++ (k ++ b)) r) :
    mpEncoder.Reads depth f buf r := by
  rw [← List.append_assoc] at hRest
  cases hChild with
  | scalar hNode hFrame =>
    refine .next ?_ hRest
    change mpEncMove depth f buf = _
    simp only [mpEncMove, hTake, hNode, hFrame]
  | container hNode hFrame hDepth inner =>
    rw [← List.append_assoc] at hRest
    refine .push ?_ (inner _) hRest
    change mpEncMove depth f buf = _
    simp only [mpEncMove, hTake, hNode, hFrame, if_pos hDepth]

theorem reads_none {depth : Nat} {f : MpEncFrame} {buf : Bytes} (hTake : f.take = none) :
    mpEncoder.Reads depth f buf (.done () buf) := by
  apply Walk.Machine.Reads.pop
  change mpEncMove depth f buf = _
  simp only [mpEncMove, hTake]

def Encoded (room depth : Nat) (obj : Object) : Prop :=
  ∃ b, Emits depth obj b ∧ Encodes room obj.wire b

section

variable {room depth : Nat}
  (ih : ∀ obj : Object, obj.nesting ≤ room → obj.Sized → Encoded room depth obj)

include ih

theorem items_encoded (items : List Object) (hNesting : Object.itemsNesting items ≤ room)
    (hSized : Object.ItemsSized items) :
    ∃ chunks, List.Forall₂ (Encodes room) (Object.itemsWire items) chunks ∧
      ∀ buf, mpEncoder.Reads depth (.array items) buf (.done () (buf ++ chunks.flatten)) := by
  induction items with
  | nil =>
    refine ⟨[], .nil, fun buf => ?_⟩
    rw [List.flatten_nil, List.append_nil]
    exact reads_none rfl
  | cons item rest ihRest =>
    rw [Object.itemsNesting, Nat.max_le] at hNesting
    obtain ⟨b, hEmits, hEnc⟩ := ih item hNesting.1 hSized.1
    obtain ⟨chunks, hItems, hReads⟩ := ihRest hNesting.2 hSized.2
    refine ⟨b :: chunks, .cons hEnc hItems, fun buf => ?_⟩
    rw [List.flatten_cons, ← List.append_assoc]
    exact reads_entry (k := []) rfl hEmits (hReads (buf ++ b))

theorem members_encoded (items : List (Bytes × Object))
    (hNesting : Object.membersNesting items ≤ room) (hSized : Object.MembersSized items) :
    ∃ chunks, List.Forall₂ (Pair (Encodes room)) (Object.membersWire items) chunks ∧
      ∀ buf, mpEncoder.Reads depth (.map items) buf (.done () (buf ++ chunks.flatten)) := by
  induction items with
  | nil =>
    refine ⟨[], .nil, fun buf => ?_⟩
    rw [List.flatten_nil, List.append_nil]
    exact reads_none rfl
  | cons member rest ihRest =>
    obtain ⟨key, value⟩ := member
    rw [Object.membersNesting, Nat.max_le] at hNesting
    obtain ⟨hKey, hValue, hRest⟩ := hSized
    obtain ⟨k, hEmitKey, hBlob⟩ := mpEmitStr_blob hKey
    obtain ⟨b, hEmits, hEnc⟩ := ih value hNesting.1 hValue
    obtain ⟨chunks, hItems, hReads⟩ := ihRest hNesting.2 hRest
    refine ⟨(k ++ b) :: chunks, .cons (.mk hBlob hEnc) hItems, fun buf => ?_⟩
    rw [List.flatten_cons, ← List.append_assoc]
    refine reads_entry (k := k) ?_ hEmits (hReads (buf ++ (k ++ b)))
    rw [MpEncFrame.take, hEmitKey]

end

theorem scalar_encoded {room depth : Nat} {obj : Object} {b : Bytes}
    (hNode : mpEmitNode obj = some b) (hFrame : mpEncFrame obj = none) (h : Scalar obj.wire b) :
    Encoded room depth obj := by
  refine ⟨b, .scalar hNode hFrame, ?_⟩
  cases room with
  | zero => exact h
  | succ room => exact .inl h

theorem leaf_encoded (room : Nat) {depth : Nat} {obj : Object} (hFrame : mpEncFrame obj = none)
    (hSized : obj.Sized) : Encoded room depth obj := by
  cases obj with
  | nil => exact scalar_encoded rfl rfl .nil
  | boolean b =>
    cases b with
    | false => exact scalar_encoded rfl rfl .no
    | true => exact scalar_encoded rfl rfl .yes
  | integer n => exact scalar_encoded rfl rfl (mpEmitInt_scalar n)
  | float d =>
    have h : Scalar (.float ⟨UInt64.ofNat (beValue (mpPutBe d.bits 8))⟩)
        (0xcb :: mpPutBe d.bits 8) := .float64 (mpPutBe_length _ _)
    have hBits : UInt64.ofNat (beValue (mpPutBe d.bits 8)) = d.bits := by
      have hLt : d.bits.toNat < 256 ^ 8 := d.bits.toNat_lt
      rw [beValue_mpPutBe _ (by decide), Nat.mod_eq_of_lt hLt, UInt64.ofNat_toNat]
    rw [hBits] at h
    exact scalar_encoded rfl rfl h
  | string s =>
    obtain ⟨b, hEmit, hBlob⟩ := mpEmitStr_blob hSized
    exact scalar_encoded hEmit rfl (.str hBlob)
  | array items => cases hFrame
  | dict items => cases hFrame
  | session => exact scalar_encoded rfl rfl .nil

theorem encoded (room : Nat) {depth : Nat} (hRoom : depth + room = kMarshalDepthCap)
    (obj : Object) (hNesting : obj.nesting ≤ room) (hSized : obj.Sized) :
    Encoded room depth obj := by
  induction room generalizing depth obj with
  | zero =>
    cases obj with
    | array items => cases hNesting
    | dict items => cases hNesting
    | _ => exact leaf_encoded 0 rfl hSized
  | succ room ih =>
    have hDepth : depth < kMarshalDepthCap := by omega
    have hInner : ∀ obj : Object, obj.nesting ≤ room → obj.Sized → Encoded room (depth + 1) obj :=
      fun obj => ih (by omega) obj
    cases obj with
    | array items =>
      obtain ⟨hCount, hItems⟩ := hSized
      obtain ⟨head, hEmit, hHead⟩ := mpEmitCount_head counted_array hCount
      obtain ⟨chunks, hChunks, hReads⟩ :=
        items_encoded hInner items (Nat.le_of_succ_le_succ hNesting) hItems
      rw [← Object.itemsWire_length] at hHead
      exact ⟨_, .container hEmit rfl hDepth hReads, .inr (.array hHead hChunks)⟩
    | dict items =>
      obtain ⟨hCount, hItems⟩ := hSized
      obtain ⟨head, hEmit, hHead⟩ := mpEmitCount_head counted_map hCount
      obtain ⟨chunks, hChunks, hReads⟩ :=
        members_encoded hInner items (Nat.le_of_succ_le_succ hNesting) hItems
      rw [← Object.membersWire_length] at hHead
      exact ⟨_, .container hEmit rfl hDepth hReads, .inr (.dict hHead hChunks)⟩
    | _ => exact leaf_encoded _ rfl hSized

theorem msgpackEncode_of_emits {obj : Object} {b : Bytes} (h : Emits 0 obj b) :
    msgpackEncode obj = some b := by
  unfold msgpackEncode
  cases h with
  | scalar hNode hFrame =>
    rw [hNode, Option.bind_some, hFrame]
  | container hNode hFrame hDepth inner =>
    rw [hNode, Option.bind_some, hFrame]
    dsimp only
    rw [Walk.Machine.run_root (inner _)]

/-- What is encoded is decoded, with a session as nil, and whatever follows is left. -/
theorem msgpackToObject_msgpackEncode (obj : Object) (hNesting : obj.nesting ≤ kMarshalDepthCap)
    (hSized : obj.Sized) (s : Bytes) :
    ∃ b, msgpackEncode obj = some b ∧ msgpackToObject (b ++ s) = .ok (obj.wire, b.length) := by
  obtain ⟨b, hEmits, hEnc⟩ := encoded kMarshalDepthCap (Nat.zero_add _) obj hNesting hSized
  exact ⟨b, msgpackEncode_of_emits hEmits, decoded_of_encodes hEnc s⟩

theorem msgpackToObject_msgpackEncode_sample :
    ∃ b, msgpackEncode (.dict [([], .integer (-33)), ([], .array [.string [0], .session])]) = some b ∧
      msgpackToObject (b ++ [0xc1]) =
        .ok (.dict [([], .integer (-33)), ([], .array [.string [0], .nil])], b.length) :=
  msgpackToObject_msgpackEncode (.dict [([], .integer (-33)), ([], .array [.string [0], .session])])
    (by decide) (by simp [Object.Sized, Object.MembersSized, Object.ItemsSized]) [0xc1]

end Msgpack

end Mua
