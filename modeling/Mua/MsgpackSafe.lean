import Mua.MsgpackSlots

/-! # The decoder does not fault

Every read of the decoder in memory is the read of the codec, by index, and the
loop goes on as that of the codec does. Its result owns every block allocated, or
all of them are freed.
-/

namespace Mua.Msgpack

open Walk (Place Machine)

variable {buf : Bytes} {d : Dec} {pos n : Nat}

theorem minus_ok {a b : Nat} (h : b ≤ a) : minus a b = .ok (a - b) := if_neg (Nat.not_lt.mpr h)

theorem drop_cons (h : pos < buf.length) : ∃ b, buf.drop pos = b :: buf.drop (pos + 1) ∧
    byteAt buf pos = .ok b := by
  refine ⟨buf[pos], List.drop_eq_getElem_cons h, ?_⟩
  rw [byteAt, List.getElem?_eq_getElem h]

theorem mpBeFrom_ok (v : UInt64) (h : pos + n ≤ buf.length) :
    mpBeFrom buf pos v n =
      .ok (((buf.drop pos).take n).foldl (fun v b => v <<< 8 ||| b.toUInt64) v) := by
  induction n generalizing pos v with
  | zero => rfl
  | succ n ih =>
    have hPos : pos < buf.length := by omega
    obtain ⟨b, hDrop, hByte⟩ := drop_cons hPos
    rw [mpBeFrom, hByte, hDrop]
    exact ih _ (by omega)

theorem mpBeAt_ok (h : pos + (n + 1) ≤ buf.length) :
    mpBeAt buf (pos + 1) n = .ok (mpBe ((buf.drop pos).drop 1) n) := by
  rw [mpBeAt, mpBeFrom_ok 0 (by omega), List.drop_drop]
  rfl

theorem bytesAt_ok (h : pos + n ≤ buf.length) :
    bytesAt buf pos n = .ok ((buf.drop pos).take n) := by
  induction n generalizing pos with
  | zero => rfl
  | succ n ih =>
    have hPos : pos < buf.length := by omega
    obtain ⟨b, hDrop, hByte⟩ := drop_cons hPos
    rw [bytesAt, hByte, hDrop]
    change (bytesAt buf (pos + 1) n).bind _ = _
    rw [ih (by omega)]
    rfl

/-- A read at a position, from a read of the bytes that are left there. -/
def takenAt {α : Type} (buf : Bytes) (t : Take α) : Taken α :=
  t.map fun (a, rest) => (a, buf.length - rest.length)

/-- A string that is taken has its own block, unless it is empty. -/
def Dec.text (d : Dec) (s : Bytes) : Text := ⟨d.fresh s.length, s⟩

def TakesAt (buf : Bytes) (d : Dec) (t : Take Bytes) (read : Checked (Taken Text)) : Prop :=
  read = .ok (takenAt buf (t.into d.text))

theorem mpTakeUintAt_ok (h : pos ≤ buf.length) :
    mpTakeUintAt buf pos n = .ok (takenAt buf (mpTakeUint (buf.drop pos) n)) := by
  have hLength : (buf.drop pos).length = buf.length - pos := List.length_drop
  unfold mpTakeUintAt mpTakeUint
  rw [minus_ok h, hLength]
  change (if _ then _ else _ : Checked _) = _
  split
  · rfl
  · rw [mpBeAt_ok (by omega)]
    have hRest : buf.length - ((buf.drop pos).drop (n + 1)).length = pos + (n + 1) := by
      rw [List.length_drop, hLength]
      omega
    simp only [takenAt, Except.map, hRest]
    rfl

theorem mpTakeStrAt_ok {hdr : Nat} {payload : UInt64} (h : d.pos ≤ buf.length) :
    TakesAt buf d (mpTakeStr (buf.drop d.pos) hdr payload) (mpTakeStrAt buf d hdr payload) := by
  have hLength : (buf.drop d.pos).length = buf.length - d.pos := List.length_drop
  unfold TakesAt mpTakeStrAt mpTakeStr
  rw [minus_ok h, hLength]
  change (if _ then _ else _ : Checked _) = _
  split
  · rename_i hHdr
    rw [if_pos (.inl hHdr)]
    rfl
  · rename_i hHdr
    rw [minus_ok (Nat.not_lt.mp hHdr)]
    change (if _ then _ else _ : Checked _) = _
    split
    · rename_i hBody
      rw [if_pos (.inr hBody)]
      rfl
    · rename_i hBody
      rw [if_neg (by tauto), bytesAt_ok (by omega)]
      have hData : ((buf.drop (d.pos + hdr)).take payload.toNat).length = payload.toNat := by
        rw [List.length_take, List.length_drop]
        omega
      have hRest : buf.length - ((buf.drop d.pos).drop (hdr + payload.toNat)).length =
          d.pos + (hdr + payload.toNat) := by
        rw [List.length_drop, hLength]
        omega
      simp only [takenAt, Take.into, Except.map, Dec.text, List.drop_drop, hData] at hRest ⊢
      rw [hRest]
      rfl

theorem mpSizedAt_ok {α β : Type} {incomplete : α} {take : UInt64 → Checked α}
    {take' : UInt64 → Take β} {R : Take β → Checked α → Prop} (h : pos ≤ buf.length)
    (hIncomplete : R (.error .incomplete) (.ok incomplete))
    (hTake : pos + (n + 1) ≤ buf.length → ∀ count, R (take' count) (take count)) :
    R (mpSized (buf.drop pos) n take') (mpSizedAt buf pos n incomplete take) := by
  have hLength : (buf.drop pos).length = buf.length - pos := List.length_drop
  unfold mpSizedAt mpSized
  rw [minus_ok h, hLength]
  change R _ (if _ then _ else _ : Checked _)
  split
  · exact hIncomplete
  · rw [mpBeAt_ok (by omega)]
    exact hTake (by omega) _

theorem sizedStr_ok {hdr : Nat} (h : d.pos ≤ buf.length) :
    TakesAt buf d (mpSized (buf.drop d.pos) n (mpTakeStr (buf.drop d.pos) hdr))
      (sizedStr buf d n hdr) :=
  mpSizedAt_ok (R := TakesAt buf d) h rfl fun _ _ => mpTakeStrAt_ok h

theorem ite_both {α β : Type} {R : α → β → Prop} {p : Prop} [Decidable p] {a b : α} {a' b' : β}
    (ha : R a a') (hb : R b b') : R (if p then a else b) (if p then a' else b') := by
  split
  · exact ha
  · exact hb

theorem mpReadKeyAt_ok (h : d.pos ≤ buf.length) :
    TakesAt buf d (mpReadKey (buf.drop d.pos)) (mpReadKeyAt buf d) := by
  unfold mpReadKeyAt
  rw [minus_ok h]
  change TakesAt buf d _ (if _ then _ else _)
  split
  · rw [List.drop_eq_nil_of_le (by omega)]
    rfl
  · have hPos : d.pos < buf.length := by omega
    obtain ⟨b, hDrop, hByte⟩ := drop_cons hPos
    have hStr : ∀ {hdr payload}, TakesAt buf d (mpTakeStr (buf.drop d.pos) hdr payload)
        (mpTakeStrAt buf d hdr payload) := mpTakeStrAt_ok h
    have hSized : ∀ {n hdr}, TakesAt buf d
        (mpSized (buf.drop d.pos) n (mpTakeStr (buf.drop d.pos) hdr)) (sizedStr buf d n hdr) :=
      sizedStr_ok h
    rw [hByte]
    rw [hDrop] at hStr hSized ⊢
    refine ite_both hStr ?_
    refine ite_both hSized ?_
    refine ite_both hSized ?_
    exact ite_both hSized rfl

/-- Each block allocated is in the tree, and no container has more slots than bytes were left. -/
structure Accounted (buf : Bytes) (d : Dec) : Prop where
  pos : d.pos ≤ buf.length
  blocks : d.out.blocks.Perm d.blocks
  fresh : d.blocks = List.range d.blocks.length
  nesting : d.out.nesting ≤ kMarshalDepthCap
  stack : d.stack.length ≤ kMarshalDepthCap
  opened : ∀ o ∈ d.opened, o.1 ≤ o.2 ∧ o.2 ≤ buf.length

section

variable {x y : Slot} {fs : List MpFrame} {frames : List MpDecFrame} {w : Place}

/-- A store at the end of a spine, of what owns one block more at most. -/
theorem Accounted.put (h : Accounted buf d) (hSpine : Spine d.out [] fs frames w x)
    (block : Option Nat) (hFresh : ∀ id, block = some id → id = d.blocks.length)
    (hBlocks : y.blocks.Perm (block.toList ++ x.blocks))
    (hNesting : w.length + y.nesting ≤ kMarshalDepthCap) (hPos : pos ≤ buf.length) :
    ∃ out, d.store w y = .ok { d with out } ∧ Spine out [] fs frames w y ∧
      Accounted buf { d with pos, out, blocks := d.blocks ++ block.toList } := by
  obtain ⟨out, hStored, hSpine'⟩ := hSpine.store y
  obtain ⟨others, hOld, hNew⟩ := hStored.blocks
  refine ⟨out, ?_, hSpine', ?_⟩
  · rw [Dec.store, hStored.store]
  constructor
  case pos => exact hPos
  case blocks =>
    have hOwned := List.perm_iff_count.mp (hOld.symm.trans h.blocks)
    have hKid := List.perm_iff_count.mp hBlocks
    have hOut := List.perm_iff_count.mp hNew
    refine List.perm_iff_count.mpr fun id => ?_
    have h₁ := hOwned id
    have h₂ := hKid id
    have h₃ := hOut id
    simp only [List.count_append] at h₁ h₂ h₃ ⊢
    omega
  case fresh =>
    cases block with
    | none => rw [Option.toList_none, List.append_nil]; exact h.fresh
    | some id =>
      have hId := hFresh id rfl
      subst hId
      rw [Option.toList_some, List.length_append, List.length_singleton, List.range_succ, ← h.fresh]
  case nesting => exact hStored.nesting _ h.nesting hNesting
  case stack => exact h.stack
  case opened => exact h.opened

theorem fresh_eq {size id : Nat} (h : d.fresh size = some id) : id = d.blocks.length := by
  unfold Dec.fresh at h
  split at h
  · exact (Option.some.inj h).symm
  · cases h

/-- The frame on top of the stack is the codec's, above the frames it has. -/
def OnTop (d : Dec) (frames : List MpDecFrame) (frame : MpDecFrame) : Prop :=
  ∃ fs f c, d.stack = fs ++ [f] ∧ Spine d.out [] fs frames f.container c ∧ Holds f c ∧
    Mirrors frame c f.idx f.awaitingValue

/-- The read of a value into the slot at `w` ends as that of the codec. -/
def ReadsAt (buf : Bytes) (d : Dec) (frames : List MpDecFrame) (w : Place) :
    Take MpNode → Step → Prop
  | .error stop, step => ∃ d', step = .ok (.error stop, d') ∧ Accounted buf d'
  | .ok (.value v, rest), step => ∃ d' y, step = .ok (.ok (), d') ∧ Accounted buf d' ∧
    d'.pos = buf.length - rest.length ∧ d'.stack = d.stack ∧
    Spine d'.out [] d.stack frames w y ∧ y.object = v
  | .ok (.container frame, rest), step => ∃ d', step = .ok (.ok (), d') ∧ Accounted buf d' ∧
    d'.pos = buf.length - rest.length ∧ d'.stack.length = d.stack.length + 1 ∧
    OnTop d' frames frame

theorem push_bind {α : Type} (h : d.stack.length < kMarshalDepthCap) (f : MpFrame)
    (k : Dec → Checked α) : (d.push f).bind k = k { d with stack := d.stack ++ [f] } := by
  rw [Dec.push, if_pos h]
  rfl

section Value

variable (hAccount : Accounted buf d) (hSpine : Spine d.out [] d.stack frames w .nil)

include hAccount hSpine

theorem putByte_ok {b : Byte} {rest : Bytes} (hDrop : buf.drop d.pos = b :: rest)
    (hBlocks : y.blocks = []) (hNesting : y.nesting = 0) :
    ReadsAt buf d frames w (.ok (.value y.object, rest)) (putByte d w y) := by
  have hLength := congrArg List.length hDrop
  rw [List.length_drop, List.length_cons] at hLength
  have hDepth := hAccount.stack
  have hPlace := hSpine.length
  obtain ⟨out, hStore, hSpine', hAccount'⟩ := hAccount.put hSpine none nofun
    (by rw [hBlocks]; exact .nil) (by omega) (show d.pos + 1 ≤ buf.length by omega)
  rw [Option.toList_none, List.append_nil] at hAccount'
  refine ⟨{ d with pos := d.pos + 1, out }, y, ?_, hAccount', ?_, rfl, hSpine', rfl⟩
  · rw [putByte, hStore]
    rfl
  · change d.pos + 1 = _
    omega

theorem putStr_ok {taken : Take Bytes} {read : Checked (Taken Text)}
    (h : TakesAt buf d taken read) :
    ReadsAt buf d frames w (taken.into fun s => .value (.string s)) (putStr d w read) := by
  cases h
  cases taken with
  | error stop => exact ⟨d, rfl, hAccount⟩
  | ok result =>
    obtain ⟨s, rest⟩ := result
    have hDepth := hAccount.stack
    have hPlace := hSpine.length
    obtain ⟨out, hStore, hSpine', hAccount'⟩ := hAccount.put hSpine (y := .string (d.text s))
      (d.fresh s.length) (fun id h => fresh_eq h) (by simp [Slot.blocks, Dec.text])
      (by rw [hPlace]; exact hDepth) (Nat.sub_le buf.length rest.length)
    refine ⟨_, .string (d.text s), ?_, hAccount', rfl, rfl, hSpine', rfl⟩
    change putStr d w (.ok (.ok (d.text s, buf.length - rest.length))) = _
    change (d.store w (.string (d.text s))).bind _ = _
    rw [hStore]
    rfl

theorem putNumber_ok {always : Bool} {value : UInt64 → Slot} {obj : UInt64 → Object}
    (hValue : ∀ u, (value u).blocks = [] ∧ (value u).nesting = 0 ∧ (value u).object = obj u) :
    ReadsAt buf d frames w (((mpTakeUint (buf.drop d.pos) n).into obj).into .value)
      (putNumber buf d w n always value) := by
  have hDepth := hAccount.stack
  have hPlace := hSpine.length
  have hPut : ∀ u {pos'}, pos' ≤ buf.length → ∃ out, d.store w (value u) = .ok { d with out } ∧
      Spine out [] d.stack frames w (value u) ∧ Accounted buf { d with pos := pos', out } := by
    intro u pos' hPos
    obtain ⟨hBlocks, hNesting, -⟩ := hValue u
    obtain ⟨out, hStore, hSpine', hAccount'⟩ := hAccount.put hSpine none nofun
      (by rw [hBlocks]; exact .nil) (by omega) hPos
    rw [Option.toList_none, List.append_nil] at hAccount'
    exact ⟨out, hStore, hSpine', hAccount'⟩
  unfold putNumber
  rw [mpTakeUintAt_ok hAccount.pos]
  cases mpTakeUint (buf.drop d.pos) n with
  | error stop =>
    cases always with
    | false => exact ⟨d, rfl, hAccount⟩
    | true =>
      obtain ⟨out, hStore, -, hAccount'⟩ := hPut 0 hAccount.pos
      refine ⟨_, ?_, hAccount'⟩
      change (d.store w (value 0)).bind _ = _
      rw [hStore]
      rfl
  | ok result =>
    obtain ⟨u, rest⟩ := result
    obtain ⟨out, hStore, hSpine', hAccount'⟩ := hPut u (Nat.sub_le buf.length rest.length)
    refine ⟨_, value u, ?_, hAccount', rfl, rfl, hSpine', (hValue u).2.2⟩
    change (d.store w (value u)).bind _ = _
    rw [hStore]
    rfl

theorem mpOpenAt_ok {hdr : Nat} {count : UInt64} {isMap : Bool} (hHdr : d.pos + hdr ≤ buf.length) :
    ReadsAt buf d frames w (mpOpen (buf.drop d.pos) hdr count isMap d.stack.length)
      (mpOpenAt buf d hdr count isMap w) := by
  have hLength : (buf.drop d.pos).length = buf.length - d.pos := List.length_drop
  have hPlace := hSpine.length
  unfold mpOpenAt mpOpen
  rw [minus_ok hAccount.pos]
  change ReadsAt buf d frames w _ ((minus (buf.length - d.pos) hdr).bind _)
  rw [minus_ok (by omega), hLength]
  change ReadsAt buf d frames w _ (if _ then _ else _)
  split
  · exact ⟨d, rfl, hAccount⟩
  split
  · exact ⟨d, rfl, hAccount⟩
  · rename_i hFits hRoom
    have hNesting := nesting_opened isMap (d.fresh count.toNat) count.toNat
    obtain ⟨out, hStore, hSpine', hAccount'⟩ := hAccount.put hSpine
      (y := Slot.opened isMap (d.fresh count.toNat) count.toNat) (d.fresh count.toNat)
      (fun id h => fresh_eq h) (by rw [blocks_opened, Slot.blocks, List.append_nil]) (by omega) hHdr
    have hPush : d.stack.length < kMarshalDepthCap := Nat.not_le.mp hRoom
    refine ⟨⟨d.pos + hdr, out, d.stack ++ [⟨w, count.toNat, 0, isMap, false⟩],
      d.blocks ++ (d.fresh count.toNat).toList,
      d.opened ++ [(count.toNat, buf.length - d.pos - hdr)]⟩, ?_, ?_, ?_, ?_, ?_⟩
    · change (d.store w _).bind _ = _
      rw [hStore]
      refine (push_bind ?_ _ _).trans rfl
      exact hPush
    · constructor
      case pos => exact hAccount'.pos
      case blocks => exact hAccount'.blocks
      case fresh => exact hAccount'.fresh
      case nesting => exact hAccount'.nesting
      case stack =>
        rw [List.length_append, List.length_singleton]
        exact hPush
      case opened =>
        intro o hMem
        rcases List.mem_append.mp hMem with hMem | hMem
        · exact hAccount.opened o hMem
        · rw [List.mem_singleton.mp hMem]
          exact ⟨by omega, by omega⟩
    · change d.pos + hdr = buf.length - ((buf.drop d.pos).drop hdr).length
      rw [List.length_drop, hLength]
      omega
    · rw [List.length_append, List.length_singleton]
    · exact ⟨d.stack, _, _, rfl, hSpine', holds_opened w isMap _ _, mirrors_opened isMap _ _⟩

theorem sizedOpen_ok {isMap : Bool} :
    ReadsAt buf d frames w
      (mpSized (buf.drop d.pos) n fun count =>
        mpOpen (buf.drop d.pos) (n + 1) count isMap d.stack.length)
      (sizedOpen buf d n (n + 1) isMap w) :=
  mpSizedAt_ok (R := ReadsAt buf d frames w) hAccount.pos ⟨d, rfl, hAccount⟩
    fun hHdr _ => mpOpenAt_ok hAccount hSpine hHdr

theorem mpReadNumberAt_ok (b : Byte) :
    ReadsAt buf d frames w ((mpReadNumber b (buf.drop d.pos)).into .value)
      (mpReadNumberAt b buf d w) := by
  have hFixed : ∀ {n always} {value : UInt64 → Int64}, ReadsAt buf d frames w
      (((mpTakeUint (buf.drop d.pos) n).into fun u => .integer (value u)).into .value)
      (putNumber buf d w n always fun u => .integer (value u)) :=
    putNumber_ok hAccount hSpine fun u => ⟨rfl, rfl, rfl⟩
  have hFloat : ∀ {n always} {value : UInt64 → Double}, ReadsAt buf d frames w
      (((mpTakeUint (buf.drop d.pos) n).into fun u => .float (value u)).into .value)
      (putNumber buf d w n always fun u => .float (value u)) :=
    putNumber_ok hAccount hSpine fun u => ⟨rfl, rfl, rfl⟩
  have hIte : ∀ {p : Prop} [Decidable p] {a b : Take Object} {a' b' : Step},
      ReadsAt buf d frames w (a.into .value) a' → ReadsAt buf d frames w (b.into .value) b' →
      ReadsAt buf d frames w ((if p then a else b).into .value) (if p then a' else b') :=
    fun ha hb => ite_both (R := fun t s => ReadsAt buf d frames w (Take.into .value t) s) ha hb
  unfold mpReadNumber mpReadNumberAt
  -- two floats, four widths without a sign, of which the last may be a float, and four with one
  refine hIte hFloat (hIte hFloat ?_)
  refine hIte hFixed (hIte hFixed (hIte hFixed (hIte ?_ ?_)))
  · refine putNumber_ok hAccount hSpine fun u => ?_
    split
    · exact ⟨rfl, rfl, rfl⟩
    · exact ⟨rfl, rfl, rfl⟩
  · exact hIte hFixed (hIte hFixed (hIte hFixed hFixed))

theorem mpReadExtAt_ok (b : Byte) :
    ReadsAt buf d frames w (mpReadExt b (buf.drop d.pos) d.stack.length)
      (mpReadExtAt b buf d w) := by
  have hStr : ∀ {n hdr}, ReadsAt buf d frames w
      ((mpSized (buf.drop d.pos) n (mpTakeStr (buf.drop d.pos) hdr)).into fun s => .value (.string s))
      (putStr d w (sizedStr buf d n hdr)) :=
    putStr_ok hAccount hSpine (sizedStr_ok hAccount.pos)
  unfold mpReadExt mpReadExtAt
  refine ite_both (mpReadNumberAt_ok hAccount hSpine b) ?_
  -- bin and str, then array and map, each in order of width
  refine ite_both hStr (ite_both hStr (ite_both hStr ?_))
  refine ite_both hStr (ite_both hStr (ite_both hStr ?_))
  refine ite_both (sizedOpen_ok hAccount hSpine) (ite_both (sizedOpen_ok hAccount hSpine) ?_)
  refine ite_both (sizedOpen_ok hAccount hSpine) (ite_both (sizedOpen_ok hAccount hSpine) ?_)
  exact ⟨d, rfl, hAccount⟩

theorem mpReadIntoAt_ok :
    ReadsAt buf d frames w (mpReadInto (buf.drop d.pos) d.stack.length) (mpReadIntoAt buf d w) := by
  unfold mpReadIntoAt
  rw [minus_ok hAccount.pos]
  change ReadsAt buf d frames w _ (if _ then _ else _)
  split
  · rw [List.drop_eq_nil_of_le (by omega)]
    exact ⟨d, rfl, hAccount⟩
  · have hPos : d.pos < buf.length := by omega
    obtain ⟨b, hDrop, hByte⟩ := drop_cons hPos
    have hByteOk {y} := putByte_ok (y := y) hAccount hSpine hDrop
    have hOpen : ∀ {count isMap}, ReadsAt buf d frames w
        (mpOpen (buf.drop d.pos) 1 count isMap d.stack.length) (mpOpenAt buf d 1 count isMap w) :=
      mpOpenAt_ok hAccount hSpine hPos
    have hStr : ∀ {payload}, ReadsAt buf d frames w
        ((mpTakeStr (buf.drop d.pos) 1 payload).into fun s => .value (.string s))
        (putStr d w (mpTakeStrAt buf d 1 payload)) :=
      putStr_ok hAccount hSpine (mpTakeStrAt_ok hAccount.pos)
    have hExt := mpReadExtAt_ok hAccount hSpine b
    rw [hByte]
    rw [hDrop] at hOpen hStr hExt ⊢
    change ReadsAt buf d frames w (mpReadInto (b :: _) _) (if _ then _ else _)
    unfold mpReadInto
    refine ite_both (hByteOk rfl rfl) (ite_both (hByteOk rfl rfl) ?_)
    refine ite_both hOpen (ite_both hOpen (ite_both hStr ?_))
    exact ite_both (hByteOk rfl rfl) (ite_both (hByteOk rfl rfl) hExt)

end Value

end

def Ends (buf : Bytes) : MpVerdict → Step → Prop
  | .done v rest, step => ∃ d', step = .ok (.ok (), d') ∧ Accounted buf d' ∧ d'.out.object = v ∧
    d'.pos = buf.length - rest.length
  | .halted stop _ _, step => ∃ d', step = .ok (.error stop, d') ∧ Accounted buf d'

def turns (buf : Bytes) (d : Dec) : Nat := 2 * (buf.length - d.pos) + d.stack.length

def LoopEnds (buf : Bytes) (fuel : Nat) : Prop :=
  ∀ d frames frame, Accounted buf d → OnTop d frames frame → turns buf d < fuel →
    Ends buf (mpDecoder.run frame frames.reverse (buf.drop d.pos)) (mpLoop buf fuel d)

theorem rest_eq {head rest : Bytes} (h : buf.drop pos = head ++ rest) :
    buf.drop (buf.length - rest.length) = rest := by
  have hSuffix : rest <:+ buf := by
    refine ⟨buf.take pos ++ head, ?_⟩
    rw [List.append_assoc, ← h, List.take_append_drop]
  exact (List.suffix_iff_eq_drop.mp hSuffix).symm

theorem Accounted.restack (h : Accounted buf d) {stack : List MpFrame}
    (hLength : stack.length ≤ d.stack.length) : Accounted buf { d with stack } := by
  constructor
  case pos => exact h.pos
  case blocks => exact h.blocks
  case fresh => exact h.fresh
  case nesting => exact h.nesting
  case stack => exact Nat.le_trans hLength h.stack
  case opened => exact h.opened

section Turn

variable {fuel : Nat} {f : MpFrame} {fs : List MpFrame} {frame : MpDecFrame}
  {frames : List MpDecFrame} {c : Slot}

theorem mpLoop_top (hStack : d.stack = fs ++ [f]) :
    mpLoop buf (fuel + 1) d =
      if f.remaining ≤ f.idx then mpLoop buf fuel { d with stack := fs }
      else (d.container f).bind fun container =>
        if f.isMap ∧ ¬f.awaitingValue then
          let awaiting := d.setTop { f with awaitingValue := true }
          (mpReadKeyAt buf d).bind fun
            | .error stop => .ok (.error stop, awaiting)
            | .ok (key, pos) => (awaiting.store f.container (container.setKey f.idx key)).bind
              fun d => mpLoop buf fuel { d.own key.block with pos }
        else
          let taken := if f.isMap then { f with idx := f.idx + 1, awaitingValue := false }
            else { f with idx := f.idx + 1 }
          (mpReadIntoAt buf (d.setTop taken) (f.container ++ [f.idx])).bind fun
            | (.error stop, d) => .ok (.error stop, d)
            | (.ok (), d) => mpLoop buf fuel d := by
  have hLast : d.stack.getLast? = some f := by rw [hStack, List.getLast?_concat]
  have hInit : d.stack.dropLast = fs := by rw [hStack, List.dropLast_concat]
  rw [mpLoop, hLast]
  dsimp only
  rw [hInit]
  rfl

theorem container_eq (hSpine : Spine d.out [] fs frames f.container c) (hHolds : Holds f c)
    (hMore : f.idx < f.remaining) : d.container f = .ok c := by
  have hLength : c.kids.length = f.remaining := by rw [Slot.kids, List.length_map, hHolds.count]
  rw [Dec.container, hSpine.node]
  exact if_pos ⟨hHolds.kind, hLength.symm ▸ hMore⟩

/-- A frame that is full gives its container to the one below. -/
theorem ends_full (ih : LoopEnds buf fuel) (hAccount : Accounted buf d)
    (hStack : d.stack = fs ++ [f]) (hSpine : Spine d.out [] fs frames f.container c)
    (hHolds : Holds f c) (hMirrors : Mirrors frame c f.idx f.awaitingValue)
    (hFuel : turns buf d < fuel + 1) (hFull : f.remaining ≤ f.idx) :
    Ends buf (mpDecoder.run frame frames.reverse (buf.drop d.pos)) (mpLoop buf (fuel + 1) d) := by
  have hLength : d.stack.length = fs.length + 1 := by rw [hStack, List.length_append]; rfl
  have hMove : mpDecoder.move (frames.reverse.length + 1) frame (buf.drop d.pos) =
      .pop c.object (buf.drop d.pos) := by
    change mpDecMove _ _ _ = _
    rw [mpDecMove, hMirrors.full hHolds, decide_eq_true hFull, hMirrors.object hHolds hFull]
    rfl
  have hAccount' : Accounted buf { d with stack := fs } := hAccount.restack (by omega)
  rw [Machine.run_eq, hMove, mpLoop_top hStack, if_pos hFull]
  unfold turns at hFuel
  generalize f.container = place at hSpine
  rcases List.eq_nil_or_concat fs with rfl | ⟨below, g, rfl⟩
  · cases hSpine
    obtain ⟨fuel, rfl⟩ : ∃ n, fuel = n + 1 := ⟨fuel - 1, by omega⟩
    refine ⟨{ d with stack := [] }, ?_, hAccount', rfl, ?_⟩
    · rw [mpLoop]
      rfl
    · have := hAccount.pos
      rw [List.length_drop]
      change d.pos = _
      omega
  · rw [List.concat_eq_append] at hSpine hLength ⊢
    obtain ⟨frames, frame, r, c', i, rfl, rfl, hSpine', hHolds', hPlace, hIdx, hFree, hMirrors', hKid⟩ :=
      hSpine.unsnoc
    rw [List.reverse_append]
    refine ih { d with stack := below ++ [g] } frames _ ?_ ⟨below, g, c', rfl, ?_, hHolds', ?_⟩ ?_
    · rwa [List.concat_eq_append] at hAccount'
    · rw [hPlace]
      exact hSpine'
    · rw [hIdx, hFree]
      exact hMirrors'.give hKid
    · unfold turns
      dsimp only
      omega

/-- A map reads its next key into the pair that is next. -/
theorem ends_key (ih : LoopEnds buf fuel) (hAccount : Accounted buf d)
    (hStack : d.stack = fs ++ [f]) (hSpine : Spine d.out [] fs frames f.container c)
    (hHolds : Holds f c) (hMirrors : Mirrors frame c f.idx f.awaitingValue)
    (hFuel : turns buf d < fuel + 1) (hMore : f.idx < f.remaining)
    (hKey : f.isMap = true ∧ ¬f.awaitingValue = true) :
    Ends buf (mpDecoder.run frame frames.reverse (buf.drop d.pos)) (mpLoop buf (fuel + 1) d) := by
  obtain ⟨hMap, hAwaits⟩ := hKey
  have hFree : f.awaitingValue = false := Bool.not_eq_true _ ▸ hAwaits
  have hLength : d.stack.length = fs.length + 1 := by rw [hStack, List.length_append]; rfl
  have hTop : d.setTop { f with awaitingValue := true } =
      { d with stack := fs ++ [{ f with awaitingValue := true }] } := by
    rw [Dec.setTop, hStack, List.dropLast_concat]
  have hAccount' : Accounted buf (d.setTop { f with awaitingValue := true }) := by
    rw [hTop]
    exact hAccount.restack (by rw [List.length_append, hLength]; rfl)
  have hMove := move_key (f := frame) (frames.reverse.length + 1) (buf.drop d.pos)
    (by rw [hMirrors.full hHolds]; exact decide_eq_false (Nat.not_le.mpr hMore))
    (by rw [hMirrors.atKey hHolds hMore, hMap, hFree]; rfl)
  rw [mpLoop_top hStack, if_neg (Nat.not_le.mpr hMore), container_eq hSpine hHolds hMore]
  change Ends buf _ (if _ then _ else _)
  rw [if_pos ⟨hMap, hAwaits⟩, mpReadKeyAt_ok hAccount.pos, Machine.run_eq, hMove]
  have hBelow := mpReadKey_below (buf.drop d.pos)
  have hSound := mpReadKey_sound (buf.drop d.pos)
  cases hRead : mpReadKey (buf.drop d.pos) with
  | error stop => exact ⟨_, rfl, hAccount'⟩
  | ok result =>
    obtain ⟨key, rest⟩ := result
    rw [hRead] at hSound
    obtain ⟨head, hSplit, -⟩ := hSound
    have hLess := hBelow key rest hRead
    rw [List.length_drop] at hLess
    have hKind : c.isMap = some true := by rw [hHolds.kind, hMap]
    obtain ⟨m, hGet, -⟩ := hHolds.next hMore
    have hUnset := hHolds.keys _ m (Nat.le_refl _) (fun _ => hFree) hGet
    have hNesting : f.container.length + c.nesting ≤ kMarshalDepthCap :=
      Nat.le_trans hSpine.nesting hAccount.nesting
    have hSet := nesting_setKey hKind f.idx (d.text key)
    rw [hTop] at hAccount' ⊢
    obtain ⟨out, hStore, hSpine', hAccount''⟩ := hAccount'.put hSpine (d.fresh key.length)
      (fun id h => fresh_eq h) (blocks_setKey hKind hGet hUnset (d.text key)) (by omega)
      (Nat.sub_le buf.length rest.length)
    change Ends buf _ ((Dec.store _ _ (c.setKey f.idx (d.text key))).bind _)
    rw [hStore]
    have hNext := ih _ frames (frame.setKey key) hAccount'' ?_ ?_
    · rw [rest_eq hSplit] at hNext
      exact hNext
    · refine ⟨fs, _, _, rfl, hSpine', hHolds.setKey hMap (d.text key), ?_⟩
      rw [hFree] at hMirrors
      exact hMirrors.setKey hHolds hMap hMore (d.text key)
    · unfold turns at hFuel ⊢
      dsimp only
      rw [List.length_append, List.length_singleton]
      omega

/-- A frame reads its next value. -/
theorem ends_value (ih : LoopEnds buf fuel) (hAccount : Accounted buf d)
    (hStack : d.stack = fs ++ [f]) (hSpine : Spine d.out [] fs frames f.container c)
    (hHolds : Holds f c) (hMirrors : Mirrors frame c f.idx f.awaitingValue)
    (hFuel : turns buf d < fuel + 1) (hMore : f.idx < f.remaining)
    (hKey : ¬(f.isMap = true ∧ ¬f.awaitingValue = true)) :
    Ends buf (mpDecoder.run frame frames.reverse (buf.drop d.pos)) (mpLoop buf (fuel + 1) d) := by
  have hAwaits : f.isMap = true → f.awaitingValue = true := fun hMap =>
    Decidable.byContradiction fun hNot => hKey ⟨hMap, hNot⟩
  have hLength : d.stack.length = fs.length + 1 := by rw [hStack, List.length_append]; rfl
  let taken : MpFrame := { f with idx := f.idx + 1, awaitingValue := false }
  have hTaken : (if f.isMap then { f with idx := f.idx + 1, awaitingValue := false }
      else { f with idx := f.idx + 1 }) = taken := by
    split
    · rfl
    · rename_i hMap
      rw [hHolds.array (Bool.not_eq_true _ ▸ hMap)]
  have hTop : d.setTop taken = { d with stack := fs ++ [taken] } := by
    rw [Dec.setTop, hStack, List.dropLast_concat]
  have hAccount' : Accounted buf { d with stack := fs ++ [taken] } :=
    hAccount.restack (by rw [List.length_append, hLength]; rfl)
  obtain ⟨m, hGet, hNil⟩ := hHolds.next hMore
  have hKid : c.kids[f.idx]? = some .nil := by rw [kids_getElem?, hGet, ← hNil]; rfl
  have hSpine' : Spine d.out [] (fs ++ [taken]) (frames ++ [frame]) (f.container ++ [f.idx]) .nil :=
    hSpine.snoc (hHolds.taken hMore) rfl rfl rfl (hMirrors.taken hHolds hAwaits) hKid
  have hDepth : frames.reverse.length + 1 = (fs ++ [taken]).length := by
    rw [List.length_reverse, hSpine.frames_length, List.length_append]
    rfl
  have hMove := move_value (f := frame) (frames.reverse.length + 1) (buf.drop d.pos)
    (by rw [hMirrors.full hHolds]; exact decide_eq_false (Nat.not_le.mpr hMore)) (by
      rw [hMirrors.atKey hHolds hMore]
      cases hMap : f.isMap with
      | true => rw [hAwaits hMap]; rfl
      | false => rfl)
  have hReads := mpReadIntoAt_ok hAccount' hSpine'
  rw [mpLoop_top hStack, if_neg (Nat.not_le.mpr hMore), container_eq hSpine hHolds hMore]
  change Ends buf _ (if _ then _ else _)
  rw [if_neg hKey, Machine.run_eq, hMove, hDepth, hTaken, hTop]
  have hBelow := mpReadInto_below (buf.drop d.pos) (fs ++ [taken]).length
  have hSound := mpReadInto_sound (buf.drop d.pos) (fs ++ [taken]).length
  change ReadsAt buf _ _ _ (mpReadInto (buf.drop d.pos) (fs ++ [taken]).length) _ at hReads
  unfold turns at hFuel
  cases hRead : mpReadInto (buf.drop d.pos) (fs ++ [taken]).length with
  | error stop =>
    rw [hRead] at hReads
    obtain ⟨d', hStep, hAccount''⟩ := hReads
    rw [hStep]
    exact ⟨d', rfl, hAccount''⟩
  | ok result =>
    obtain ⟨node, rest⟩ := result
    rw [hRead] at hReads hSound
    obtain ⟨head, hSplit, -⟩ := hSound
    have hLess := hBelow node rest hRead
    rw [List.length_drop] at hLess
    cases node with
    | value v =>
      obtain ⟨d', y, hStep, hAccount'', hPos, hStack', hSpine'', rfl⟩ := hReads
      rw [hStep]
      obtain ⟨frames', frame', r, c', i, hFrames, hPlace, hBelow', hHolds', hAt, hIdx, -, hMirrors',
        hKid'⟩ := hSpine''.unsnoc
      obtain ⟨rfl, hSame⟩ := List.append_inj' hFrames rfl
      obtain rfl := List.singleton_inj.mp hSame
      have hNext := ih d' frames (frame.give y.object) hAccount'' ?_ ?_
      · rw [hPos, rest_eq hSplit] at hNext
        exact hNext
      · refine ⟨fs, taken, c', hStack', ?_, hHolds', ?_⟩
        · rw [hAt]
          exact hBelow'
        · rw [hIdx]
          exact hMirrors'.give hKid'
      · unfold turns
        rw [hStack', hPos]
        change _ + (fs ++ [taken]).length < _
        rw [List.length_append, List.length_singleton]
        omega
    | container child =>
      obtain ⟨d', hStep, hAccount'', hPos, hStack', hOnTop⟩ := hReads
      rw [hStep]
      have hNext := ih d' (frames ++ [frame]) child hAccount'' hOnTop ?_
      · rw [hPos, rest_eq hSplit, List.reverse_append] at hNext
        exact hNext
      · unfold turns
        rw [hStack', hPos]
        change _ + ((fs ++ [taken]).length + 1) < _
        rw [List.length_append, List.length_singleton]
        omega

end Turn

theorem mpLoop_ends (buf : Bytes) (fuel : Nat) : LoopEnds buf fuel := by
  induction fuel with
  | zero =>
    intro d frames frame _ _ hFuel
    exact absurd hFuel (Nat.not_lt_zero _)
  | succ fuel ih =>
    intro d frames frame hAccount hOnTop hFuel
    obtain ⟨fs, f, c, hStack, hSpine, hHolds, hMirrors⟩ := hOnTop
    rcases Nat.lt_or_ge f.idx f.remaining with hMore | hFull
    · by_cases hKey : f.isMap = true ∧ ¬f.awaitingValue = true
      · exact ends_key ih hAccount hStack hSpine hHolds hMirrors hFuel hMore hKey
      · exact ends_value ih hAccount hStack hSpine hHolds hMirrors hFuel hMore hKey
    · exact ends_full ih hAccount hStack hSpine hHolds hMirrors hFuel hFull

theorem slotFreeSource_maps : slotFreeSource.Maps Slot.blocks Slot.nesting where
  leaf s state h := by
    cases s with
    | array block items => cases h
    | dict block items => cases h
    | _ => rfl
  node s state h := by
    have hBlocks := Slot.blocks_eq h
    cases s with
    | array block items =>
      refine ⟨block, rfl, ?_⟩
      rw [hBlocks]
      simp only [slotFreeSource, List.map_map, List.flatMap_map, Slot.block]
      rfl
    | dict block items =>
      refine ⟨block, rfl, ?_⟩
      rw [hBlocks]
      simp only [slotFreeSource, List.map_map, List.flatMap_map, Slot.block]
      rfl
    | _ => cases h
  child s h := by
    constructor
    · cases s with
      | array block items => simp [Slot.nesting, Slot.object, Object.nesting]
      | dict block items => simp [Slot.nesting, Slot.object, Object.nesting]
      | _ => cases h
    · intro child hChild
      obtain ⟨m, hMem, rfl⟩ := List.mem_map.mp hChild
      exact Slot.nesting_kid (List.mem_map_of_mem hMem)

theorem freeSlot_eq {s : Slot} (h : s.nesting ≤ kMarshalDepthCap) : freeSlot s = .ok s.blocks := by
  rw [freeSlot, Rebuild.Source.run_of_maps (by decide) slotFreeSource_maps s h]

/-- No container has more slots than bytes were left. The blocks are those of the value, or
all are freed; the verdict is that of the codec. -/
structure Decoded.Safe (buf : Bytes) (r : Decoded) : Prop where
  opened : ∀ o ∈ r.opened, o.1 ≤ o.2 ∧ o.2 ≤ buf.length
  allocated : r.allocated.Nodup
  complete : ∀ n, r.status = .ok n → n ≤ buf.length ∧ r.freed = [] ∧
    r.out.blocks.Perm r.allocated
  stopped : ∀ stop, r.status = .error stop → r.freed.Perm r.allocated ∧ r.out = .nil
  verdict : msgpackToObject buf = r.status.map fun n => (r.out.object, n)

theorem Accounted.nodup (h : Accounted buf d) : d.blocks.Nodup := by
  rw [h.fresh]
  exact List.nodup_range

theorem safe_complete (h : Accounted buf d)
    (hVerdict : msgpackToObject buf = .ok (d.out.object, d.pos)) :
    Decoded.Safe buf ⟨.ok d.pos, d.out, d.blocks, [], d.opened⟩ where
  opened := h.opened
  allocated := h.nodup
  complete := by
    rintro n ⟨⟩
    exact ⟨h.pos, rfl, h.blocks⟩
  stopped := nofun
  verdict := hVerdict

theorem safe_stopped {stop : MsgpackStop} (h : Accounted buf d)
    (hVerdict : msgpackToObject buf = .error stop) :
    Decoded.Safe buf ⟨.error stop, .nil, d.blocks, d.out.blocks, d.opened⟩ where
  opened := h.opened
  allocated := h.nodup
  complete := nofun
  stopped _ _ := ⟨h.blocks, rfl⟩
  verdict := hVerdict

def codecResult (buf : Bytes) : MpVerdict → Except MsgpackStop (Object × Nat)
  | .done v rest => .ok (v, buf.length - rest.length)
  | .halted stop _ _ => .error stop

theorem mpLeave_safe {r : MpVerdict} {step : Step} (h : Ends buf r step)
    (hVerdict : msgpackToObject buf = codecResult buf r) :
    ∃ result, step.bind mpLeave = .ok result ∧ result.Safe buf := by
  cases r with
  | done v rest =>
    obtain ⟨d, rfl, hAccount, rfl, hPos⟩ := h
    rw [codecResult, ← hPos] at hVerdict
    exact ⟨_, rfl, safe_complete hAccount hVerdict⟩
  | halted stop frames s =>
    obtain ⟨d, rfl, hAccount⟩ := h
    refine ⟨_, ?_, safe_stopped hAccount hVerdict⟩
    change (freeSlot d.out).bind _ = _
    rw [freeSlot_eq hAccount.nesting]
    rfl

theorem accounted_start (buf : Bytes) : Accounted buf ⟨0, .nil, [], [], []⟩ where
  pos := Nat.zero_le _
  blocks := .nil
  fresh := rfl
  nesting := Nat.zero_le _
  stack := Nat.zero_le _
  opened := nofun

theorem mpLoop_empty {fuel : Nat} (h : d.stack = []) : mpLoop buf (fuel + 1) d = .ok (.ok (), d) := by
  rw [mpLoop, h]
  rfl

/-- Whatever the bytes, the decoder ends without a fault: no read outside the buffer, no
subtraction that wraps, no frame that has no room, no store outside a container. -/
theorem msgpackToObjectIn_safe (buf : Bytes) :
    ∃ r, msgpackToObjectIn buf = .ok r ∧ r.Safe buf := by
  have hReads := mpReadIntoAt_ok (accounted_start buf) (.here .nil [])
  have hBelow := mpReadInto_below buf 0
  have hSound := mpReadInto_sound buf 0
  change ReadsAt buf _ [] [] (mpReadInto buf 0) _ at hReads
  unfold msgpackToObjectIn
  cases hRead : mpReadInto buf 0 with
  | error stop =>
    rw [hRead] at hReads
    obtain ⟨d, hStep, hAccount⟩ := hReads
    rw [hStep]
    have hVerdict : msgpackToObject buf = codecResult buf (.halted stop [] []) := by
      rw [msgpackToObject, hRead]
      rfl
    have hEnds : Ends buf (.halted stop [] []) (.ok (.error stop, d)) := ⟨d, rfl, hAccount⟩
    exact mpLeave_safe hEnds hVerdict
  | ok result =>
    obtain ⟨node, rest⟩ := result
    rw [hRead] at hReads hSound
    obtain ⟨head, hSplit, -⟩ := hSound
    have hLess := hBelow node rest hRead
    cases node with
    | value v =>
      obtain ⟨d, y, hStep, hAccount, hPos, hStack, hSpine, rfl⟩ := hReads
      rw [hStep]
      change ∃ r, (mpLoop buf (2 * buf.length + 1 + 1) d).bind mpLeave = _ ∧ _
      rw [mpLoop_empty hStack]
      have hVerdict : msgpackToObject buf = codecResult buf (.done y.object rest) := by
        rw [msgpackToObject, hRead]
        rfl
      cases hSpine
      have hEnds : Ends buf (.done d.out.object rest) (.ok (.ok (), d)) :=
        ⟨d, rfl, hAccount, rfl, hPos⟩
      exact mpLeave_safe hEnds hVerdict
    | container frame =>
      obtain ⟨d, hStep, hAccount, hPos, hStack, hOnTop⟩ := hReads
      rw [hStep]
      have hWhole : buf.drop 0 = head ++ rest := hSplit
      have hRest : buf.drop d.pos = rest := hPos.symm ▸ rest_eq hWhole
      have hEnds := mpLoop_ends buf (mpFuel buf) d [] frame hAccount hOnTop (by
        unfold turns mpFuel
        rw [hStack, hPos]
        change _ + 1 < _
        omega)
      refine mpLeave_safe hEnds ?_
      rw [msgpackToObject, hRead, hRest]
      rfl

end Mua.Msgpack
