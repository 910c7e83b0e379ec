import Mua.Lib.Visit
import Mua.Msgpack

/-! # The encoder with its assertions apart

`msgpack_encode` asserts the depth of its stack and the size of each count. Here a
failed assertion says which it was, the assertions on counts can be dropped, as a
release build drops them, and the walk logs the places it writes.
-/

namespace Mua

open Walk

def Object.kids : Object → List Object
  | .array items => items
  | .dict items => items.map (·.2)
  | _ => []

theorem Object.nesting_kid {obj child : Object} (h : child ∈ obj.kids) :
    child.nesting < obj.nesting := by
  cases obj with
  | array items => exact Object.nesting_item h
  | dict items =>
    obtain ⟨member, hMember, rfl⟩ := List.mem_map.mp h
    exact Object.nesting_member hMember
  | _ => cases h

namespace Msgpack

/-- The entry written next, under its key in a map, and the entries after it. -/
def MpEncFrame.entry : MpEncFrame → Option (Option Bytes × Object × MpEncFrame)
  | .array [] | .map [] => none
  | .array (item :: rest) => some (none, item, .array rest)
  | .map ((key, value) :: rest) => some (some key, value, .map rest)

def MpEncFrame.left : MpEncFrame → List Object
  | .array items => items
  | .map items => items.map (·.2)

theorem MpEncFrame.left_of_entry {f rest : MpEncFrame} {key : Option Bytes} {child : Object}
    (h : f.entry = some (key, child, rest)) : f.left = child :: rest.left := by
  cases f with
  | array items =>
    cases items with
    | nil => cases h
    | cons item items =>
      cases h
      rfl
  | map items =>
    cases items with
    | nil => cases h
    | cons member items =>
      cases h
      rfl

theorem MpEncFrame.left_of_none {f : MpEncFrame} (h : f.entry = none) : f.left = [] := by
  cases f with
  | array items =>
    cases items with
    | nil => rfl
    | cons item items => cases h
  | map items =>
    cases items with
    | nil => rfl
    | cons member items => cases h

theorem MpEncFrame.take_eq (f : MpEncFrame) :
    f.take = f.entry.map fun e => (e.1.elim (some []) mpEmitStr, e.2) := by
  cases f with
  | array items => cases items <;> rfl
  | map items => cases items <;> rfl

theorem MpEncFrame.entry_size {f rest : MpEncFrame} {key : Option Bytes} {child : Object}
    (h : f.entry = some (key, child, rest)) : sizeOf child + rest.size < f.size := by
  have hTake := f.take_eq
  rw [h] at hTake
  exact MpEncFrame.take_size hTake

theorem mpEncFrame_left {obj : Object} {frame : MpEncFrame} (h : mpEncFrame obj = some frame) :
    frame.left = obj.kids ∧ 0 < obj.nesting := by
  cases obj with
  | array items =>
    cases h
    exact ⟨rfl, Nat.succ_pos _⟩
  | dict items =>
    cases h
    exact ⟨rfl, Nat.succ_pos _⟩
  | _ => cases h

theorem mpEncFrame_none {obj : Object} (h : mpEncFrame obj = none) : obj.kids = [] := by
  cases obj with
  | array items => cases h
  | dict items => cases h
  | _ => rfl

inductive EncodeAssert
  | count
  | depth
  deriving DecidableEq, Repr

/-- Past the assertion: of a count that is too large only the low bytes are written. -/
def mpPutCount (n : Nat) (fix f16 f32 : Byte) : Bytes :=
  let fixmax := if fix = 0xa0 then 0x1f else 0x0f
  if n ≤ fixmax then [fix ||| UInt8.ofNat n]
  else if n ≤ 0xffff then f16 :: mpPutBe (UInt64.ofNat n) 2
  else f32 :: mpPutBe (UInt64.ofNat n) 4

def emitCount (asserts : Bool) (n : Nat) (fix f16 f32 : Byte) : Except EncodeAssert Bytes :=
  if asserts = true ∧ 0xffffffff < n then .error .count else .ok (mpPutCount n fix f16 f32)

def emitStr (asserts : Bool) (s : Bytes) : Except EncodeAssert Bytes :=
  (emitCount asserts s.length 0xa0 0xda 0xdb).map (· ++ s)

def emitNode (asserts : Bool) : Object → Except EncodeAssert Bytes
  | .nil | .session => .ok [0xc0]
  | .boolean b => .ok [if b then 0xc3 else 0xc2]
  | .integer n => .ok (mpEmitInt n)
  | .float d => .ok (0xcb :: mpPutBe d.bits 8)
  | .string s => emitStr asserts s
  | .array items => emitCount asserts items.length 0x90 0xdc 0xdd
  | .dict items => emitCount asserts items.length 0x80 0xde 0xdf

theorem emitCount_asserts (n : Nat) (fix f16 f32 : Byte) :
    mpEmitCount n fix f16 f32 = (emitCount true n fix f16 f32).toOption := by
  unfold mpEmitCount emitCount mpPutCount
  dsimp only
  by_cases hLarge : 0xffffffff < n
  · rw [if_pos hLarge, if_pos ⟨rfl, hLarge⟩]
    rfl
  · have hFits : ¬(true = true ∧ 0xffffffff < n) := fun h => hLarge h.2
    rw [if_neg hLarge, if_neg hFits, Except.toOption, apply_ite some, apply_ite some]

theorem emitStr_asserts (s : Bytes) : mpEmitStr s = (emitStr true s).toOption := by
  rw [mpEmitStr, emitStr, emitCount_asserts]
  cases emitCount true s.length 0xa0 0xda 0xdb <;> rfl

theorem emitNode_asserts (obj : Object) : mpEmitNode obj = (emitNode true obj).toOption := by
  cases obj with
  | string s => exact emitStr_asserts s
  | array items => exact emitCount_asserts _ _ _ _
  | dict items => exact emitCount_asserts _ _ _ _
  | _ => rfl

theorem emitCount_error {asserts : Bool} {n : Nat} {fix f16 f32 : Byte} {e : EncodeAssert}
    (h : emitCount asserts n fix f16 f32 = .error e) : asserts = true ∧ e = .count := by
  rw [emitCount] at h
  split at h
  · rename_i hLarge
    cases h
    exact ⟨hLarge.1, rfl⟩
  · cases h

theorem emitStr_error {asserts : Bool} {s : Bytes} {e : EncodeAssert}
    (h : emitStr asserts s = .error e) : asserts = true ∧ e = .count := by
  rw [emitStr] at h
  cases hCount : emitCount asserts s.length 0xa0 0xda 0xdb with
  | ok head =>
    rw [hCount] at h
    cases h
  | error e' =>
    rw [hCount] at h
    cases h
    exact emitCount_error hCount

theorem emitNode_error {asserts : Bool} {obj : Object} {e : EncodeAssert}
    (h : emitNode asserts obj = .error e) : asserts = true ∧ e = .count := by
  cases obj with
  | string s => exact emitStr_error h
  | array items => exact emitCount_error h
  | dict items => exact emitCount_error h
  | _ => cases h

def emitEntry (asserts : Bool) (key : Option Bytes) (child : Object) :
    Except EncodeAssert Bytes :=
  (key.elim (.ok []) (emitStr asserts)).bind fun k => (emitNode asserts child).map (k ++ ·)

def encodeMove (asserts : Bool) (depth : Nat) (f : MpEncFrame) (buf : Bytes) :
    Move MpEncFrame Bytes Unit EncodeAssert :=
  match f.entry with
  | none => .pop () buf
  | some (key, child, rest) =>
    match emitEntry asserts key child with
    | .error e => .halt e rest buf
    | .ok bytes =>
      match mpEncFrame child with
      | none => .next rest (buf ++ bytes)
      | some frame =>
        if depth < kMarshalDepthCap then .push rest frame (buf ++ bytes)
        else .halt .depth rest (buf ++ bytes)

theorem emitEntry_error {asserts : Bool} {key : Option Bytes} {child : Object} {e : EncodeAssert}
    (h : emitEntry asserts key child = .error e) : asserts = true ∧ e = .count := by
  rw [emitEntry] at h
  cases hKey : key.elim (.ok []) (emitStr asserts) with
  | error e' =>
    rw [hKey] at h
    cases h
    cases key with
    | none => cases hKey
    | some key => exact emitStr_error hKey
  | ok k =>
    rw [hKey] at h
    cases hNode : emitNode asserts child with
    | error e' =>
      rw [hNode] at h
      cases h
      exact emitNode_error hNode
    | ok node =>
      rw [hNode] at h
      cases h

theorem encodeMove_asserts (depth : Nat) (f : MpEncFrame) (buf : Bytes) :
    mpEncMove depth f buf = Machine.mapMove (fun _ => ()) (encodeMove true depth f buf) := by
  unfold mpEncMove encodeMove
  rw [f.take_eq]
  cases f.entry with
  | none => rfl
  | some entry =>
    obtain ⟨key, child, rest⟩ := entry
    have hKey : key.elim (some []) mpEmitStr =
        (key.elim (.ok []) (emitStr true) : Except EncodeAssert Bytes).toOption := by
      cases key with
      | none => rfl
      | some key => exact emitStr_asserts key
    simp only [Option.map_some, hKey, emitNode_asserts, emitEntry]
    cases key.elim (.ok []) (emitStr true) with
    | error e => rfl
    | ok k =>
      cases emitNode true child with
      | error e => rfl
      | ok node =>
        simp only [Except.bind, Except.map, Except.toOption, ← List.append_assoc]
        cases mpEncFrame child with
        | none => rfl
        | some frame =>
          dsimp only
          split <;> rfl

section Moves

variable {asserts : Bool} {depth : Nat} {f f' frame : MpEncFrame} {buf buf' : Bytes}

theorem encodeMove_pop (h : encodeMove asserts depth f buf = .pop () buf') : f.entry = none := by
  unfold encodeMove at h
  repeat' split at h
  all_goals cases h
  assumption

theorem encodeMove_next (h : encodeMove asserts depth f buf = .next f' buf') :
    ∃ key child, f.entry = some (key, child, f') ∧ mpEncFrame child = none := by
  unfold encodeMove at h
  repeat' split at h
  all_goals cases h
  exact ⟨_, _, ‹_›, ‹_›⟩

theorem encodeMove_push (h : encodeMove asserts depth f buf = .push f' frame buf') :
    ∃ key child, f.entry = some (key, child, f') ∧ mpEncFrame child = some frame := by
  unfold encodeMove at h
  repeat' split at h
  all_goals cases h
  exact ⟨_, _, ‹_›, ‹_›⟩

theorem encodeMove_halt {e : EncodeAssert} (h : encodeMove asserts depth f buf = .halt e f' buf') :
    (asserts = true ∧ e = .count) ∨
      ∃ key child, f.entry = some (key, child, f') ∧ 0 < child.nesting ∧
        kMarshalDepthCap ≤ depth := by
  unfold encodeMove at h
  split at h
  · cases h
  · split at h
    · cases h
      exact .inl (emitEntry_error ‹_›)
    · split at h
      · cases h
      · split at h
        · cases h
        · cases h
          exact .inr ⟨_, _, ‹_›, (mpEncFrame_left ‹_›).2, by omega⟩

end Moves

theorem encodeMove_bound (asserts : Bool) : Bound (encodeMove asserts) (fun f _ => f)
    fun frames _ => (frames.map MpEncFrame.size).sum where
  pop_lt f parent below s v s' _ := by
    have := f.size_pos
    simp only [List.map_cons, List.sum_cons]
    omega
  next_lt f below s f' s' h := by
    obtain ⟨key, child, hEntry, -⟩ := encodeMove_next h
    have := MpEncFrame.entry_size hEntry
    simp only [List.map_cons, List.sum_cons]
    omega
  push_lt f below s f' frame s' h := by
    obtain ⟨key, child, hEntry, hFrame⟩ := encodeMove_push h
    have := MpEncFrame.entry_size hEntry
    have := mpEncFrame_size hFrame
    simp only [List.map_cons, List.sum_cons]
    omega

def encoder (asserts : Bool) : Machine MpEncFrame Bytes Unit EncodeAssert where
  move := encodeMove asserts
  give f _ := f
  bounded := ⟨_, encodeMove_bound asserts⟩

def encodeVisit (asserts : Bool) (obj : Object) : Except EncodeAssert (Bytes × List Place) :=
  (emitNode asserts obj).bind fun node =>
    match mpEncFrame obj with
    | none => .ok (node, [[]])
    | some frame =>
      match (encoder asserts).visiting.run ⟨frame, [], 0⟩ [] (node, [[]]) with
      | .done _ t => .ok t
      | .halted e _ _ => .error e

theorem encodeVisit_asserts (obj : Object) :
    msgpackEncode obj = ((encodeVisit true obj).map (·.1)).toOption := by
  unfold msgpackEncode encodeVisit
  rw [emitNode_asserts]
  cases emitNode true obj with
  | error e => rfl
  | ok node =>
    cases mpEncFrame obj with
    | none => rfl
    | some frame =>
      have hRun : mpEncoder.run frame [] node =
          Machine.mapVerdict (fun _ => ()) ((encoder true).run frame [] node) :=
        Machine.run_mapMove (encoder true) mpEncoder encodeMove_asserts (fun _ _ => rfl) frame [] node
      have hErase := (encoder true).run_visiting ⟨frame, [], 0⟩ [] (node, [[]])
      rw [List.map_nil] at hErase
      simp only [Except.bind, Except.toOption, Option.bind_some]
      rw [hRun, ← hErase]
      cases (encoder true).visiting.run ⟨frame, [], 0⟩ [] (node, [[]]) <;> rfl

theorem encoder_traverses (asserts : Bool) :
    (encoder asserts).Traverses Object.kids MpEncFrame.left where
  pop hMove := MpEncFrame.left_of_none (encodeMove_pop hMove)
  next hMove := by
    obtain ⟨key, child, hEntry, hFrame⟩ := encodeMove_next hMove
    exact ⟨child, MpEncFrame.left_of_entry hEntry, mpEncFrame_none hFrame⟩
  push hMove := by
    obtain ⟨key, child, hEntry, hFrame⟩ := encodeMove_push hMove
    exact ⟨child, _, MpEncFrame.left_of_entry hEntry, (mpEncFrame_left hFrame).1, fun _ => rfl⟩

theorem encoder_halts (asserts : Bool) :
    (encoder asserts).Halts Object.kids MpEncFrame.left Object.nesting kMarshalDepthCap
      fun e => asserts = true ∧ e = .count where
  kid _ _ h := Object.nesting_kid h
  push hMove hLeft := by
    obtain ⟨key, child, hEntry, hFrame⟩ := encodeMove_push hMove
    cases hLeft.symm.trans (MpEncFrame.left_of_entry hEntry)
    exact (mpEncFrame_left hFrame).2
  halt hMove hRoom := by
    rcases encodeMove_halt hMove with hCount | ⟨key, child, hEntry, hPos, hDeep⟩
    · exact hCount
    · have := hRoom child (MpEncFrame.left_of_entry hEntry ▸ List.mem_cons_self)
      omega

theorem encodeVisit_once (asserts : Bool) {obj : Object} (h : obj.nesting ≤ kMarshalDepthCap) :
    match encodeVisit asserts obj with
    | .ok t => EachOnce Object.kids obj t.2
    | .error e => asserts = true ∧ e = .count := by
  unfold encodeVisit
  cases hNode : emitNode asserts obj with
  | error e => exact emitNode_error hNode
  | ok node =>
    simp only [Except.bind]
    cases hFrame : mpEncFrame obj with
    | none => exact eachOnce_leaf (mpEncFrame_none hFrame)
    | some frame =>
      obtain ⟨hLeft, hPos⟩ := mpEncFrame_left hFrame
      have hVisits := (encoder_halts asserts).visits (encoder_traverses asserts) hLeft hPos h node
      dsimp only at hVisits ⊢
      cases hRun : (encoder asserts).visiting.run ⟨frame, [], 0⟩ [] (node, [[]]) with
      | done v t =>
        rw [hRun] at hVisits
        exact hVisits
      | halted e frames t =>
        rw [hRun] at hVisits
        exact hVisits

end Msgpack

end Mua
