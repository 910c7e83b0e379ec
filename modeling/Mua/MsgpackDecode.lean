import Mua.MsgpackRead

/-! # The decoder against the grammar

The stack of `msgpack_to_object` computes the recursive read of the grammar, above
whatever frames it stands on. From this come its three verdicts, and that they do
not change when bytes follow.
-/

namespace Mua.Msgpack

open Walk

abbrev MpVerdict := Verdict MpDecFrame Bytes Object MsgpackStop

/-- The read of one value to its end, with `depth` frames on the stack. -/
inductive ReadsValue (depth : Nat) (buf : Bytes) : MpVerdict → Prop
  | value {v : Object} {rest : Bytes} (h : mpReadInto buf depth = .ok (.value v, rest)) :
    ReadsValue depth buf (.done v rest)
  | container {f : MpDecFrame} {rest : Bytes} {r : MpVerdict}
    (h : mpReadInto buf depth = .ok (.container f, rest))
    (inner : mpDecoder.Reads (depth + 1) f rest r) : ReadsValue depth buf r
  | stop {stop : MsgpackStop} (h : mpReadInto buf depth = .error stop) :
    ReadsValue depth buf (.halted stop [] buf)

def Stops (depth : Nat) (f : MpDecFrame) (buf : Bytes) (stop : MsgpackStop) : Prop :=
  ∃ frames s, mpDecoder.Reads depth f buf (.halted stop frames s)

section

variable {depth : Nat} {f : MpDecFrame} {buf rest : Bytes} {r : MpVerdict}

theorem move_value (depth : Nat) (buf : Bytes) (hFull : f.full = false) (hKey : f.atKey = false) :
    mpDecoder.move depth f buf =
      match mpReadInto buf depth with
      | .ok (.value obj, rest) => .next (f.give obj) rest
      | .ok (.container child, rest) => .push f child rest
      | .error stop => .halt stop f buf := by
  change mpDecMove depth f buf = _
  rw [mpDecMove, hFull, hKey]
  rfl

theorem move_key (depth : Nat) (buf : Bytes) (hFull : f.full = false) (hKey : f.atKey = true) :
    mpDecoder.move depth f buf =
      match mpReadKey buf with
      | .ok (key, rest) => .next (f.setKey key) rest
      | .error stop => .halt stop f buf := by
  change mpDecMove depth f buf = _
  rw [mpDecMove, hFull, hKey]
  rfl

theorem reads_full (h : f.full = true) : mpDecoder.Reads depth f buf (.done f.object buf) := by
  apply Machine.Reads.pop
  change mpDecMove depth f buf = _
  rw [mpDecMove, h]
  rfl

theorem reads_value {v : Object} (hFull : f.full = false) (hKey : f.atKey = false)
    (hValue : ReadsValue depth buf (.done v rest)) (hRest : mpDecoder.Reads depth (f.give v) rest r) :
    mpDecoder.Reads depth f buf r := by
  have hMove := move_value depth buf hFull hKey
  cases hValue with
  | value h =>
    rw [h] at hMove
    exact .next hMove hRest
  | container h inner =>
    rw [h] at hMove
    exact .push hMove inner hRest

theorem stops_value {stop : MsgpackStop} {frames : List MpDecFrame} {s : Bytes}
    (hFull : f.full = false) (hKey : f.atKey = false)
    (hValue : ReadsValue depth buf (.halted stop frames s)) : Stops depth f buf stop := by
  have hMove := move_value depth buf hFull hKey
  cases hValue with
  | container h inner =>
    rw [h] at hMove
    exact ⟨_, _, .inside hMove inner⟩
  | stop h =>
    rw [h] at hMove
    exact ⟨_, _, .halt hMove⟩

theorem reads_key {key : Bytes} (hFull : f.full = false) (hKey : f.atKey = true)
    (h : mpReadKey buf = .ok (key, rest)) (hRest : mpDecoder.Reads depth (f.setKey key) rest r) :
    mpDecoder.Reads depth f buf r := by
  have hMove := move_key depth buf hFull hKey
  rw [h] at hMove
  exact .next hMove hRest

theorem stops_key {stop : MsgpackStop} (hFull : f.full = false) (hKey : f.atKey = true)
    (h : mpReadKey buf = .error stop) : Stops depth f buf stop := by
  have hMove := move_key depth buf hFull hKey
  rw [h] at hMove
  exact ⟨_, _, .halt hMove⟩

theorem Stops.next {f' : MpDecFrame} {stop : MsgpackStop} (h : Stops depth f' rest stop)
    (hReads : ∀ r, mpDecoder.Reads depth f' rest r → mpDecoder.Reads depth f buf r) :
    Stops depth f buf stop := by
  obtain ⟨frames, s, h⟩ := h
  exact ⟨frames, s, hReads _ h⟩

end

/-- How frames of one kind are filled: an element is read in one go, or faults, or the
buffer ends in it. -/
structure Filling {α : Type} (depth : Nat) (frame : Nat → List α → MpDecFrame)
    (object : List α → Object) (Element : α → Bytes → Prop) (Fault : Bytes → Error → Prop) :
    Prop where
  full : ∀ n done buf, n ≤ done.length →
    mpDecoder.Reads depth (frame n done) buf (.done (object done) buf)
  take : ∀ n done a b rest r, done.length < n → Element a b →
    mpDecoder.Reads depth (frame n (done ++ [a])) rest r →
    mpDecoder.Reads depth (frame n done) (b ++ rest) r
  fault : ∀ n done buf err, done.length < n → Fault buf err →
    Stops depth (frame n done) buf (.error err)
  sound : ∀ n done buf, done.length < n → (∃ a b rest, buf = b ++ rest ∧ Element a b) ∨
    ∃ stop, Stops depth (frame n done) buf stop ∧ ∀ err, stop = .error err → Fault buf err

namespace Filling

variable {α : Type} {depth : Nat} {frame : Nat → List α → MpDecFrame}
  {object : List α → Object} {Element : α → Bytes → Prop} {Fault : Bytes → Error → Prop}

theorem skip (h : Filling depth frame object Element Fault) {items : List α} {chunks : List Bytes}
    (hItems : List.Forall₂ Element items chunks) {n : Nat} (done : List α) {rest : Bytes}
    {r : MpVerdict} (hLen : done.length + items.length ≤ n)
    (hRest : mpDecoder.Reads depth (frame n (done ++ items)) rest r) :
    mpDecoder.Reads depth (frame n done) (chunks.flatten ++ rest) r := by
  induction hItems generalizing done with
  | nil => simpa using hRest
  | cons hItem hItems ih =>
    rw [List.length_cons] at hLen
    rw [List.flatten_cons, List.append_assoc]
    refine h.take n done _ _ _ r (by omega) hItem (ih _ ?_ ?_)
    · rw [List.length_append, List.length_singleton]
      omega
    · rwa [List.append_assoc, List.singleton_append]

/-- Filling ends: with every element, at a fault, or at the end of the buffer. -/
theorem ends (h : Filling depth frame object Element Fault) (k : Nat) (done : List α)
    (buf : Bytes) :
    (∃ items chunks rest, items.length = k ∧ List.Forall₂ Element items chunks ∧
      buf = chunks.flatten ++ rest ∧
      mpDecoder.Reads depth (frame (done.length + k) done) buf
        (.done (object (done ++ items)) rest)) ∨
    ∃ stop, Stops depth (frame (done.length + k) done) buf stop ∧
      ∀ err, stop = .error err → ∃ items chunks rest, items.length < k ∧
        List.Forall₂ Element items chunks ∧ buf = chunks.flatten ++ rest ∧ Fault rest err := by
  induction k generalizing done buf with
  | zero =>
    refine .inl ⟨[], [], buf, rfl, .nil, rfl, ?_⟩
    rw [List.append_nil]
    exact h.full _ done buf (Nat.le_refl _)
  | succ k ih =>
    have hMore : done.length < done.length + (k + 1) := by omega
    rcases h.sound _ done buf hMore with ⟨a, b, rest, rfl, hElement⟩ | ⟨stop, hStops, hFault⟩
    · have hLen : (done ++ [a]).length + k = done.length + (k + 1) := by
        rw [List.length_append, List.length_singleton]
        omega
      have hTake := fun r => h.take (done.length + (k + 1)) done a b rest r hMore hElement
      have hNext := ih (done ++ [a]) rest
      rw [hLen] at hNext
      rcases hNext with ⟨items, chunks, rest', hCount, hItems, rfl, hReads⟩ | ⟨stop, hStops, hFault⟩
      · refine .inl ⟨a :: items, b :: chunks, rest', by simp [hCount], .cons hElement hItems, ?_, ?_⟩
        · rw [List.flatten_cons, List.append_assoc]
        · rw [List.append_cons]
          exact hTake _ hReads
      · refine .inr ⟨stop, hStops.next hTake, ?_⟩
        intro err hErr
        obtain ⟨items, chunks, rest', hCount, hItems, hRest, hAt⟩ := hFault err hErr
        subst hRest
        refine ⟨a :: items, b :: chunks, rest', ?_, .cons hElement hItems, ?_, hAt⟩
        · rw [List.length_cons]
          omega
        · rw [List.flatten_cons, List.append_assoc]
    · refine .inr ⟨stop, hStops, ?_⟩
      intro err hErr
      exact ⟨[], [], buf, Nat.succ_pos k, .nil, rfl, hFault err hErr⟩

end Filling

/-- A read of a value with `depth` frames on the stack is that of the grammar. -/
structure Faithful (room depth : Nat) : Prop where
  value : ∀ v b rest, Encodes room v b → ReadsValue depth (b ++ rest) (.done v rest)
  fault : ∀ buf err, Faults room buf err →
    ∃ frames s, ReadsValue depth buf (.halted (.error err) frames s)
  sound : ∀ buf, (∃ v b rest, buf = b ++ rest ∧ Encodes room v b) ∨
    ∃ stop frames s, ReadsValue depth buf (.halted stop frames s) ∧
      ∀ err, stop = .error err → Faults room buf err

def arrayFrame (n : Nat) (done : List Object) : MpDecFrame := .array n done

def mapFrame (n : Nat) (done : List (Bytes × Object)) : MpDecFrame := .map n done none

theorem array_filling {room depth : Nat} (h : Faithful room depth) :
    Filling depth arrayFrame .array (Encodes room) (Faults room) where
  full n done buf hFull := reads_full (decide_eq_true hFull)
  take n done a b rest r hMore hItem hRest := by
    have hFull : (arrayFrame n done).full = false := decide_eq_false (Nat.not_le_of_lt hMore)
    exact reads_value hFull rfl (h.value a b rest hItem) hRest
  fault n done buf err hMore hFault := by
    have hFull : (arrayFrame n done).full = false := decide_eq_false (Nat.not_le_of_lt hMore)
    obtain ⟨frames, s, hValue⟩ := h.fault buf err hFault
    exact stops_value hFull rfl hValue
  sound n done buf hMore := by
    have hFull : (arrayFrame n done).full = false := decide_eq_false (Nat.not_le_of_lt hMore)
    refine (h.sound buf).imp_right ?_
    rintro ⟨stop, frames, s, hValue, hFault⟩
    exact ⟨stop, stops_value hFull rfl hValue, hFault⟩

/-- What goes wrong with a pair: its key, or the value after it. -/
def PairFaults (room : Nat) (buf : Bytes) (err : Error) : Prop :=
  NotKey buf err ∨
    ∃ key k rest, buf = k ++ rest ∧ strFamily.Blob key k ∧ Faults room rest err

theorem PairFaults.ofKey {room : Nat} {b : Byte} (rest : Bytes) (h : NoKeyStarts b) :
    PairFaults room (b :: rest) mapKeyNotString := .inl ⟨rfl, b, rest, rfl, h⟩

theorem PairFaults.ofValue {room : Nat} {key k rest : Bytes} {err : Error}
    (hKey : strFamily.Blob key k) (h : Faults room rest err) : PairFaults room (k ++ rest) err :=
  .inr ⟨key, k, rest, rfl, hKey, h⟩

theorem map_filling {room depth : Nat} (h : Faithful room depth) :
    Filling depth mapFrame .dict (Pair (Encodes room)) (PairFaults room) where
  full n done buf hFull := reads_full (decide_eq_true hFull)
  take n done a b rest r hMore hPair hRest := by
    have hFull : (mapFrame n done).full = false := decide_eq_false (Nat.not_le_of_lt hMore)
    obtain ⟨hKey, hValue⟩ := hPair
    rw [List.append_assoc]
    refine reads_key hFull rfl (key_read hKey _) ?_
    exact reads_value hFull rfl (h.value _ _ rest hValue) hRest
  fault n done buf err hMore hFault := by
    have hFull : (mapFrame n done).full = false := decide_eq_false (Nat.not_le_of_lt hMore)
    rcases hFault with ⟨rfl, b, rest, rfl, hStart⟩ | ⟨key, k, rest, rfl, hKey, hFault⟩
    · exact stops_key hFull rfl (noKey_read hStart rest)
    · obtain ⟨frames, s, hValue⟩ := h.fault rest err hFault
      have hStops : Stops depth (.map n done (some key)) rest (.error err) :=
        stops_value hFull rfl hValue
      exact hStops.next fun r hReads => reads_key hFull rfl (key_read hKey rest) hReads
  sound n done buf hMore := by
    have hFull : (mapFrame n done).full = false := decide_eq_false (Nat.not_le_of_lt hMore)
    have hKey := mpReadKey_sound buf
    cases hRead : mpReadKey buf with
    | error stop =>
      rw [hRead] at hKey
      refine .inr ⟨stop, stops_key hFull rfl hRead, ?_⟩
      rintro err rfl
      exact .inl hKey
    | ok result =>
      obtain ⟨key, rest⟩ := result
      rw [hRead] at hKey
      obtain ⟨k, rfl, hBlob⟩ := hKey
      rcases h.sound rest with ⟨v, b, rest', rfl, hValue⟩ | ⟨stop, frames, s, hValue, hFault⟩
      · refine .inl ⟨(key, v), k ++ b, rest', ?_, .mk hBlob hValue⟩
        rw [List.append_assoc]
      · have hStops : Stops depth (.map n done (some key)) rest stop :=
          stops_value hFull rfl hValue
        refine .inr ⟨stop, hStops.next fun r hReads => reads_key hFull rfl hRead hReads, ?_⟩
        intro err hErr
        exact .inr ⟨key, k, rest, rfl, hBlob, hFault err hErr⟩

theorem Encodes.ne_nil {room : Nat} {v : Object} {b : Bytes} (h : Encodes room v b) : b ≠ [] := by
  have hScalar : ∀ {v}, Scalar v b → b ≠ [] := by
    rintro v h rfl
    cases scalar_read h [] 0
  cases room with
  | zero => exact hScalar h
  | succ room =>
    rcases h with h | h
    · exact hScalar h
    · cases h with
      | array hHead hItems => exact List.append_ne_nil_of_left_ne_nil hHead.ne_nil _
      | dict hHead hItems => exact List.append_ne_nil_of_left_ne_nil hHead.ne_nil _

theorem length_le_flatten {α : Type} {Element : α → Bytes → Prop}
    (hElement : ∀ a b, Element a b → b ≠ []) {items : List α} {chunks : List Bytes}
    (h : List.Forall₂ Element items chunks) : items.length ≤ chunks.flatten.length := by
  induction h with
  | nil => exact Nat.le_refl _
  | cons hItem hItems ih =>
    have := List.length_pos_of_ne_nil (hElement _ _ hItem)
    rw [List.length_cons, List.flatten_cons, List.length_append]
    omega

theorem Pair.ne_nil {room : Nat} {pair : Bytes × Object} {b : Bytes}
    (h : Pair (Encodes room) pair b) : b ≠ [] := by
  obtain ⟨hKey, hValue⟩ := h
  exact List.append_ne_nil_of_right_ne_nil _ hValue.ne_nil

theorem Deep.faults {depth : Nat} {buf : Bytes} {err : Error} (h : Deep depth buf err) :
    Faults 0 buf err := by
  obtain ⟨-, rfl, isMap, n, head, rest, rfl, hHead, hFits⟩ := h
  cases isMap with
  | true => exact .deep (.inr hHead) hFits
  | false => exact .deep (.inl hHead) hFits

theorem faithful_zero {depth : Nat} (hDepth : depth = kMarshalDepthCap) : Faithful 0 depth where
  value v b rest h := .value (scalar_read h rest depth)
  fault buf err h := by
    have hDeep : ∀ isMap {n head rest}, (familyOf isMap).Head n head → n ≤ rest.length →
        ∃ frames s, ReadsValue depth (head ++ rest)
          (.halted (.error msgpackNestingExceeded) frames s) := by
      intro isMap n head rest hHead hFits
      refine ⟨[], head ++ rest, .stop ?_⟩
      rw [head_read hHead hFits, if_pos (Nat.le_of_eq hDepth.symm)]
    cases h with
    | start rest h => exact ⟨_, _, .stop (noValue_read h rest depth)⟩
    | deep hHead hFits =>
      rcases hHead with hHead | hHead
      · exact hDeep false hHead hFits
      · exact hDeep true hHead hFits
  sound buf := by
    have hSound := mpReadInto_sound buf depth
    cases hRead : mpReadInto buf depth with
    | error stop =>
      rw [hRead] at hSound
      refine .inr ⟨stop, [], buf, .stop hRead, ?_⟩
      rintro err rfl
      rcases hSound with ⟨b, rest, rfl, hStart, rfl⟩ | hDeep
      · exact .start rest hStart
      · exact hDeep.faults
    | ok result =>
      obtain ⟨node, rest⟩ := result
      rw [hRead] at hSound
      obtain ⟨b, rfl, ⟨v, rfl, hScalar⟩ | ⟨isMap, n, hHead, hFits, hRoom, hNode⟩⟩ := hSound
      · exact .inl ⟨v, b, rest, rfl, hScalar⟩
      · omega

section

variable {room depth : Nat} (hDepth : depth < kMarshalDepthCap)

include hDepth

theorem open_read (isMap : Bool) {n : Nat} {head rest : Bytes}
    (hHead : (familyOf isMap).Head n head) (hFits : n ≤ rest.length) :
    mpReadInto (head ++ rest) depth = .ok (.container (frameOf isMap n), rest) :=
  (head_read hHead hFits depth).trans (if_neg (Nat.not_le_of_lt hDepth))

theorem container_value (h : Faithful room (depth + 1)) {v : Object} {b : Bytes}
    (hContainer : Container (Encodes room) v b) (rest : Bytes) :
    ReadsValue depth (b ++ rest) (.done v rest) := by
  cases hContainer with
  | array hHead hItems =>
    have hLen := length_le_flatten (fun _ _ => Encodes.ne_nil) hItems
    rw [List.append_assoc]
    refine .container (open_read hDepth false hHead ?_) ?_
    · rw [List.length_append]
      omega
    · exact (array_filling h).skip hItems [] (by simp)
        ((array_filling h).full _ _ rest (by simp))
  | dict hHead hItems =>
    have hLen := length_le_flatten (fun _ _ => Pair.ne_nil) hItems
    rw [List.append_assoc]
    refine .container (open_read hDepth true hHead ?_) ?_
    · rw [List.length_append]
      omega
    · exact (map_filling h).skip hItems [] (by simp)
        ((map_filling h).full _ _ rest (by simp))

theorem stops_container (isMap : Bool) {n : Nat} {head rest : Bytes} {stop : MsgpackStop}
    (hHead : (familyOf isMap).Head n head) (hFits : n ≤ rest.length)
    (h : Stops (depth + 1) (frameOf isMap n) rest stop) :
    ∃ frames s, ReadsValue depth (head ++ rest) (.halted stop frames s) := by
  obtain ⟨frames, s, h⟩ := h
  exact ⟨frames, s, .container (open_read hDepth isMap hHead hFits) h⟩

theorem container_fault (h : Faithful room (depth + 1)) {buf : Bytes} {err : Error}
    (hFault : Faults (room + 1) buf err) :
    ∃ frames s, ReadsValue depth buf (.halted (.error err) frames s) := by
  cases hFault with
  | start rest hStart => exact ⟨_, _, .stop (noValue_read hStart rest depth)⟩
  | item hHead hFits hItems hMore hFault =>
    refine stops_container hDepth false hHead hFits ?_
    refine ((array_filling h).fault _ _ _ _ hMore hFault).next fun r hReads => ?_
    exact (array_filling h).skip hItems [] (by simp; omega) hReads
  | key hHead hFits hItems hMore hKey =>
    rename_i rest _ _ _
    refine stops_container hDepth true hHead hFits ?_
    have hPair : PairFaults room _ _ := .ofKey rest hKey
    refine ((map_filling h).fault _ _ _ _ hMore hPair).next fun r hReads => ?_
    exact (map_filling h).skip hItems [] (by simp; omega) hReads
  | value hHead hFits hItems hMore hKey hFault =>
    refine stops_container hDepth true hHead hFits ?_
    have hPair : PairFaults room _ _ := .ofValue hKey hFault
    refine ((map_filling h).fault _ _ _ _ hMore hPair).next fun r hReads => ?_
    exact (map_filling h).skip hItems [] (by simp; omega) hReads

theorem container_sound (h : Faithful room (depth + 1)) (buf : Bytes) :
    (∃ v b rest, buf = b ++ rest ∧ Encodes (room + 1) v b) ∨
    ∃ stop frames s, ReadsValue depth buf (.halted stop frames s) ∧
      ∀ err, stop = .error err → Faults (room + 1) buf err := by
  have hSound := mpReadInto_sound buf depth
  cases hRead : mpReadInto buf depth with
  | error stop =>
    rw [hRead] at hSound
    refine .inr ⟨stop, [], buf, .stop hRead, ?_⟩
    rintro err rfl
    rcases hSound with ⟨b, rest, rfl, hStart, rfl⟩ | ⟨hDeep, -⟩
    · exact .start rest hStart
    · omega
  | ok result =>
    obtain ⟨node, rest⟩ := result
    rw [hRead] at hSound
    obtain ⟨head, rfl, ⟨v, rfl, hScalar⟩ | ⟨isMap, n, hHead, hFits, -, rfl⟩⟩ := hSound
    · exact .inl ⟨v, head, rest, rfl, .inl hScalar⟩
    · cases isMap with
      | false =>
        rcases (array_filling h).ends n [] rest with
          ⟨items, chunks, rest', rfl, hItems, rfl, -⟩ | ⟨stop, hStops, hFault⟩
        · refine .inl ⟨.array items, head ++ chunks.flatten, rest', ?_, .inr (.array hHead hItems)⟩
          rw [List.append_assoc]
        · rw [List.length_nil, Nat.zero_add] at hStops
          obtain ⟨frames, s, hReads⟩ := stops_container hDepth _ hHead hFits hStops
          refine .inr ⟨stop, frames, s, hReads, ?_⟩
          intro err hErr
          obtain ⟨items, chunks, rest', hMore, hItems, rfl, hAt⟩ := hFault err hErr
          exact .item hHead hFits hItems hMore hAt
      | true =>
        rcases (map_filling h).ends n [] rest with
          ⟨items, chunks, rest', rfl, hItems, rfl, -⟩ | ⟨stop, hStops, hFault⟩
        · refine .inl ⟨.dict items, head ++ chunks.flatten, rest', ?_, .inr (.dict hHead hItems)⟩
          rw [List.append_assoc]
        · rw [List.length_nil, Nat.zero_add] at hStops
          obtain ⟨frames, s, hReads⟩ := stops_container hDepth _ hHead hFits hStops
          refine .inr ⟨stop, frames, s, hReads, ?_⟩
          intro err hErr
          obtain ⟨items, chunks, rest', hMore, hItems, rfl, hAt⟩ := hFault err hErr
          rcases hAt with ⟨rfl, b, tl, rfl, hKey⟩ | ⟨key, k, tl, rfl, hKey, hAt⟩
          · exact .key hHead hFits hItems hMore hKey
          · exact .value hHead hFits hItems hMore hKey hAt

end

theorem faithful (room : Nat) (depth : Nat) (h : depth + room = kMarshalDepthCap) :
    Faithful room depth := by
  induction room generalizing depth with
  | zero => exact faithful_zero h
  | succ room ih =>
    have hDepth : depth < kMarshalDepthCap := by omega
    have hInner : Faithful room (depth + 1) := ih (depth + 1) (by omega)
    constructor
    · intro v b rest hEnc
      rcases hEnc with hScalar | hContainer
      · exact .value (scalar_read hScalar rest depth)
      · exact container_value hDepth hInner hContainer rest
    · intro buf err hFault
      exact container_fault hDepth hInner hFault
    · intro buf
      exact container_sound hDepth hInner buf

theorem msgpackToObject_of_reads {buf : Bytes} {r : MpVerdict} (h : ReadsValue 0 buf r) :
    msgpackToObject buf =
      match r with
      | .done v rest => .ok (v, buf.length - rest.length)
      | .halted stop _ _ => .error stop := by
  unfold msgpackToObject
  cases h with
  | value h => rw [h]
  | container h inner =>
    rw [h]
    dsimp only
    rw [Machine.run_root inner]
    cases r <;> rfl
  | stop h => rw [h]

theorem decoded_of_encodes {v : Object} {b : Bytes} (h : Encodes kMarshalDepthCap v b)
    (rest : Bytes) : msgpackToObject (b ++ rest) = .ok (v, b.length) := by
  have hReads := (faithful kMarshalDepthCap 0 (Nat.zero_add _)).value v b rest h
  rw [msgpackToObject_of_reads hReads]
  simp

theorem error_of_faults {buf : Bytes} {err : Error} (h : Faults kMarshalDepthCap buf err) :
    msgpackToObject buf = .error (.error err) := by
  obtain ⟨frames, s, hReads⟩ :=
    (faithful kMarshalDepthCap 0 (Nat.zero_add _)).fault buf err h
  exact msgpackToObject_of_reads hReads

theorem decoded_or_stops (buf : Bytes) :
    (∃ v b rest, buf = b ++ rest ∧ Encodes kMarshalDepthCap v b) ∨
    ∃ stop, msgpackToObject buf = .error stop ∧
      ∀ err, stop = .error err → Faults kMarshalDepthCap buf err := by
  refine ((faithful kMarshalDepthCap 0 (Nat.zero_add _)).sound buf).imp_right ?_
  rintro ⟨stop, frames, s, hReads, hFault⟩
  exact ⟨stop, msgpackToObject_of_reads hReads, hFault⟩

theorem ok_iff {buf : Bytes} {v : Object} {n : Nat} :
    msgpackToObject buf = .ok (v, n) ↔
      n ≤ buf.length ∧ Encodes kMarshalDepthCap v (buf.take n) := by
  constructor
  · intro h
    rcases decoded_or_stops buf with ⟨v', b, rest, rfl, hEnc⟩ | ⟨stop, hStop, -⟩
    · rw [decoded_of_encodes hEnc rest] at h
      cases h
      refine ⟨by simp, ?_⟩
      rwa [List.take_left]
    · cases hStop.symm.trans h
  · rintro ⟨hLen, hEnc⟩
    have h := decoded_of_encodes hEnc (buf.drop n)
    rwa [List.take_append_drop, List.length_take_of_le hLen] at h

theorem error_iff {buf : Bytes} {err : Error} :
    msgpackToObject buf = .error (.error err) ↔ Faults kMarshalDepthCap buf err := by
  constructor
  · intro h
    rcases decoded_or_stops buf with ⟨v, b, rest, rfl, hEnc⟩ | ⟨stop, hStop, hFault⟩
    · cases (decoded_of_encodes hEnc rest).symm.trans h
    · cases hStop.symm.trans h
      exact hFault err rfl
  · exact error_of_faults

/-- The three verdicts, each told apart by the grammar. -/
theorem msgpackToObject_verdict (buf : Bytes) :
    (∀ v n, msgpackToObject buf = .ok (v, n) ↔
      n ≤ buf.length ∧ Encodes kMarshalDepthCap v (buf.take n)) ∧
    ((∃ err, msgpackToObject buf = .error (.error err)) ↔
      ∃ err, Faults kMarshalDepthCap buf err) ∧
    (msgpackToObject buf = .error .incomplete ↔
      (¬ ∃ v n, n ≤ buf.length ∧ Encodes kMarshalDepthCap v (buf.take n)) ∧
        ¬ ∃ err, Faults kMarshalDepthCap buf err) := by
  refine ⟨fun v n => ok_iff, exists_congr fun err => error_iff, ?_⟩
  constructor
  · intro h
    constructor
    · rintro ⟨v, n, hEnc⟩
      cases h.symm.trans (ok_iff.mpr hEnc)
    · rintro ⟨err, hFault⟩
      cases h.symm.trans (error_of_faults hFault)
  · rintro ⟨hNoValue, hNoFault⟩
    match h : msgpackToObject buf with
    | .ok (v, n) => exact absurd ⟨v, n, ok_iff.mp h⟩ hNoValue
    | .error (.error err) => exact absurd ⟨err, error_iff.mp h⟩ hNoFault
    | .error .incomplete => rfl

theorem ok_append {b : Bytes} {v : Object} {n : Nat} (h : msgpackToObject b = .ok (v, n))
    (s : Bytes) : msgpackToObject (b ++ s) = .ok (v, n) := by
  obtain ⟨hLen, hEnc⟩ := ok_iff.mp h
  refine ok_iff.mpr ⟨?_, ?_⟩
  · rw [List.length_append]
    omega
  · rwa [List.take_append_of_le_length hLen]

theorem error_append {b : Bytes} {err : Error} (h : msgpackToObject b = .error (.error err))
    (s : Bytes) : msgpackToObject (b ++ s) = .error (.error err) :=
  error_of_faults ((error_iff.mp h).append s)

/-- A verdict other than Incomplete stands whatever follows, and was Incomplete on less. -/
theorem msgpackToObject_stable (b s : Bytes) :
    (∀ v n, msgpackToObject b = .ok (v, n) → msgpackToObject (b ++ s) = .ok (v, n)) ∧
    (∀ err, msgpackToObject b = .error (.error err) →
      msgpackToObject (b ++ s) = .error (.error err)) ∧
    (∀ v n, msgpackToObject b = .ok (v, n) → ∀ m < n,
      msgpackToObject (b.take m) = .error .incomplete) := by
  refine ⟨fun v n h => ok_append h s, fun err h => error_append h s, ?_⟩
  intro v n h m hm
  match hPrefix : msgpackToObject (b.take m) with
  | .ok (v', n') =>
    have hAll := ok_append hPrefix (b.drop m)
    rw [List.take_append_drop, h] at hAll
    cases hAll
    have hLen := (ok_iff.mp hPrefix).1
    rw [List.length_take] at hLen
    omega
  | .error (.error err) =>
    have hAll := error_append hPrefix (b.drop m)
    rw [List.take_append_drop, h] at hAll
    cases hAll
  | .error .incomplete => rfl

/-- An array of one integer, then another byte, and its header alone. -/
theorem msgpackToObject_stable_sample :
    msgpackToObject [0x91, 0x05, 0xc1] = .ok (.array [.integer 5], 2) ∧
      msgpackToObject [0x91] = .error .incomplete := by
  have hHead : arrayFamily.Head ([Object.integer 5] : List Object).length [0x91] :=
    .fix (b := 0x91) (by decide) (by decide)
  have hItems : List.Forall₂ (Encodes 31) [.integer 5] [[0x05]] :=
    .cons (.inl (.positive (b := 5) (by decide))) .nil
  have hOk : msgpackToObject [0x91, 0x05] = .ok (.array [.integer 5], 2) :=
    decoded_of_encodes (.inr (.array hHead hItems)) []
  exact ⟨(msgpackToObject_stable [0x91, 0x05] [0xc1]).1 _ _ hOk,
    (msgpackToObject_stable [0x91, 0x05] []).2.2 _ _ hOk 1 (by decide)⟩

end Mua.Msgpack
