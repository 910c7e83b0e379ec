import Mua.Memory
import Mua.Lib.Block
import Mua.Lib.Run

/-! # The buffer of memory.c in its block

`RawBuf` has the fields of the code's `Buf`: a block on the heap and three `size_t`.
Its arithmetic is that of the machine and wraps. `Shaped` is what the fields keep to;
under it the raw buffer does what the capped buffer of a `Buf max` does.
-/

namespace Mua.Memory

abbrev SizeT := UInt64

abbrev Source := Nat → Byte

def Source.bytes (src : Source) (len : SizeT) : Bytes := (List.range len.toNat).map src

@[simp] theorem Source.length_bytes (src : Source) (len : SizeT) :
    (src.bytes len).length = len.toNat := by
  rw [bytes, List.length_map, List.length_range]

structure RawBuf where
  /-- The block, with nothing in it for `NULL`. -/
  data : Bytes
  size : SizeT
  cap : SizeT
  max : SizeT
  deriving DecidableEq

inductive Fault
  | abort
  /-- A loop that goes on for more turns than it is given. -/
  | endless
  | astray
  deriving DecidableEq, Repr

/-- The answer of the allocator, should it be asked, and what new memory has in it. -/
structure Heap where
  granted : Bool
  fresh : Source

def xrealloc (heap : Heap) (data : Bytes) (size : SizeT) : Except Fault Bytes :=
  if heap.granted then
    .ok (data.take size.toNat ++ (List.range (size.toNat - data.length)).map heap.fresh)
  else .error .abort

def bufInit (max : SizeT) : RawBuf := ⟨[], 0, 0, max⟩

def growStep (max newCap : SizeT) : SizeT := if newCap > max / 2 then max else newCap * 2

/-- The growth loop, for at most so many looks at its condition. -/
def growLoop (max needed : SizeT) : Nat → SizeT → Option SizeT
  | 0, _ => none
  | looks + 1, newCap =>
    if newCap < needed then growLoop max needed looks (growStep max newCap) else some newCap

/-- Every doubling of a 64-bit number that is not 0 takes the loop closer to its end. -/
def kGrowLooks : Nat := 65

def RawBuf.firstCap (buf : RawBuf) : SizeT := if buf.cap ≠ 0 then buf.cap else 64

/-- The part of `buf_append` that makes room. -/
def bufReserve (heap : Heap) (buf : RawBuf) (needed : SizeT) : Except Fault RawBuf :=
  if needed > buf.cap then
    match growLoop buf.max needed kGrowLooks buf.firstCap with
    | none => .error .endless
    | some newCap => (xrealloc heap buf.data newCap).map fun data => { buf with data, cap := newCap }
  else .ok buf

/-- The copy of `buf_append`, with the room made. -/
def bufStore (bytes : Source) (len needed : SizeT) (buf : RawBuf) : Except Fault (Bool × RawBuf) :=
  match Block.write buf.data buf.size.toNat (bytes.bytes len) with
  | none => .error .astray
  | some data => .ok (true, { buf with data, size := needed })

def bufAppend (heap : Heap) (buf : RawBuf) (bytes : Source) (len : SizeT) :
    Except Fault (Bool × RawBuf) :=
  if len = 0 then .ok (true, buf)
  else if len > buf.max - buf.size then .ok (false, buf)
  else (bufReserve heap buf (buf.size + len)).bind (bufStore bytes len (buf.size + len))

def bufReset (buf : RawBuf) : RawBuf := { buf with size := 0 }

def bufFree (buf : RawBuf) : RawBuf := bufInit buf.max

/-- The loop comes from one capacity to another and ends there, and no product on its way wraps. -/
inductive Grows (max needed : SizeT) : SizeT → SizeT → Prop
  | enough {cap : SizeT} (hEnough : needed ≤ cap) : Grows max needed cap cap
  | clamp {newCap cap : SizeT} (hShort : newCap < needed) (hHalf : max / 2 < newCap)
      (hRest : Grows max needed max cap) : Grows max needed newCap cap
  | double {newCap cap : SizeT} (hShort : newCap < needed) (hHalf : newCap ≤ max / 2)
      (hExact : newCap.toNat * 2 < 2 ^ 64) (hRest : Grows max needed (newCap * 2) cap) :
      Grows max needed newCap cap

variable {max needed newCap cap : SizeT}

theorem le_half_iff : newCap ≤ max / 2 ↔ newCap.toNat * 2 ≤ max.toNat := by
  rw [UInt64.le_iff_toNat_le, UInt64.toNat_div, show (2 : SizeT).toNat = 2 from rfl,
    Nat.le_div_iff_mul_le Nat.two_pos]

theorem toNat_double (hHalf : newCap ≤ max / 2) : (newCap * 2).toNat = newCap.toNat * 2 := by
  have hLe := le_half_iff.mp hHalf
  rw [UInt64.toNat_mul, show (2 : SizeT).toNat = 2 from rfl]
  exact Nat.mod_eq_of_lt (hLe.trans_lt max.toNat_lt)

theorem Grows.enough_le (h : Grows max needed newCap cap) : needed ≤ cap := by
  induction h with
  | enough hEnough => exact hEnough
  | clamp _ _ _ ih => exact ih
  | double _ _ _ _ ih => exact ih

theorem Grows.bounded (h : Grows max needed newCap cap) : cap = newCap ∨ cap ≤ max := by
  induction h with
  | enough => exact .inl rfl
  | clamp _ _ _ ih =>
    right
    rcases ih with rfl | hLe
    · exact UInt64.le_refl _
    · exact hLe
  | double _ hHalf _ _ ih =>
    right
    rcases ih with rfl | hLe
    · rw [UInt64.le_iff_toNat_le, toNat_double hHalf]
      exact le_half_iff.mp hHalf
    · exact hLe

theorem growLoop_grows {looks : Nat} (hMax : needed ≤ max)
    (hLooks : needed.toNat ≤ newCap.toNat * 2 ^ looks) :
    ∃ cap, growLoop max needed (looks + 1) newCap = some cap ∧ Grows max needed newCap cap := by
  induction looks generalizing newCap with
  | zero =>
    have hEnough : needed ≤ newCap := by
      rw [UInt64.le_iff_toNat_le]
      omega
    exact ⟨newCap, if_neg (UInt64.not_lt.mpr hEnough), .enough hEnough⟩
  | succ looks ih =>
    rw [growLoop]
    split
    · rename_i hShort
      rw [growStep]
      split
      · rename_i hHalf
        rw [growLoop, if_neg (UInt64.not_lt.mpr hMax)]
        exact ⟨max, rfl, .clamp hShort hHalf (.enough hMax)⟩
      · rename_i hHalf
        have hHalf := UInt64.not_lt.mp hHalf
        have hDouble := toNat_double hHalf
        have hNext : needed.toNat ≤ (newCap * 2).toNat * 2 ^ looks := by
          rw [hDouble, Nat.mul_assoc, ← Nat.pow_succ']
          exact hLooks
        obtain ⟨cap, hLoop, hGrows⟩ := ih hNext
        have hExact : newCap.toNat * 2 < 2 ^ 64 := (le_half_iff.mp hHalf).trans_lt max.toNat_lt
        exact ⟨cap, hLoop, .double hShort hHalf hExact hGrows⟩
    · rename_i hEnough
      exact ⟨newCap, rfl, .enough (UInt64.not_lt.mp hEnough)⟩

theorem growLoop_ends (hMax : needed ≤ max) (hCap : newCap ≠ 0) :
    ∃ cap, growLoop max needed kGrowLooks newCap = some cap ∧ Grows max needed newCap cap := by
  apply growLoop_grows hMax
  have hPos : newCap.toNat ≠ 0 := fun h => hCap (UInt64.toNat_inj.mp h)
  have hNeeded := needed.toNat_lt
  have hOne : 1 * 2 ^ 64 ≤ newCap.toNat * 2 ^ 64 :=
    Nat.mul_le_mul_right _ (Nat.one_le_iff_ne_zero.mpr hPos)
  omega

structure RawBuf.Shaped (buf : RawBuf) : Prop where
  block : buf.data.length = buf.cap.toNat
  size_le_cap : buf.size ≤ buf.cap
  size_le_max : buf.size ≤ buf.max
  cap_bounded : buf.cap = 0 ∨ buf.cap ≤ buf.max ∨ buf.cap = 64

def RawBuf.contents (buf : RawBuf) : Bytes := buf.data.take buf.size.toNat

theorem RawBuf.contents_prefix (buf : RawBuf) : buf.contents <+: buf.data := List.take_prefix _ _

variable {buf buf' : RawBuf} {bytes : Source} {len : SizeT} {heap : Heap}

theorem bufInit_shaped (max : SizeT) : (bufInit max).Shaped where
  block := rfl
  size_le_cap := UInt64.le_refl _
  size_le_max := UInt64.zero_le
  cap_bounded := .inl rfl

@[simp] theorem bufInit_contents (max : SizeT) : (bufInit max).contents = [] := rfl

theorem bufReset_shaped (h : buf.Shaped) : (bufReset buf).Shaped where
  block := h.block
  size_le_cap := UInt64.zero_le
  size_le_max := UInt64.zero_le
  cap_bounded := h.cap_bounded

@[simp] theorem bufReset_contents (buf : RawBuf) : (bufReset buf).contents = [] := List.take_zero

theorem RawBuf.Shaped.length_contents (h : buf.Shaped) : buf.contents.length = buf.size.toNat := by
  have hSize := UInt64.le_iff_toNat_le.mp h.size_le_cap
  rw [contents, List.length_take, h.block, Nat.min_eq_left hSize]

theorem RawBuf.firstCap_ne_zero (buf : RawBuf) : buf.firstCap ≠ 0 := by
  rw [firstCap]
  split
  · assumption
  · decide

theorem RawBuf.Shaped.refuses_iff (h : buf.Shaped) :
    len > buf.max - buf.size ↔ buf.max.toNat < buf.size.toNat + len.toNat := by
  have hSize := UInt64.le_iff_toNat_le.mp h.size_le_max
  rw [gt_iff_lt, UInt64.lt_iff_toNat_lt, UInt64.toNat_sub_of_le _ _ h.size_le_max]
  omega

theorem toNat_needed (hFits : buf.size.toNat + len.toNat ≤ buf.max.toNat) :
    (buf.size + len).toNat = buf.size.toNat + len.toNat := by
  rw [UInt64.toNat_add]
  exact Nat.mod_eq_of_lt (hFits.trans_lt buf.max.toNat_lt)

theorem xrealloc_keeps {data data' : Bytes} {size : SizeT} (hGrow : data.length ≤ size.toNat)
    (h : xrealloc heap data size = .ok data') : data <+: data' ∧ data'.length = size.toNat := by
  rw [xrealloc] at h
  split at h
  · obtain rfl := Except.ok.inj h
    rw [List.take_of_length_le hGrow]
    refine ⟨List.prefix_append _ _, ?_⟩
    rw [List.length_append, List.length_map, List.length_range]
    omega
  · cases h

/-- With room made, the buffer has its old contents and a block for `needed`. -/
structure Reserved (buf : RawBuf) (needed : SizeT) (buf' : RawBuf) : Prop where
  shaped : buf'.Shaped
  size_eq : buf'.size = buf.size
  max_eq : buf'.max = buf.max
  contents_eq : buf'.contents = buf.contents
  needed_le : needed ≤ buf'.cap

theorem bufReserve_cases (heap : Heap) (h : buf.Shaped) (hMax : needed ≤ buf.max) (hSize : buf.size ≤ needed) :
    (∃ buf', bufReserve heap buf needed = .ok buf' ∧ Reserved buf needed buf') ∨
      bufReserve heap buf needed = .error .abort ∧ buf.cap < needed ∧ heap.granted = false := by
  rw [bufReserve]
  split
  · rename_i hShort
    obtain ⟨cap, hLoop, hGrows⟩ := growLoop_ends hMax buf.firstCap_ne_zero
    have hEnough := hGrows.enough_le
    have hWider : buf.data.length ≤ cap.toNat := by
      rw [h.block]
      have hShort := UInt64.lt_iff_toNat_lt.mp hShort
      have hEnough := UInt64.le_iff_toNat_le.mp hEnough
      omega
    rw [hLoop]
    cases hHeap : xrealloc heap buf.data cap with
    | error fault =>
      right
      have hRefused := hHeap
      rw [xrealloc] at hRefused
      split at hRefused
      · cases hRefused
      · rename_i hGranted
        obtain rfl := Except.error.inj hRefused
        refine ⟨?_, hShort, Bool.eq_false_iff.mpr hGranted⟩
        show (xrealloc heap buf.data cap).map _ = _
        rw [hHeap]
        rfl
    | ok data =>
      left
      obtain ⟨hKept, hLength⟩ := xrealloc_keeps hWider hHeap
      refine ⟨{ buf with data, cap }, ?_, ?_, rfl, rfl, ?_, hEnough⟩
      · show (xrealloc heap buf.data cap).map _ = _
        rw [hHeap]
        rfl
      · constructor
        · exact hLength
        · exact UInt64.le_trans hSize hEnough
        · exact h.size_le_max
        · rcases hGrows.bounded with rfl | hLe
          · show buf.firstCap = 0 ∨ buf.firstCap ≤ buf.max ∨ buf.firstCap = 64
            rw [RawBuf.firstCap]
            split
            · exact h.cap_bounded
            · exact .inr (.inr rfl)
          · exact .inr (.inl hLe)
      · obtain ⟨rest, rfl⟩ := hKept
        apply List.take_append_of_le_length
        rw [h.block]
        exact UInt64.le_iff_toNat_le.mp h.size_le_cap
  · rename_i hRoom
    exact .inl ⟨buf, rfl, h, rfl, rfl, rfl, UInt64.not_lt.mp hRoom⟩

/-- The ways a call of `buf_append` can go. -/
inductive Appends (heap : Heap) (buf : RawBuf) (bytes : Source) (len : SizeT) :
    Except Fault (Bool × RawBuf) → Prop
  | refused (hOver : buf.max.toNat < buf.size.toNat + len.toNat) :
      Appends heap buf bytes len (.ok (false, buf))
  | taken {buf' : RawBuf} (hFits : buf.size.toNat + len.toNat ≤ buf.max.toNat)
      (hShaped : buf'.Shaped) (hMax : buf'.max = buf.max)
      (hContents : buf'.contents = buf.contents ++ bytes.bytes len) :
      Appends heap buf bytes len (.ok (true, buf'))
  | abort (hFits : buf.size.toNat + len.toNat ≤ buf.max.toNat) (hShort : buf.cap < buf.size + len)
      (hHeap : heap.granted = false) : Appends heap buf bytes len (.error .abort)

theorem bufAppend_cases (heap : Heap) (bytes : Source) (len : SizeT) (h : buf.Shaped) :
    Appends heap buf bytes len (bufAppend heap buf bytes len) := by
  rw [bufAppend]
  split
  · rename_i hNone
    subst hNone
    refine .taken ?_ h rfl ?_
    · exact UInt64.le_iff_toNat_le.mp h.size_le_max
    · rw [show bytes.bytes 0 = [] from rfl, List.append_nil]
  split
  · rename_i hOver
    exact .refused (h.refuses_iff.mp hOver)
  rename_i hFits
  have hFits : buf.size.toNat + len.toNat ≤ buf.max.toNat := by
    rw [h.refuses_iff] at hFits
    exact Nat.not_lt.mp hFits
  have hNeeded := toNat_needed hFits
  have hMax : buf.size + len ≤ buf.max := UInt64.le_iff_toNat_le.mpr (hNeeded ▸ hFits)
  have hSize : buf.size ≤ buf.size + len := by
    rw [UInt64.le_iff_toNat_le, hNeeded]
    exact Nat.le_add_right _ _
  rcases bufReserve_cases heap h hMax hSize with ⟨mid, hMid, hReserved⟩ | ⟨hMid, hShort, hHeap⟩
  · have hLength := hReserved.shaped.length_contents
    have hRoom : mid.contents.length + (bytes.bytes len).length ≤ mid.data.length := by
      rw [hLength, Source.length_bytes, hReserved.shaped.block, hReserved.size_eq, ← hNeeded]
      exact UInt64.le_iff_toNat_le.mp hReserved.needed_le
    obtain ⟨data, hWrite, hData, hFront⟩ := Block.write_behind _ mid.contents_prefix hRoom
    rw [hLength] at hWrite
    rw [hMid, Except.bind, bufStore, hWrite]
    refine .taken hFits ⟨?_, ?_, ?_, ?_⟩ hReserved.max_eq ?_
    · exact hData.trans hReserved.shaped.block
    · exact hReserved.needed_le
    · show buf.size + len ≤ mid.max
      rw [hReserved.max_eq]
      exact hMax
    · exact hReserved.shaped.cap_bounded
    · rw [← hReserved.contents_eq, RawBuf.contents, hNeeded]
      obtain ⟨rest, rfl⟩ := hFront
      apply List.take_left'
      rw [List.length_append, hLength, hReserved.size_eq, Source.length_bytes]
  · rw [hMid]
    exact .abort hFits hShort hHeap

inductive BufCall
  | append (heap : Heap) (bytes : Source) (len : SizeT)
  | reset
  | free

/-- A buffer, and the appends it has accepted since it was last emptied. -/
structure BufWorld where
  buf : RawBuf
  accepted : List Bytes

def bufStep (w : BufWorld) : BufCall → Option BufWorld
  | .append heap bytes len =>
    match bufAppend heap w.buf bytes len with
    | .ok (true, buf) => some ⟨buf, w.accepted ++ [bytes.bytes len]⟩
    | .ok (false, buf) => some ⟨buf, w.accepted⟩
    | .error _ => none
  | .reset => some ⟨bufReset w.buf, []⟩
  | .free => some ⟨bufFree w.buf, []⟩

structure BufKept (max : SizeT) (w : BufWorld) : Prop where
  shaped : w.buf.Shaped
  max_eq : w.buf.max = max
  contents_eq : w.buf.contents = w.accepted.flatten

variable {w w' : BufWorld}

theorem bufStep_kept (h : BufKept max w) {call : BufCall} (hStep : bufStep w call = some w') :
    BufKept max w' := by
  cases call with
  | append heap bytes len =>
    rw [bufStep] at hStep
    have hCases := bufAppend_cases heap bytes len h.shaped
    generalize bufAppend heap w.buf bytes len = answer at hCases hStep
    cases hCases with
    | refused =>
      obtain rfl := Option.some.inj hStep
      exact ⟨h.shaped, h.max_eq, h.contents_eq⟩
    | taken _ hShaped hMax hContents =>
      obtain rfl := Option.some.inj hStep
      refine ⟨hShaped, hMax.trans h.max_eq, ?_⟩
      rw [hContents, h.contents_eq, List.flatten_append, List.flatten_singleton]
    | abort => cases hStep
  | reset =>
    obtain rfl := Option.some.inj hStep
    exact ⟨bufReset_shaped h.shaped, h.max_eq, bufReset_contents w.buf⟩
  | free =>
    obtain rfl := Option.some.inj hStep
    exact ⟨bufInit_shaped _, h.max_eq, bufInit_contents _⟩

structure AppendSound (buf : RawBuf) (heap : Heap) (bytes : Source) (len : SizeT) : Prop where
  refuses : bufAppend heap buf bytes len = .ok (false, buf) ↔
    buf.max.toNat < buf.size.toNat + len.toNat
  unchanged : ∀ buf', bufAppend heap buf bytes len = .ok (false, buf') → buf' = buf
  returns : heap.granted = true → ∃ answer, bufAppend heap buf bytes len = .ok answer
  aborts : ∀ fault, bufAppend heap buf bytes len = .error fault → fault = .abort
  grows : buf.size.toNat + len.toNat ≤ buf.max.toNat → buf.cap < buf.size + len →
    ∃ cap, Grows buf.max (buf.size + len) buf.firstCap cap ∧
      growLoop buf.max (buf.size + len) kGrowLooks buf.firstCap = some cap

theorem bufAppend_sound (h : buf.Shaped) : AppendSound buf heap bytes len := by
  have hCases := bufAppend_cases heap bytes len h
  generalize hAnswer : bufAppend heap buf bytes len = answer at hCases
  constructor
  · rw [hAnswer]
    cases hCases with
    | refused hOver => simpa using hOver
    | taken hFits => simpa using hFits
    | abort hFits => simpa using hFits
  · intro buf' hRefused
    obtain rfl := hAnswer.symm.trans hRefused
    cases hCases with
    | refused => rfl
  · intro hHeap
    rw [hAnswer]
    cases hCases with
    | refused => exact ⟨_, rfl⟩
    | taken => exact ⟨_, rfl⟩
    | abort _ _ hNone => rw [hNone] at hHeap; cases hHeap
  · intro fault hFault
    obtain rfl := hAnswer.symm.trans hFault
    cases hCases with
    | abort => rfl
  · intro hFits hShort
    have hMax : buf.size + len ≤ buf.max := by
      rw [UInt64.le_iff_toNat_le, toNat_needed hFits]
      exact hFits
    obtain ⟨cap, hLoop, hGrows⟩ := growLoop_ends hMax buf.firstCap_ne_zero
    exact ⟨cap, hGrows, hLoop⟩

/-- A buffer through any calls: its fields stay in their bounds, it has the bytes of the appends it
accepted, it refuses exactly what would pass its cap, and its growth ends without a product that
wraps. -/
theorem buf_sound (max : SizeT) {calls : List BufCall}
    (hRun : Run.run bufStep ⟨bufInit max, []⟩ calls = some w) :
    w.buf.size ≤ w.buf.cap ∧ w.buf.size ≤ w.buf.max ∧ w.buf.max = max ∧
      (w.buf.cap = 0 ∨ w.buf.cap ≤ w.buf.max ∨ w.buf.cap = 64) ∧
      w.buf.data.length = w.buf.cap.toNat ∧ w.buf.contents = w.accepted.flatten ∧
      ∀ heap bytes len, AppendSound w.buf heap bytes len := by
  have hInit : BufKept max ⟨bufInit max, []⟩ := ⟨bufInit_shaped max, rfl, rfl⟩
  have h := Run.run_invariant (fun s e s' hKept hStep => bufStep_kept hKept hStep) hInit hRun
  exact ⟨h.shaped.size_le_cap, h.shaped.size_le_max, h.max_eq, h.shaped.cap_bounded,
    h.shaped.block, h.contents_eq, fun heap bytes len => bufAppend_sound h.shaped⟩

/-- An append, one too long for what is left, and one after a reset. -/
def bufCalls : List BufCall :=
  [.append ⟨true, fun _ => 7⟩ (fun _ => 1) 4, .append ⟨false, fun _ => 0⟩ (fun _ => 2) 3, .reset,
    .append ⟨false, fun _ => 0⟩ (fun _ => 3) 5]

theorem buf_sound_sample : ∃ w : BufWorld,
    Run.run bufStep ⟨bufInit 6, []⟩ bufCalls = some w ∧ w.buf.cap = 64 ∧
      w.buf.contents = w.accepted.flatten ∧ w.buf.contents = [3, 3, 3, 3, 3] := by
  have hRun : ∃ w : BufWorld, Run.run bufStep ⟨bufInit 6, []⟩ bufCalls = some w ∧
      w.buf.cap = 64 ∧ w.buf.contents = [3, 3, 3, 3, 3] := ⟨_, rfl, rfl, by decide⟩
  obtain ⟨w, hRun, hCap, hContents⟩ := hRun
  obtain ⟨-, -, -, -, -, hAccepted, -⟩ := buf_sound 6 hRun
  exact ⟨w, hRun, hCap, hAccepted, hContents⟩

def RawBuf.view (buf : RawBuf) (h : buf.Shaped) : Buf buf.max.toNat where
  data := buf.contents
  fits := by
    rw [h.length_contents]
    exact UInt64.le_iff_toNat_le.mp h.size_le_max

theorem bufAppend_refines (h : buf.Shaped) (bytes : Source) (len : SizeT) {answer : Bool × RawBuf}
    (hCall : bufAppend heap buf bytes len = .ok answer) :
    (Mua.bufAppend (buf.view h) (bytes.bytes len)).map Buf.data =
      if answer.1 then some answer.2.contents else none := by
  have hCases := bufAppend_cases heap bytes len h
  rw [hCall] at hCases
  cases hCases with
  | refused hOver =>
    have hNone : Mua.bufAppend (buf.view h) (bytes.bytes len) = none := by
      rw [bufAppend_eq_none, Source.length_bytes]
      show buf.max.toNat < buf.contents.length + len.toNat
      rwa [h.length_contents]
    rw [hNone]
    rfl
  | taken hFits hShaped hMax hContents =>
    cases hView : Mua.bufAppend (buf.view h) (bytes.bytes len) with
    | none =>
      rw [bufAppend_eq_none, Source.length_bytes] at hView
      have hView : buf.max.toNat < buf.contents.length + len.toNat := hView
      rw [h.length_contents] at hView
      omega
    | some next =>
      rw [bufAppend_eq_some] at hView
      rw [Option.map_some, hView, hContents]
      rfl

end Mua.Memory
