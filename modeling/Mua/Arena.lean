import Mua.BufGrowth
import Mua.Lib.Linked
import Mathlib.Data.List.Perm.Basic
import Mathlib.Data.List.Range

/-! # The arena of memory.c

Blocks on the heap, linked from the newest back, and an offset into the newest one.
The heap gives a block the bytes that were asked of it, which are not always those
the arena takes it to have: the size asked for is a sum that can wrap.
-/

namespace Mua.Memory

def kArenaBlockSize : SizeT := 4096

def kArenaAlign : SizeT := 16

def sizeofArenaBlock : SizeT := 16

structure ArenaBlock where
  prev : Option Nat
  size : SizeT
  /-- The bytes behind the header that the allocator gave. -/
  room : Nat
  deriving DecidableEq

/-- The live blocks by name; the names from `fresh` on are not yet used. -/
structure ArenaHeap where
  blocks : Nat → Option ArenaBlock := fun _ => none
  fresh : Nat := 0
  frees : List Nat := []

/-- What a call of `arena_alloc` returns, with the size it was asked for. -/
structure Region where
  block : Nat
  offset : SizeT
  size : SizeT
  deriving DecidableEq

/-- An arena, its heap and the regions it has returned since it was last finished. -/
structure ArenaWorld where
  current : Option Nat := none
  offset : SizeT := 0
  heap : ArenaHeap := {}
  regions : List Region := []

def alignUp (size : SizeT) : SizeT := (size + (kArenaAlign - 1)) &&& ~~~(kArenaAlign - 1)

/-- The bytes of data in a block that `xmalloc` gives for `request`. -/
def dataRoom (request : SizeT) : Nat :=
  (if request ≠ 0 then request else 1).toNat - sizeofArenaBlock.toNat

def ArenaWorld.push (w : ArenaWorld) (size : SizeT) : ArenaWorld :=
  let block : ArenaBlock := ⟨w.current, size, dataRoom (sizeofArenaBlock + size)⟩
  { w with
    current := some w.heap.fresh
    offset := 0
    heap.blocks := fun name => if name = w.heap.fresh then some block else w.heap.blocks name
    heap.fresh := w.heap.fresh + 1 }

def blockSizeFor (aligned : SizeT) : SizeT :=
  if aligned > kArenaBlockSize then aligned else kArenaBlockSize

/-- The test for a new block; a block that is gone cannot be looked at. -/
def arenaFull (w : ArenaWorld) (aligned : SizeT) : Except Fault Bool :=
  match w.current with
  | none => .ok true
  | some name =>
    match w.heap.blocks name with
    | none => .error .astray
    | some block => .ok (decide (aligned > block.size - w.offset))

def ArenaWorld.bump (w : ArenaWorld) (name : Nat) (size aligned : SizeT) : ArenaWorld :=
  { w with offset := w.offset + aligned, regions := w.regions ++ [⟨name, w.offset, size⟩] }

def arenaTake (w : ArenaWorld) (size aligned : SizeT) : Except Fault ArenaWorld :=
  match w.current with
  | none => .error .astray
  | some name => .ok (w.bump name size aligned)

/-- `granted` is the answer of the allocator, should it be asked. -/
def arenaAlloc (granted : Bool) (w : ArenaWorld) (size : SizeT) : Except Fault ArenaWorld :=
  let aligned := alignUp size
  if aligned < size then .error .abort
  else
    (arenaFull w aligned).bind fun full =>
      if full then
        if granted then arenaTake (w.push (blockSizeFor aligned)) size aligned else .error .abort
      else arenaTake w size aligned

def ArenaHeap.free (heap : ArenaHeap) (name : Nat) : ArenaHeap :=
  { heap with
    blocks := fun other => if other = name then none else heap.blocks other
    frees := heap.frees ++ [name] }

/-- The loop of `arena_finish`, for at most so many blocks. -/
def finishLoop : Nat → Option Nat → ArenaHeap → Except Fault ArenaHeap
  | _, none, heap => .ok heap
  | 0, some _, _ => .error .endless
  | bound + 1, some name, heap =>
    match heap.blocks name with
    | none => .error .astray
    | some block => finishLoop bound block.prev (heap.free name)

def arenaFinish (w : ArenaWorld) : Except Fault ArenaWorld :=
  (finishLoop w.heap.fresh w.current w.heap).map fun heap =>
    { current := none, offset := 0, heap, regions := [] }

inductive ArenaCall
  | alloc (granted : Bool) (size : SizeT)
  | finish

def arenaStep (w : ArenaWorld) : ArenaCall → Option ArenaWorld
  | .alloc granted size => (arenaAlloc granted w size).toOption
  | .finish => (arenaFinish w).toOption

def Region.Disjoint (r r' : Region) : Prop :=
  r.block ≠ r'.block ∨ r.offset.toNat + r.size.toNat ≤ r'.offset.toNat ∨
    r'.offset.toNat + r'.size.toNat ≤ r.offset.toNat

def Region.Inside (heap : ArenaHeap) (r : Region) : Prop :=
  ∃ block, heap.blocks r.block = some block ∧ r.offset.toNat + r.size.toNat ≤ block.room

/-- Every block there ever was is freed, once, and the arena is as new. -/
structure Finished (w : ArenaWorld) : Prop where
  current : w.current = none
  offset : w.offset = 0
  regions : w.regions = []
  blocks : ∀ name, w.heap.blocks name = none
  once : w.heap.frees.Perm (List.range w.heap.fresh)

structure ArenaSound (w : ArenaWorld) : Prop where
  inside : ∀ r ∈ w.regions, r.Inside w.heap
  aligned : ∀ r ∈ w.regions, 16 ∣ r.offset.toNat
  disjoint : w.regions.Pairwise Region.Disjoint
  offset_le : ∀ name block, w.current = some name → w.heap.blocks name = some block →
    w.offset ≤ block.size
  finishes : ∃ w', arenaFinish w = .ok w' ∧ Finished w'

/-- The requests whose block wraps when the header is added: rounded up they are
`SIZE_MAX - 15`. -/
def Wraps (size : SizeT) : Prop := 2 ^ 64 - 31 ≤ size.toNat ∧ size.toNat ≤ 2 ^ 64 - 16

instance (size : SizeT) : Decidable (Wraps size) := inferInstanceAs (Decidable (_ ∧ _))

variable {w w' : ArenaWorld} {size aligned : SizeT} {granted : Bool}

theorem toNat_andNot (n : SizeT) : (n &&& ~~~15).toNat = n.toNat / 16 * 16 := by
  have hBits : ∀ i, (15#64).getLsbD i = decide (i < 4) := by
    intro i
    rw [show 15#64 = BitVec.ofNat 64 (2 ^ 4 - 1) from rfl, BitVec.getLsbD_ofNat,
      Nat.testBit_two_pow_sub_one]
    grind
  have hShift : n.toBitVec &&& ~~~15#64 = (n.toBitVec >>> 4) <<< 4 := by
    apply BitVec.eq_of_getLsbD_eq
    intro i hi
    rw [BitVec.getLsbD_and, BitVec.getLsbD_not, BitVec.getLsbD_shiftLeft,
      BitVec.getLsbD_ushiftRight, hBits]
    grind
  have hLt := n.toNat_lt
  show (n.toBitVec &&& ~~~15#64).toNat = _
  rw [hShift, BitVec.toNat_shiftLeft, BitVec.toNat_ushiftRight, UInt64.toNat_toBitVec,
    Nat.shiftLeft_eq, Nat.shiftRight_eq_div_pow]
  exact Nat.mod_eq_of_lt (by omega)

theorem toNat_alignUp (h : size.toNat + 15 < 2 ^ 64) :
    (alignUp size).toNat = (size.toNat + 15) / 16 * 16 := by
  rw [alignUp, show kArenaAlign - 1 = 15 from rfl, toNat_andNot, UInt64.toNat_add,
    show (15 : SizeT).toNat = 15 from rfl, Nat.mod_eq_of_lt h]

theorem alignUp_lt_iff : alignUp size < size ↔ 2 ^ 64 ≤ size.toNat + 15 := by
  constructor
  · intro h
    by_contra hFits
    rw [UInt64.lt_iff_toNat_lt, toNat_alignUp (by omega)] at h
    omega
  · intro h
    have hSize := size.toNat_lt
    rw [UInt64.lt_iff_toNat_lt, alignUp, show kArenaAlign - 1 = 15 from rfl, toNat_andNot,
      UInt64.toNat_add, show (15 : SizeT).toNat = 15 from rfl]
    omega

/-- A request that is rounded up: the least multiple of 16 that has room for it. -/
structure Aligned (size aligned : SizeT) : Prop where
  le : size.toNat ≤ aligned.toNat
  near : aligned.toNat < size.toNat + 16
  dvd : 16 ∣ aligned.toNat

theorem alignUp_aligned (h : ¬alignUp size < size) : Aligned size (alignUp size) := by
  rw [alignUp_lt_iff] at h
  have hUp : (alignUp size).toNat = (size.toNat + 15) / 16 * 16 := toNat_alignUp (by omega)
  constructor <;> omega

theorem toNat_blockSizeFor : (blockSizeFor aligned).toNat = max aligned.toNat 4096 := by
  rw [blockSizeFor]
  split
  · rename_i h
    rw [gt_iff_lt, UInt64.lt_iff_toNat_lt, show kArenaBlockSize.toNat = 4096 from rfl] at h
    omega
  · rename_i h
    rw [gt_iff_lt, UInt64.lt_iff_toNat_lt, show kArenaBlockSize.toNat = 4096 from rfl] at h
    rw [show kArenaBlockSize.toNat = 4096 from rfl]
    omega

theorem dataRoom_eq (h : size.toNat + 16 < 2 ^ 64) :
    dataRoom (sizeofArenaBlock + size) = size.toNat := by
  have hSum : (sizeofArenaBlock + size).toNat = 16 + size.toNat := by
    rw [UInt64.toNat_add, show sizeofArenaBlock.toNat = 16 from rfl]
    omega
  have hPos : sizeofArenaBlock + size ≠ 0 := by
    intro hZero
    rw [hZero] at hSum
    have hSum : 0 = 16 + size.toNat := hSum
    omega
  rw [dataRoom, if_pos hPos, hSum, show sizeofArenaBlock.toNat = 16 from rfl]
  omega

/-- The ways a call of `arena_alloc` can go. -/
inductive Allocs (granted : Bool) (w : ArenaWorld) (size : SizeT) : Except Fault ArenaWorld → Prop
  | abort : Allocs granted w size (.error .abort)
  | dangling {name : Nat} (hCurrent : w.current = some name) (hGone : w.heap.blocks name = none) :
      Allocs granted w size (.error .astray)
  | same {name : Nat} {block : ArenaBlock} {aligned : SizeT} (hAligned : Aligned size aligned)
      (hCurrent : w.current = some name) (hBlock : w.heap.blocks name = some block)
      (hRoom : aligned ≤ block.size - w.offset) :
      Allocs granted w size (.ok (w.bump name size aligned))
  | new {aligned : SizeT} (hAligned : Aligned size aligned) :
      Allocs granted w size
        (.ok ((w.push (blockSizeFor aligned)).bump w.heap.fresh size aligned))

theorem arenaAlloc_cases (granted : Bool) (w : ArenaWorld) (size : SizeT) :
    Allocs granted w size (arenaAlloc granted w size) := by
  have hNew : ∀ aligned, Aligned size aligned → Allocs granted w size
      (if granted then arenaTake (w.push (blockSizeFor aligned)) size aligned
        else .error .abort) := by
    intro aligned hAligned
    cases granted with
    | false => exact .abort
    | true => exact .new hAligned
  rw [arenaAlloc]
  split
  · exact .abort
  rename_i hUp
  have hAligned := alignUp_aligned hUp
  rw [arenaFull]
  cases hCurrent : w.current with
  | none => exact hNew _ hAligned
  | some name =>
    cases hBlock : w.heap.blocks name with
    | none =>
      simp only [hBlock]
      exact .dangling hCurrent hBlock
    | some block =>
      simp only [hBlock, Except.bind]
      split
      · exact hNew _ hAligned
      · rename_i hFull
        have hRoom : alignUp size ≤ block.size - w.offset := by simpa using hFull
        rw [arenaTake, hCurrent]
        exact .same hAligned hCurrent hBlock hRoom

def ArenaHeap.prevOf (heap : ArenaHeap) (name : Nat) : Option Nat :=
  (heap.blocks name).bind ArenaBlock.prev

structure ArenaBlock.Whole (block : ArenaBlock) : Prop where
  dvd : 16 ∣ block.size.toNat
  room_eq : block.room = block.size.toNat
  fits : block.size.toNat + 16 < 2 ^ 64

/-- The arena with its blocks `names`, the newest first. -/
structure ArenaKept (w : ArenaWorld) (names : List Nat) : Prop where
  chain : Linked.Chain w.heap.prevOf w.current names
  once : (w.heap.frees ++ names).Perm (List.range w.heap.fresh)
  live : ∀ name ∈ names, ∃ block, w.heap.blocks name = some block
  dead : ∀ name, name ∉ names → w.heap.blocks name = none
  whole : ∀ name block, w.heap.blocks name = some block → block.Whole
  offset_le : ∀ name block, w.current = some name → w.heap.blocks name = some block →
    w.offset ≤ block.size
  offset_dvd : 16 ∣ w.offset.toNat
  aligned : ∀ r ∈ w.regions, 16 ∣ r.offset.toNat
  inside : ∀ r ∈ w.regions, r.Inside w.heap
  behind : ∀ r ∈ w.regions, w.current = some r.block →
    r.offset.toNat + r.size.toNat ≤ w.offset.toNat
  disjoint : w.regions.Pairwise Region.Disjoint

variable {names : List Nat} {name : Nat} {block : ArenaBlock}

theorem arenaKept_init : ArenaKept {} [] := by
  constructor <;> simp

theorem ArenaKept.bump (h : ArenaKept w names) (hCurrent : w.current = some name)
    (hBlock : w.heap.blocks name = some block) (hAligned : Aligned size aligned)
    (hRoom : aligned ≤ block.size - w.offset) : ArenaKept (w.bump name size aligned) names := by
  have hOffset := h.offset_le name block hCurrent hBlock
  have hFits : w.offset.toNat + aligned.toNat ≤ block.size.toNat := by
    rw [UInt64.le_iff_toNat_le, UInt64.toNat_sub_of_le _ _ hOffset] at hRoom
    have hOffset := UInt64.le_iff_toNat_le.mp hOffset
    omega
  have hSum : (w.offset + aligned).toNat = w.offset.toNat + aligned.toNat := by
    rw [UInt64.toNat_add]
    exact Nat.mod_eq_of_lt (hFits.trans_lt block.size.toNat_lt)
  have hLe := hAligned.le
  constructor
  · exact h.chain
  · exact h.once
  · exact h.live
  · exact h.dead
  · exact h.whole
  · intro other block' hOther hBlock'
    obtain rfl : name = other := Option.some.inj (hCurrent.symm.trans hOther)
    obtain rfl : block = block' := Option.some.inj (hBlock.symm.trans hBlock')
    show w.offset + aligned ≤ block.size
    rw [UInt64.le_iff_toNat_le, hSum]
    exact hFits
  · show 16 ∣ (w.offset + aligned).toNat
    rw [hSum]
    exact Nat.dvd_add h.offset_dvd hAligned.dvd
  · intro r hr
    rcases List.mem_append.mp hr with hr | hr
    · exact h.aligned r hr
    · obtain rfl := List.mem_singleton.mp hr
      exact h.offset_dvd
  · intro r hr
    rcases List.mem_append.mp hr with hr | hr
    · exact h.inside r hr
    · obtain rfl := List.mem_singleton.mp hr
      refine ⟨block, hBlock, ?_⟩
      rw [(h.whole name block hBlock).room_eq]
      show w.offset.toNat + size.toNat ≤ _
      omega
  · intro r hr hNewest
    show r.offset.toNat + r.size.toNat ≤ (w.offset + aligned).toNat
    rw [hSum]
    rcases List.mem_append.mp hr with hr | hr
    · exact (h.behind r hr hNewest).trans (Nat.le_add_right _ _)
    · obtain rfl := List.mem_singleton.mp hr
      show w.offset.toNat + size.toNat ≤ _
      omega
  · apply List.pairwise_append.mpr
    refine ⟨h.disjoint, List.pairwise_singleton _ _, ?_⟩
    intro r hr r' hr'
    obtain rfl := List.mem_singleton.mp hr'
    -- in its own block the new region begins behind the ones before it
    by_cases hSame : r.block = name
    · exact .inr (.inl (h.behind r hr (hSame ▸ hCurrent)))
    · exact .inl hSame

theorem ArenaKept.fresh_notMem (h : ArenaKept w names) : w.heap.fresh ∉ names := by
  intro hMem
  have hRange := h.once.mem_iff.mp (List.mem_append_right _ hMem)
  exact Nat.lt_irrefl _ (List.mem_range.mp hRange)

/-- A new block; what was returned before lies in the older ones. -/
theorem ArenaKept.push (h : ArenaKept w names) (hDvd : 16 ∣ size.toNat)
    (hFits : size.toNat + 16 < 2 ^ 64) : ArenaKept (w.push size) (w.heap.fresh :: names) := by
  have hFresh := h.fresh_notMem
  have hNew : (w.push size).heap.blocks w.heap.fresh =
      some ⟨w.current, size, dataRoom (sizeofArenaBlock + size)⟩ := if_pos rfl
  have hOld : ∀ {name}, name ≠ w.heap.fresh →
      (w.push size).heap.blocks name = w.heap.blocks name := fun hNe => if_neg hNe
  have hKept : ∀ {name block}, w.heap.blocks name = some block →
      (w.push size).heap.blocks name = some block := by
    intro name block hBlock
    rw [hOld, hBlock]
    rintro rfl
    exact absurd ((h.dead _ hFresh).symm.trans hBlock) nofun
  constructor
  · apply h.chain.push hFresh
    · rw [ArenaHeap.prevOf, hNew]
      rfl
    · intro name hNe
      rw [ArenaHeap.prevOf, hOld hNe]
      rfl
  · show (w.heap.frees ++ w.heap.fresh :: names).Perm (List.range (w.heap.fresh + 1))
    rw [List.range_succ]
    refine List.perm_middle.trans ?_
    exact (h.once.cons w.heap.fresh).trans (List.perm_append_singleton _ _).symm
  · intro name hName
    rcases List.mem_cons.mp hName with rfl | hName
    · exact ⟨_, hNew⟩
    · obtain ⟨block, hBlock⟩ := h.live name hName
      exact ⟨block, hKept hBlock⟩
  · intro name hName
    rw [List.mem_cons, not_or] at hName
    rw [hOld hName.1]
    exact h.dead name hName.2
  · intro name block hBlock
    by_cases hNe : name = w.heap.fresh
    · rw [hNe, hNew] at hBlock
      obtain rfl := Option.some.inj hBlock
      exact ⟨hDvd, dataRoom_eq hFits, hFits⟩
    · rw [hOld hNe] at hBlock
      exact h.whole name block hBlock
  · intro name block _ _
    exact UInt64.zero_le
  · exact Nat.dvd_zero _
  · exact h.aligned
  · intro r hr
    obtain ⟨block, hBlock, hInside⟩ := h.inside r hr
    exact ⟨block, hKept hBlock, hInside⟩
  · intro r hr hNewest
    obtain ⟨block, hBlock, -⟩ := h.inside r hr
    rw [show r.block = w.heap.fresh from (Option.some.inj hNewest).symm, h.dead _ hFresh] at hBlock
    cases hBlock
  · exact h.disjoint

/-- The loop frees the blocks of a chain one after the other. -/
theorem finishLoop_frees {heap : ArenaHeap} {head : Option Nat} {bound : Nat}
    (hChain : Linked.Chain heap.prevOf head names) (hNodup : names.Nodup)
    (hLive : ∀ name ∈ names, ∃ block, heap.blocks name = some block)
    (hBound : names.length ≤ bound) :
    ∃ heap', finishLoop bound head heap = .ok heap' ∧ heap'.fresh = heap.fresh ∧
      heap'.frees = heap.frees ++ names ∧
      ∀ name, heap'.blocks name = if name ∈ names then none else heap.blocks name := by
  induction names generalizing heap head bound with
  | nil =>
    rw [Linked.chain_nil] at hChain
    rw [hChain]
    refine ⟨heap, ?_, rfl, (List.append_nil _).symm, fun name => (if_neg List.not_mem_nil).symm⟩
    cases bound <;> rfl
  | cons name names ih =>
    obtain ⟨rfl, hRest⟩ := hChain
    obtain ⟨bound, rfl⟩ : ∃ n, bound = n + 1 :=
      Nat.exists_eq_add_one.mpr (Nat.zero_lt_of_lt hBound)
    obtain ⟨block, hBlock⟩ := hLive name List.mem_cons_self
    have hNotMem := (List.nodup_cons.mp hNodup).1
    have hOther : ∀ {other}, other ∈ names →
        (heap.free name).blocks other = heap.blocks other := by
      intro other hMem
      apply if_neg
      rintro rfl
      exact hNotMem hMem
    have hPrev : heap.prevOf name = block.prev := by rw [ArenaHeap.prevOf, hBlock]; rfl
    rw [hPrev] at hRest
    have hRest : Linked.Chain (heap.free name).prevOf block.prev names := by
      apply hRest.congr
      intro other hMem
      rw [ArenaHeap.prevOf, ArenaHeap.prevOf, hOther hMem]
    have hLive : ∀ other ∈ names, ∃ block, (heap.free name).blocks other = some block := by
      intro other hMem
      rw [hOther hMem]
      exact hLive other (List.mem_cons_of_mem name hMem)
    obtain ⟨heap', hLoop, hFresh, hFrees, hBlocks⟩ :=
      ih hRest (List.nodup_cons.mp hNodup).2 hLive (Nat.le_of_succ_le_succ hBound)
    refine ⟨heap', ?_, hFresh, ?_, ?_⟩
    · rw [finishLoop]
      simp only [hBlock]
      exact hLoop
    · rw [hFrees]
      exact List.append_assoc _ _ _
    · intro other
      rw [hBlocks other]
      show (if other ∈ names then none else if other = name then none else heap.blocks other) = _
      by_cases hName : other = name <;> simp [hName]

theorem arenaFinish_finished (h : ArenaKept w names) :
    ∃ w', arenaFinish w = .ok w' ∧ Finished w' ∧ ArenaKept w' [] := by
  have hAll : (w.heap.frees ++ names).Nodup := h.once.nodup_iff.mpr List.nodup_range
  have hBound : names.length ≤ w.heap.fresh := by
    have hLength := h.once.length_eq
    rw [List.length_append, List.length_range] at hLength
    omega
  obtain ⟨heap', hLoop, hFresh, hFrees, hBlocks⟩ :=
    finishLoop_frees h.chain (List.nodup_append.mp hAll).2.1 h.live hBound
  have hNone : ∀ name, heap'.blocks name = none := by
    intro name
    rw [hBlocks name]
    split
    · rfl
    · exact h.dead name ‹_›
  have hOnce : heap'.frees.Perm (List.range heap'.fresh) := by
    rw [hFrees, hFresh]
    exact h.once
  refine ⟨{ current := none, offset := 0, heap := heap', regions := [] }, ?_, ?_, ?_⟩
  · rw [arenaFinish, hLoop]
    rfl
  · exact ⟨rfl, rfl, rfl, hNone, hOnce⟩
  · constructor
    · rfl
    · rwa [List.append_nil]
    · nofun
    · exact fun name _ => hNone name
    · intro name block hBlock
      exact absurd ((hNone name).symm.trans hBlock) nofun
    · nofun
    · exact Nat.dvd_zero _
    · nofun
    · nofun
    · nofun
    · exact .nil

theorem ArenaKept.sound (h : ArenaKept w names) : ArenaSound w where
  inside := h.inside
  aligned := h.aligned
  disjoint := h.disjoint
  offset_le := h.offset_le
  finishes := by
    obtain ⟨w', hFinish, hFinished, -⟩ := arenaFinish_finished h
    exact ⟨w', hFinish, hFinished⟩

def ArenaCall.Wraps : ArenaCall → Prop
  | .alloc _ size => Memory.Wraps size
  | .finish => False

instance (call : ArenaCall) : Decidable call.Wraps :=
  match call with
  | .alloc _ size => inferInstanceAs (Decidable (Memory.Wraps size))
  | .finish => inferInstanceAs (Decidable False)

theorem wraps_iff (hAligned : Aligned size aligned) : Wraps size ↔ 2 ^ 64 ≤ aligned.toNat + 16 := by
  have hLe := hAligned.le
  have hNear := hAligned.near
  have hDvd := hAligned.dvd
  have hLt := aligned.toNat_lt
  rw [Wraps]
  omega

theorem arenaAlloc_kept (h : ArenaKept w names) (hSize : ¬Wraps size)
    (hAlloc : arenaAlloc granted w size = .ok w') : ∃ names', ArenaKept w' names' := by
  have hCases := arenaAlloc_cases granted w size
  rw [hAlloc] at hCases
  cases hCases with
  | same hAligned hCurrent hBlock hRoom => exact ⟨names, h.bump hCurrent hBlock hAligned hRoom⟩
  | @new aligned hAligned =>
    rw [wraps_iff hAligned] at hSize
    have hDvd := hAligned.dvd
    have hBlockSize : (blockSizeFor aligned).toNat = max aligned.toNat 4096 := toNat_blockSizeFor
    have hKept : ArenaKept (w.push (blockSizeFor aligned)) (w.heap.fresh :: names) :=
      h.push (by omega) (by omega)
    refine ⟨_, hKept.bump rfl (if_pos rfl) hAligned ?_⟩
    show aligned ≤ blockSizeFor aligned - 0
    rw [UInt64.le_iff_toNat_le, UInt64.sub_zero, hBlockSize]
    exact Nat.le_max_left _ _

/-- The region of a request whose block wraps is not within a block. -/
theorem arenaAlloc_wraps (h : ArenaKept w names) (hSize : Wraps size)
    (hAlloc : arenaAlloc granted w size = .ok w') : ¬ArenaSound w' := by
  intro hSound
  have hPos : 0 < size.toNat := by
    have hLow := hSize.1
    omega
  have hCases := arenaAlloc_cases granted w size
  rw [hAlloc] at hCases
  cases hCases with
  | @same name block aligned hAligned hCurrent hBlock hRoom =>
    rw [wraps_iff hAligned] at hSize
    have hOffset := h.offset_le name block hCurrent hBlock
    have hFits := (h.whole name block hBlock).fits
    rw [UInt64.le_iff_toNat_le, UInt64.toNat_sub_of_le _ _ hOffset] at hRoom
    omega
  | @new aligned hAligned =>
    rw [wraps_iff hAligned] at hSize
    obtain ⟨block, hBlock, hInside⟩ := hSound.inside ⟨w.heap.fresh, 0, size⟩
      (List.mem_append_right _ (List.mem_singleton.mpr rfl))
    have hBlock : (if w.heap.fresh = w.heap.fresh then
        some (⟨w.current, blockSizeFor aligned, dataRoom (sizeofArenaBlock + blockSizeFor aligned)⟩ :
          ArenaBlock) else w.heap.blocks w.heap.fresh) = some block := hBlock
    rw [if_pos rfl] at hBlock
    obtain rfl := Option.some.inj hBlock
    have hZero : sizeofArenaBlock + blockSizeFor aligned = 0 := by
      rw [← UInt64.toNat_inj, UInt64.toNat_add, toNat_blockSizeFor,
        show sizeofArenaBlock.toNat = 16 from rfl]
      have hLt := aligned.toNat_lt
      have hDvd := hAligned.dvd
      show _ = 0
      omega
    have hRoom : dataRoom (sizeofArenaBlock + blockSizeFor aligned) = 0 := by
      rw [hZero]
      rfl
    have hInside : 0 + size.toNat ≤ dataRoom (sizeofArenaBlock + blockSizeFor aligned) := hInside
    omega

theorem arenaStep_alloc : arenaStep w (.alloc granted size) = some w' ↔
    arenaAlloc granted w size = .ok w' := by
  rw [arenaStep]
  cases arenaAlloc granted w size <;> simp [Except.toOption]

theorem arenaStep_kept (h : ArenaKept w names) {call : ArenaCall} (hCall : ¬call.Wraps)
    (hStep : arenaStep w call = some w') : ∃ names', ArenaKept w' names' := by
  cases call with
  | alloc granted size => exact arenaAlloc_kept h hCall (arenaStep_alloc.mp hStep)
  | finish =>
    obtain ⟨next, hFinish, -, hKept⟩ := arenaFinish_finished h
    rw [arenaStep, hFinish] at hStep
    obtain rfl := Option.some.inj hStep
    exact ⟨[], hKept⟩

theorem arena_sound_from {calls : List ArenaCall} (h : ArenaKept w names)
    (hRun : Run.run arenaStep w calls = some w') :
    Run.Along arenaStep (fun _ _ next => ArenaSound next) w calls ↔
      ∀ call ∈ calls, ¬call.Wraps := by
  induction calls generalizing w names with
  | nil => simp [Run.Along]
  | cons call calls ih =>
    obtain ⟨mid, hStep, hRest⟩ := Run.run_cons_eq_some.mp hRun
    rw [List.forall_mem_cons]
    constructor
    · intro hAlong
      obtain ⟨hSound, hLater⟩ := hAlong mid hStep
      have hCall : ¬call.Wraps := by
        intro hWraps
        cases call with
        | alloc granted size => exact arenaAlloc_wraps h hWraps (arenaStep_alloc.mp hStep) hSound
        | finish => exact hWraps
      obtain ⟨names', hKept⟩ := arenaStep_kept h hCall hStep
      exact ⟨hCall, (ih hKept hRest).mp hLater⟩
    · rintro ⟨hCall, hCalls⟩
      obtain ⟨names', hKept⟩ := arenaStep_kept h hCall hStep
      exact .cons hStep hKept.sound ((ih hKept hRest).mpr hCalls)

/-- An arena through any calls that come back keeps its promises in every state exactly when no
request wraps with the header of its block. -/
theorem arena_sound_iff {calls : List ArenaCall} (hRun : Run.run arenaStep {} calls = some w) :
    Run.Along arenaStep (fun _ _ next => ArenaSound next) {} calls ↔
      ∀ call ∈ calls, ¬call.Wraps := arena_sound_from arenaKept_init hRun

/-- Two small requests, one with a block of its own, an empty one and one more after a finish. -/
def arenaCalls : List ArenaCall :=
  [.alloc true 20, .alloc false 4, .alloc true 5000, .alloc false 0, .finish, .alloc true 1]

theorem arena_sound_sample : ∃ w : ArenaWorld, Run.run arenaStep {} arenaCalls = some w ∧
    w.heap.frees = [1, 0] ∧
    Run.Along arenaStep (fun _ _ next => ArenaSound next) {} arenaCalls := by
  have hRun : ∃ w : ArenaWorld, Run.run arenaStep {} arenaCalls = some w ∧ w.heap.frees = [1, 0] :=
    ⟨_, rfl, rfl⟩
  obtain ⟨w, hRun, hFrees⟩ := hRun
  exact ⟨w, hRun, hFrees, (arena_sound_iff hRun).mpr (by decide)⟩

/-- `SIZE_MAX - 15` bytes: the sum with the header is 0, so one byte is allocated. -/
theorem arena_wrapped : ∃ w : ArenaWorld,
    Run.run arenaStep {} [.alloc true 18446744073709551600] = some w ∧
      w.regions = [⟨0, 0, 18446744073709551600⟩] ∧ ¬ArenaSound w := by
  refine ⟨_, rfl, rfl, ?_⟩
  intro hSound
  obtain ⟨block, hBlock, hInside⟩ := hSound.inside _ (List.mem_singleton.mpr rfl)
  obtain rfl := Option.some.inj hBlock
  revert hInside
  decide

end Mua.Memory
