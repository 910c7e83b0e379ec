import Mathlib.Data.List.Basic

/-! # Blocks of memory

A block is the list of its cells. `read` and `write` copy ranges out of a block and
into it, and give nothing for a range that leaves it. A block that is filled from the
front begins with what was written, in order.
-/

namespace Block

variable {α : Type*}

/-- The `len` cells from `pos` on. -/
def read (block : List α) (pos len : Nat) : Option (List α) :=
  if pos + len ≤ block.length then some ((block.drop pos).take len) else none

/-- The block with `src` in the cells from `pos` on. -/
def write (block : List α) (pos : Nat) (src : List α) : Option (List α) :=
  if pos + src.length ≤ block.length then
    some (block.take pos ++ src ++ block.drop (pos + src.length))
  else none

variable {block block' src content : List α} {pos len : Nat}

theorem read_eq_some (h : pos + len ≤ block.length) :
    read block pos len = some ((block.drop pos).take len) := if_pos h

theorem length_read {cells : List α} (h : read block pos len = some cells) : cells.length = len := by
  rw [read] at h
  split at h
  · obtain rfl := Option.some.inj h
    rw [List.length_take, List.length_drop]
    omega
  · cases h

theorem write_eq_none_iff : write block pos src = none ↔ block.length < pos + src.length := by
  rw [write]
  split
  · simp_all
  · simp_all

theorem length_write (h : write block pos src = some block') :
    block'.length = block.length := by
  rw [write] at h
  split at h
  · rename_i hRoom
    obtain rfl := Option.some.inj h
    simp only [List.length_append, List.length_take, List.length_drop]
    omega
  · cases h

theorem write_behind (src : List α) (hContent : content <+: block)
    (hRoom : content.length + src.length ≤ block.length) :
    ∃ block', write block content.length src = some block' ∧ block'.length = block.length ∧
      content ++ src <+: block' := by
  obtain ⟨rest, rfl⟩ := hContent
  refine ⟨_, if_pos hRoom, length_write (if_pos hRoom), ?_⟩
  rw [List.take_left]
  exact List.prefix_append _ _

end Block
