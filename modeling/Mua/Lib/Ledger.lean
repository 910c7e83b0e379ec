import Mathlib.Data.List.Perm.Basic
import Mathlib.Data.List.Nodup

/-! # Ledgers of what is made and given back

A ledger notes every part that is made and every part that is freed. It balances when
each part was made once and is by now freed once, or owned by somebody and not freed.
-/

structure Ledger (ρ : Type*) where
  made : List ρ := []
  freed : List ρ := []
  deriving DecidableEq, Repr

namespace Ledger

variable {ρ σ : Type*}

def make (l : Ledger ρ) (r : ρ) : Ledger ρ := { l with made := l.made ++ [r] }

def free (l : Ledger ρ) (r : ρ) : Ledger ρ := { l with freed := l.freed ++ [r] }

def freeAll (l : Ledger ρ) (rs : List ρ) : Ledger ρ := { l with freed := l.freed ++ rs }

/-- The entries of one ledger after those of another, under other names. -/
def enter (l : Ledger ρ) (f : σ → ρ) (part : Ledger σ) : Ledger ρ :=
  ⟨l.made ++ part.made.map f, l.freed ++ part.freed.map f⟩

structure Balanced (l : Ledger ρ) (owned : List ρ) : Prop where
  nodup : l.made.Nodup
  perm : l.made.Perm (l.freed ++ owned)

instance [DecidableEq ρ] (l : Ledger ρ) (owned : List ρ) : Decidable (Balanced l owned) :=
  decidable_of_iff (l.made.Nodup ∧ l.made.Perm (l.freed ++ owned))
    ⟨fun ⟨hNodup, hPerm⟩ => ⟨hNodup, hPerm⟩, fun h => ⟨h.nodup, h.perm⟩⟩

variable {l : Ledger ρ} {part : Ledger σ} {owned rs : List ρ} {kept : List σ} {r : ρ}

theorem balanced_empty : Balanced (ρ := ρ) {} [] := ⟨List.nodup_nil, .nil⟩

theorem Balanced.mem_made (h : Balanced l owned) : r ∈ l.made ↔ r ∈ l.freed ∨ r ∈ owned := by
  rw [h.perm.mem_iff, List.mem_append]

theorem Balanced.freeAll (h : Balanced l (rs ++ owned)) : Balanced (l.freeAll rs) owned :=
  ⟨h.nodup, by rw [Ledger.freeAll, List.append_assoc]; exact h.perm⟩

theorem Balanced.count_freed [BEq ρ] [LawfulBEq ρ] (h : Balanced l owned) (hFreed : r ∈ l.freed) :
    l.freed.count r = 1 := by
  have hNodup := (h.perm.nodup_iff.mp h.nodup).of_append_left
  exact List.count_eq_one_of_mem hNodup hFreed

theorem Balanced.count_owned [BEq ρ] [LawfulBEq ρ] (h : Balanced l owned) (hOwned : r ∈ owned) :
    l.freed.count r = 0 := by
  have hDisjoint := List.disjoint_of_nodup_append (h.perm.nodup_iff.mp h.nodup)
  exact List.count_eq_zero_of_not_mem fun hFreed => hDisjoint hFreed hOwned

theorem Balanced.enter {f : σ → ρ} (h : Balanced l owned) (hPart : Balanced part kept)
    (hInj : Function.Injective f) (hNew : ∀ a, f a ∉ l.made) :
    Balanced (l.enter f part) (owned ++ kept.map f) := by
  constructor
  · rw [Ledger.enter, List.nodup_append']
    refine ⟨h.nodup, hPart.nodup.map hInj, ?_⟩
    intro r hr hMap
    obtain ⟨a, -, rfl⟩ := List.mem_map.mp hMap
    exact hNew a hr
  · have hMap := hPart.perm.map f
    rw [List.map_append] at hMap
    refine (h.perm.append hMap).trans ?_
    rw [Ledger.enter, List.append_assoc, List.append_assoc]
    refine List.Perm.append_left _ ?_
    rw [← List.append_assoc, ← List.append_assoc]
    exact List.perm_append_comm.append_right _

end Ledger
