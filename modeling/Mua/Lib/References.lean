import Mathlib.Data.Finmap

/-! # Tables of references

A table keeps values behind references. A reference that is handed out is not in use; one is
released only while it is in use, so a second release has no result. The owners of a table hold
each of its references once.
-/

namespace References

variable {ρ ν : Type*}

abbrev Table (ρ ν : Type*) := Finmap fun _ : ρ => ν

structure Allocator (ρ ν : Type*) where
  pick : Table ρ ν → ρ
  fresh : ∀ t, pick t ∉ t

namespace Table

variable {alloc : Allocator ρ ν} {t : Table ρ ν} {r : ρ} {rs owned : List ρ} {v : ν}

/-- The owned references are those of the table, each held once. -/
structure Owned (t : Table ρ ν) (owned : List ρ) : Prop where
  nodup : owned.Nodup
  mem_iff : ∀ r, r ∈ t ↔ r ∈ owned

theorem owned_empty : Owned (∅ : Table ρ ν) [] :=
  ⟨List.nodup_nil, fun _ => iff_of_false Finmap.notMem_empty List.not_mem_nil⟩

theorem Owned.perm (h : Owned t owned) (hPerm : owned.Perm rs) : Owned t rs :=
  ⟨hPerm.nodup_iff.mp h.nodup, fun r => (h.mem_iff r).trans hPerm.mem_iff⟩

variable [DecidableEq ρ]

def make (alloc : Allocator ρ ν) (t : Table ρ ν) (v : ν) : Table ρ ν := t.insert (alloc.pick t) v

def release (t : Table ρ ν) (r : ρ) : Option (Table ρ ν) := if r ∈ t then some (t.erase r) else none

def releaseAll (t : Table ρ ν) : List ρ → Option (Table ρ ν)
  | [] => some t
  | r :: rs => (t.release r).bind fun t => t.releaseAll rs

theorem Owned.eq_empty (h : Owned t []) : t = ∅ := by
  apply Finmap.ext_lookup
  intro r
  rw [Finmap.lookup_empty, Finmap.lookup_eq_none, h.mem_iff]
  exact List.not_mem_nil

@[simp] theorem lookup_make_self : (make alloc t v).lookup (alloc.pick t) = some v :=
  Finmap.lookup_insert t

theorem lookup_make (hMem : r ∈ t) : (make alloc t v).lookup r = t.lookup r := by
  apply Finmap.lookup_insert_of_ne
  rintro rfl
  exact alloc.fresh t hMem

theorem Owned.make (h : Owned t owned) : Owned (make alloc t v) (owned ++ [alloc.pick t]) := by
  constructor
  · refine List.nodup_append.mpr ⟨h.nodup, List.nodup_singleton _, ?_⟩
    rintro r hr other hOther rfl
    rw [List.mem_singleton] at hOther
    subst hOther
    exact alloc.fresh t ((h.mem_iff _).mpr hr)
  · intro r
    rw [Table.make, Finmap.mem_insert, h.mem_iff, List.mem_append, List.mem_singleton, or_comm]

theorem release_make : (make alloc t v).release (alloc.pick t) = some t := by
  have hMem : alloc.pick t ∈ make alloc t v := Finmap.mem_insert.mpr (.inl rfl)
  rw [release, if_pos hMem, Option.some.injEq]
  apply Finmap.ext_lookup
  intro r
  by_cases hr : r = alloc.pick t
  · subst hr
    rw [Finmap.lookup_erase, Finmap.lookup_eq_none.mpr (alloc.fresh t)]
  · rw [Finmap.lookup_erase_ne hr, make, Finmap.lookup_insert_of_ne t hr]

theorem Owned.releaseAll (h : Owned t (rs ++ owned)) :
    ∃ t', t.releaseAll rs = some t' ∧ Owned t' owned ∧ ∀ r ∈ owned, t'.lookup r = t.lookup r := by
  induction rs generalizing t with
  | nil => exact ⟨t, rfl, h, fun r _ => rfl⟩
  | cons first rest ih =>
    obtain ⟨hNot, hNodup⟩ := List.nodup_cons.mp h.nodup
    have hMem : first ∈ t := (h.mem_iff first).mpr List.mem_cons_self
    have hRest : Owned (t.erase first) (rest ++ owned) := by
      refine ⟨hNodup, fun r => ?_⟩
      rw [Finmap.mem_erase, h.mem_iff, List.cons_append, List.mem_cons]
      constructor
      · rintro ⟨hNe, hEither⟩
        exact hEither.resolve_left hNe
      · intro hr
        refine ⟨?_, .inr hr⟩
        rintro rfl
        exact hNot hr
    obtain ⟨t', hRelease, hOwned, hLookup⟩ := ih hRest
    refine ⟨t', ?_, hOwned, fun r hr => ?_⟩
    · rw [Table.releaseAll, release, if_pos hMem, Option.bind_some, hRelease]
    · rw [hLookup r hr, Finmap.lookup_erase_ne]
      rintro rfl
      exact hNot (List.mem_append_right _ hr)

end Table

end References
