import Mua.Paths

/-! # mkdir -p on a tree of directories

The prefixes of a path are made from the start one after the other, and this comes to one walk
down the path. Nothing that was there is touched, what is new is a directory on the way, and the
tree that is left says why the walk ended.
-/

namespace Mua.Paths

open Directories Session

variable {cwd : List Bytes} {refuse : List Bytes → Option Bytes} {path a b seg : Bytes}
  {t t' : DirTree Bytes}

theorem names_append_slash (a b : Bytes) : names (a ++ slash :: b) = names a ++ names b := by
  rw [names, List.splitOn_append_cons_self, List.filterMap_append]
  rfl

theorem names_segment (h : slash ∉ seg) : names seg = (component seg).toList := by
  rw [names, List.splitOn_eq_singleton h]
  cases hComponent : component seg with
  | none => rw [List.filterMap_cons_none hComponent]; rfl
  | some step => rw [List.filterMap_cons_some hComponent]; rfl

theorem names_trailing (a : Bytes) : names (a ++ [slash]) = names a := by
  rw [names_append_slash, names_segment List.not_mem_nil]
  exact List.append_nil (names a)

/-- What stands before a segment is nothing, or ends in a slash. -/
def Whole (a : Bytes) : Prop := a = [] ∨ ∃ front, a = front ++ [slash]

theorem names_append (ha : Whole a) (b : Bytes) : names (a ++ b) = names a ++ names b := by
  rcases ha with rfl | ⟨front, rfl⟩
  · rw [names_segment List.not_mem_nil]
    rfl
  · rw [names_trailing, List.append_assoc]
    exact names_append_slash front b

theorem start_take {i : Nat} (hi : 1 ≤ i) : start cwd (path.take i) = start cwd path := by
  rw [start, start, List.head?_take, if_neg (Nat.one_le_iff_ne_zero.mp hi)]

def made (path : Bytes) : List Nat → List (List (Step Bytes))
  | [] => [names path]
  | i :: rest =>
    if path[i]? = some slash then names (path.take i) :: made path rest else made path rest

theorem segment_prefixes {whole : List (Step Bytes)} {paths : List (List (Step Bytes))}
    (ha : Whole a) (hSeg : slash ∉ seg) (h : Prefixes whole (names (a ++ seg)) paths) :
    Prefixes whole (names a) (names (a ++ seg) :: paths) := by
  rw [names_append ha, names_segment hSeg] at h ⊢
  cases hStep : component seg with
  | none =>
    rw [hStep, Option.toList_none, List.append_nil] at h
    rw [Option.toList_none, List.append_nil]
    exact .same h
  | some step =>
    rw [hStep] at h
    exact .next h

theorem made_prefixes {i n : Nat} (hLength : i + n = path.length) (hTake : path.take i = a ++ seg)
    (ha : Whole a) (hSeg : slash ∉ seg) :
    Prefixes (names path) (names a) (made path (List.range' i n)) := by
  induction n generalizing i a seg with
  | zero =>
    rw [Nat.add_zero] at hLength
    rw [hLength, List.take_length] at hTake
    rw [hTake]
    exact segment_prefixes ha hSeg .nil
  | succ n ih =>
    have hi : i < path.length := by omega
    have hNext : path.take (i + 1) = a ++ seg ++ [path[i]] := by
      rw [List.take_succ_eq_append_getElem hi, hTake]
    have hMore : i + 1 + n = path.length := by omega
    rw [List.range'_succ, made, List.getElem?_eq_getElem hi]
    split
    · rename_i hSlash
      rw [Option.some.inj hSlash] at hNext
      have hRest := ih hMore (hNext.trans (List.append_nil _).symm) (.inr ⟨a ++ seg, rfl⟩)
        List.not_mem_nil
      rw [names_trailing] at hRest
      rw [hTake]
      exact segment_prefixes ha hSeg hRest
    · rename_i hOther
      refine ih hMore (hNext.trans (List.append_assoc a seg _)) ha ?_
      rw [List.mem_append, List.mem_singleton, not_or]
      exact ⟨hSeg, fun h => hOther (congrArg some h.symm)⟩

theorem path_prefixes (h : path ≠ []) :
    Prefixes (names path) [] (made path (List.range' 1 (path.length - 1))) := by
  obtain ⟨c, rest, rfl⟩ := List.exists_cons_of_ne_nil h
  have hLength : 1 + ((c :: rest).length - 1) = (c :: rest).length := by
    rw [List.length_cons]
    omega
  have hNone : names ([] : Bytes) = [] := names_segment List.not_mem_nil
  by_cases hc : c = slash
  · subst hc
    have hRoot := made_prefixes hLength (List.append_nil [slash]).symm (.inr ⟨[], rfl⟩)
      List.not_mem_nil
    rwa [← List.nil_append [slash], names_trailing, hNone] at hRoot
  · have hHere := made_prefixes (a := []) hLength (List.nil_append [c]).symm (.inl rfl)
      (fun hSlash => hc (List.mem_singleton.mp hSlash).symm)
    rwa [hNone] at hHere

def mkdirError (dir : Bytes) : Fault Bytes → Error
  | .missing => ⟨.exception, ascii "paths: mkdir " ++ dir ++ ascii ": " ++
      ascii "No such file or directory"⟩
  | .notDirectory =>
    ⟨.validation, ascii "paths: a component of " ++ dir ++ ascii " is not a directory"⟩
  | .refused reason => ⟨.exception, ascii "paths: mkdir " ++ dir ++ ascii ": " ++ reason⟩

inductive Reports (path : Bytes) : Option (List (Step Bytes) × Fault Bytes) → Option Error → Prop
  | none : Reports path none none
  | failed {dir : Bytes} {fault : Fault Bytes} (hPrefix : dir <+: path) :
      Reports path (some (names dir, fault)) (some (mkdirError dir fault))

theorem mkdirOne_failed {fault : Fault Bytes}
    (h : t.mkdir refuse (start cwd path) (names path) = (.failed fault, t')) :
    mkdirOne (treeSystem cwd refuse) path t = (some (mkdirError path fault), t') := by
  rw [mkdirOne, treeSystem]
  dsimp only
  rw [treeMkdir, h]
  cases fault with
  | missing => rfl
  | notDirectory => rfl
  | refused reason => rfl

theorem mkdirOne_answered {answer : Answer Bytes}
    (h : t.mkdir refuse (start cwd path) (names path) = (answer, t'))
    (hAnswer : ∀ fault, answer ≠ .failed fault) :
    mkdirOne (treeSystem cwd refuse) path t = (none, t') := by
  rw [mkdirOne, treeSystem]
  dsimp only
  rw [treeMkdir, h]
  cases answer with
  | made => rfl
  | there => rfl
  | failed fault => exact absurd rfl (hAnswer fault)

theorem reports_cons {dir : Bytes} {paths : List (List (Step Bytes))}
    {r : Option Error × DirTree Bytes} (rest : DirTree Bytes → Option Error × DirTree Bytes)
    (hPrefix : dir <+: path) (hStart : start cwd dir = start cwd path)
    (hFail : ∀ err next, mkdirOne (treeSystem cwd refuse) dir t = (some err, next) →
      r = (some err, next))
    (hRest : ∀ next, mkdirOne (treeSystem cwd refuse) dir t = (none, next) → r = rest next)
    (ih : ∀ next, (rest next).2 = (next.mkdirs refuse (start cwd path) paths).2 ∧
      Reports path (next.mkdirs refuse (start cwd path) paths).1 (rest next).1) :
    r.2 = (t.mkdirs refuse (start cwd path) (names dir :: paths)).2 ∧
      Reports path (t.mkdirs refuse (start cwd path) (names dir :: paths)).1 r.1 := by
  rw [DirTree.mkdirs, ← hStart]
  cases hMkdir : t.mkdir refuse (start cwd dir) (names dir) with
  | mk answer next =>
    rw [hStart]
    cases answer with
    | made =>
      rw [hRest next (mkdirOne_answered hMkdir fun fault h => by cases h)]
      exact ih next
    | there =>
      rw [hRest next (mkdirOne_answered hMkdir fun fault h => by cases h)]
      exact ih next
    | failed fault =>
      rw [hFail _ next (mkdirOne_failed hMkdir)]
      exact ⟨rfl, .failed hPrefix⟩

theorem mkdirAll_tree (cwd : List Bytes) (refuse : List Bytes → Option Bytes) (path : Bytes)
    (t : DirTree Bytes) {positions : List Nat} (h : ∀ i ∈ positions, 1 ≤ i) :
    (mkdirAll (treeSystem cwd refuse) path positions t).2 =
        (t.mkdirs refuse (start cwd path) (made path positions)).2 ∧
      Reports path (t.mkdirs refuse (start cwd path) (made path positions)).1
        (mkdirAll (treeSystem cwd refuse) path positions t).1 := by
  induction positions generalizing t with
  | nil =>
    refine reports_cons (fun next => (none, next)) (List.prefix_refl path) rfl
      (fun err next hOne => hOne) (fun next hOne => hOne) fun next => ⟨rfl, .none⟩
  | cons i rest ih =>
    obtain ⟨hi, hRest⟩ := List.forall_mem_cons.mp h
    rw [made]
    by_cases hSlash : path[i]? = some slash
    · rw [if_pos hSlash]
      refine reports_cons (mkdirAll (treeSystem cwd refuse) path rest) (List.take_prefix i path)
        (start_take hi) (fun err next hOne => ?_) (fun next hOne => ?_) fun next => ih next hRest
      · rw [mkdirAll, mkdirPrefixes, if_pos hSlash, hOne]
      · rw [mkdirAll, mkdirPrefixes, if_pos hSlash, hOne]
        rfl
    · have hSkip : mkdirAll (treeSystem cwd refuse) path (i :: rest) t =
          mkdirAll (treeSystem cwd refuse) path rest t := by
        rw [mkdirAll, mkdirPrefixes, if_neg hSlash]
        rfl
      rw [if_neg hSlash, hSkip]
      exact ih t hRest

/-- What `paths_ensure_dir` says of the tree it leaves. -/
inductive Verdict (cwd : List Bytes) (refuse : List Bytes → Option Bytes) (path : Bytes)
    (t : DirTree Bytes) : Option Error → Prop
  | empty (hEmpty : path = []) :
      Verdict cwd refuse path t (some ⟨.validation, ascii "paths: empty directory path"⟩)
  | ready {pos : List Bytes}
      (hWalk : (t.walk (start cwd path) (names path) : Except (Fault Bytes) _) = .ok pos)
      (hDir : t.kind pos = some .directory) : Verdict cwd refuse path t none
  | notDirectory {dir : Bytes} {front : List (Step Bytes)} {step : Step Bytes} {last : List Bytes}
      (hPrefix : dir <+: path) (hNames : names dir = front ++ [step])
      (hWalk : (t.walk (start cwd path) front : Except (Fault Bytes) _) = .ok last)
      (hMove : (t.move last step : Except (Fault Bytes) _) = .error .notDirectory) :
      Verdict cwd refuse path t (some (mkdirError dir .notDirectory))
  | refused {dir : Bytes} {front : List (Step Bytes)} {step : Step Bytes} {last : List Bytes}
      {reason : Bytes} (hPrefix : dir <+: path) (hNames : names dir = front ++ [step])
      (hWalk : (t.walk (start cwd path) front : Except (Fault Bytes) _) = .ok last)
      (hMove : (t.move last step : Except (Fault Bytes) _) = .error .missing)
      (hReason : refuse (step.target last) = some reason) :
      Verdict cwd refuse path t (some (mkdirError dir (.refused reason)))
  | other {pos : List Bytes}
      (hWalk : (t.walk (start cwd path) (names path) : Except (Fault Bytes) _) = .ok pos)
      (hOther : t.kind pos ≠ some .directory) (hSlash : path.getLast? ≠ some slash) :
      Verdict cwd refuse path t
        (some ⟨.validation, ascii "paths: " ++ path ++ ascii " exists and is not a directory"⟩)
  | otherSlash {pos : List Bytes}
      (hWalk : (t.walk (start cwd path) (names path) : Except (Fault Bytes) _) = .ok pos)
      (hOther : t.kind pos ≠ some .directory) (hSlash : path.getLast? = some slash) :
      Verdict cwd refuse path t
        (some ⟨.exception, ascii "paths: stat " ++ path ++ ascii ": " ++ ascii "Not a directory"⟩)

theorem mkdirAll_ensure (cwd : List Bytes) (refuse : List Bytes → Option Bytes) (t : DirTree Bytes)
    (h : path ≠ []) :
    (mkdirAll (treeSystem cwd refuse) path (List.range' 1 (path.length - 1)) t).2 =
        (t.ensure refuse (start cwd path) [] (names path)).2 ∧
      Reports path (t.ensure refuse (start cwd path) [] (names path)).1
        (mkdirAll (treeSystem cwd refuse) path (List.range' 1 (path.length - 1)) t).1 := by
  have hTree := mkdirAll_tree cwd refuse path t
    fun i (hi : i ∈ List.range' 1 (path.length - 1)) => (List.mem_range'_1.mp hi).1
  rwa [mkdirs_eq_ensure (path_prefixes h) (List.nil_append _) rfl] at hTree

theorem Reports.verdict {fault : Option (List (Step Bytes) × Fault Bytes)} {err : Error}
    (hReports : Reports path fault (some err))
    (hEnds : Ends refuse t (start cwd path) [] (names path) fault) :
    Verdict cwd refuse path t (some err) := by
  cases hReports with
  | failed hPrefix =>
    cases hEnds with
    | notDirectory hSteps hPath hWalk hMove => exact .notDirectory hPrefix hPath hWalk hMove
    | refused hSteps hPath hWalk hMove hReason => exact .refused hPrefix hPath hWalk hMove hReason

theorem pathsEnsureDir_failed {err : Error} (h : path ≠ [])
    (hAll : mkdirAll (treeSystem cwd refuse) path (List.range' 1 (path.length - 1)) t =
      (some err, t')) :
    pathsEnsureDir (treeSystem cwd refuse) path t = (some err, t') := by
  rw [pathsEnsureDir, if_neg h, hAll]

theorem pathsEnsureDir_made {pos : List Bytes} (h : path ≠ [])
    (hAll : mkdirAll (treeSystem cwd refuse) path (List.range' 1 (path.length - 1)) t = (none, t'))
    (hWalk : (t'.walk (start cwd path) (names path) : Except (Fault Bytes) _) = .ok pos) :
    (pathsEnsureDir (treeSystem cwd refuse) path t).2 = t' ∧
      Verdict cwd refuse path t' (pathsEnsureDir (treeSystem cwd refuse) path t).1 := by
  rw [pathsEnsureDir, if_neg h, hAll, treeSystem]
  dsimp only
  rw [treeStat, hWalk]
  dsimp only
  by_cases hDir : t'.kind pos = some .directory
  · rw [if_pos hDir]
    exact ⟨rfl, .ready hWalk hDir⟩
  rw [if_neg hDir]
  by_cases hSlash : path.getLast? = some slash
  · rw [if_pos hSlash]
    exact ⟨rfl, .otherSlash hWalk hDir hSlash⟩
  · rw [if_neg hSlash]
    exact ⟨rfl, .other hWalk hDir hSlash⟩

theorem pathsEnsureDir_ends (cwd : List Bytes) (refuse : List Bytes → Option Bytes) (path : Bytes)
    (t : DirTree Bytes) :
    Extends t (pathsEnsureDir (treeSystem cwd refuse) path t).2 ∧
      OnWay Bytes t (pathsEnsureDir (treeSystem cwd refuse) path t).2 (start cwd path)
        (names path) ∧
      Verdict cwd refuse path (pathsEnsureDir (treeSystem cwd refuse) path t).2
        (pathsEnsureDir (treeSystem cwd refuse) path t).1 := by
  by_cases hEmpty : path = []
  · rw [pathsEnsureDir, if_pos hEmpty]
    exact ⟨Extends.refl t, fun p hp hNew => absurd hp hNew, .empty hEmpty⟩
  obtain ⟨hTree, hReports⟩ := mkdirAll_ensure cwd refuse t hEmpty
  obtain ⟨hGrows, hEnds, hNews⟩ := ensure_ends refuse t (start cwd path) [] (names path)
  rw [← hTree] at hGrows hEnds hNews
  cases hAll : mkdirAll (treeSystem cwd refuse) path (List.range' 1 (path.length - 1)) t with
  | mk failure left =>
    rw [hAll] at hGrows hEnds hNews hReports
    cases failure with
    | some err =>
      rw [pathsEnsureDir_failed hEmpty hAll]
      exact ⟨hGrows, hNews, hReports.verdict hEnds⟩
    | none =>
      generalize (t.ensure refuse (start cwd path) [] (names path)).1 = fault at hReports hEnds
      cases hReports
      cases hEnds with
      | done hWalk =>
        obtain ⟨hLeft, hVerdict⟩ := pathsEnsureDir_made hEmpty hAll hWalk
        rw [hLeft]
        exact ⟨hGrows, hNews, hVerdict⟩

theorem pathsEnsureDir_there {pos : List Bytes} (h : path ≠ [])
    (hWalk : (t.walk (start cwd path) (names path) : Except (Fault Bytes) _) = .ok pos)
    (hDir : t.kind pos = some .directory) :
    pathsEnsureDir (treeSystem cwd refuse) path t = (none, t) := by
  obtain ⟨hTree, hReports⟩ := mkdirAll_ensure cwd refuse t h
  rw [ensure_there hWalk] at hTree hReports
  cases hAll : mkdirAll (treeSystem cwd refuse) path (List.range' 1 (path.length - 1)) t with
  | mk failure left =>
    rw [hAll] at hTree hReports
    cases hReports
    obtain rfl : left = t := hTree
    rw [pathsEnsureDir, if_neg h, hAll, treeSystem]
    dsimp only
    rw [treeStat, hWalk]
    dsimp only
    rw [if_pos hDir]

theorem Verdict.ready_of_none (h : Verdict cwd refuse path t none) :
    ∃ pos, (t.walk (start cwd path) (names path) : Except (Fault Bytes) _) = .ok pos ∧
      t.kind pos = some .directory := by
  cases h with
  | ready hWalk hDir => exact ⟨_, hWalk, hDir⟩

/-- Of any path in any tree: nothing that was there is lost or changed, what is new is a directory
on the way, and the answer is what the tree now says of the path; an error names the first prefix
that could not be made. After a success, the same call changes nothing. -/
theorem pathsEnsureDir_sound (cwd : List Bytes) (refuse : List Bytes → Option Bytes) (path : Bytes)
    (t : DirTree Bytes) :
    let r := pathsEnsureDir (treeSystem cwd refuse) path t
    Extends t r.2 ∧ OnWay Bytes t r.2 (start cwd path) (names path) ∧
      Verdict cwd refuse path r.2 r.1 ∧
      (r.1 = none → pathsEnsureDir (treeSystem cwd refuse) path r.2 = (none, r.2)) := by
  intro r
  obtain ⟨hGrows, hNews, hVerdict⟩ := pathsEnsureDir_ends cwd refuse path t
  refine ⟨hGrows, hNews, hVerdict, fun hDone => ?_⟩
  change r.1 = none at hDone
  have hReady : Verdict cwd refuse path r.2 none := hDone ▸ hVerdict
  obtain ⟨pos, hWalk, hDir⟩ := hReady.ready_of_none
  refine pathsEnsureDir_there ?_ hWalk hDir
  rintro rfl
  cases hDone

end Mua.Paths
