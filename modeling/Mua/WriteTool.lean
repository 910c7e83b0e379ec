import Mua.EditTool
import Mua.Paths

/-! # The write tool

The directories above the file are made, one prefix of the path at a time; the file is truncated
and written whole.
-/

namespace Mua.Tools

open Agent Session Paths

structure WriteSystem where
  mkdir : Bytes → MkdirAnswer
  stat : Bytes → StatAnswer
  openFile : Bytes → Option Bytes
  writes : Nat → WriteResult
  close : Option Bytes

/-- The answers as those of a file system; no two prefixes of a path are the same. -/
def WriteSystem.dirs (sys : WriteSystem) : DirSystem Unit where
  mkdir dir _ := (sys.mkdir dir, ())
  stat dir _ := sys.stat dir

def WriteSystem.ensureDir (sys : WriteSystem) (path : Bytes) : Option Error :=
  (pathsEnsureDir sys.dirs path ()).1

/-- The directory a path names before its last slash, if it has one. -/
def parentDir (path : Bytes) : Option Bytes :=
  (path.reverse.idxOf? slash).map fun i =>
    let last := path.length - 1 - i
    if last = 0 then [slash] else path.take last

def wrote (n : Nat) (path : Bytes) : ToolResult :=
  succeed (ascii "write: wrote " ++ decimal n ++ ascii " bytes to " ++ path)

/-- The work on a file: the result, and what the file has in it then if it was opened. -/
def writeFile (sys : WriteSystem) (path content : Bytes) : Option (ToolResult × Option Bytes) :=
  match (parentDir path).bind sys.ensureDir with
  | some err => some (fail (ascii "write: " ++ err.msg), none)
  | none =>
    match sys.openFile path with
    | some reason => some (fail (ascii "write: cannot open " ++ path ++ ascii ": " ++ reason), none)
    | none =>
      (writeAll sys.writes content content.length 0 0 0 ⟨[], 0⟩).map fun
        | (f, some reason) =>
          (fail (ascii "write: write " ++ path ++ ascii ": " ++ reason), some f.content)
        | (f, none) =>
          match sys.close with
          | some reason =>
            (fail (ascii "write: close " ++ path ++ ascii ": " ++ reason), some f.content)
          | none => (wrote content.length path, some f.content)

def writeExecute (sys : WriteSystem) (args : CJson) : Option (ToolResult × Option Bytes) :=
  match jsonGetCstr args (ascii "path") with
  | none => some (fail (ascii "write: path is required"), none)
  | some path =>
    if path = [] then some (fail (ascii "write: path is required"), none)
    else
      match jsonGetCstr args (ascii "content") with
      | none => some (fail (ascii "write: content is required"), none)
      | some content => writeFile sys path content

structure WriteSystem.Succeeds (sys : WriteSystem) : Prop where
  mkdir : ∀ dir, sys.mkdir dir = .made ∨ sys.mkdir dir = .exists'
  stat : ∀ dir, sys.stat dir = .directory
  openFile : ∀ path, sys.openFile path = none
  writes : WritesWell sys.writes
  close : sys.close = none

variable {sys : WriteSystem} {path content : Bytes}

theorem mkdirOne_succeeds (hSys : sys.Succeeds) (dir : Bytes) :
    mkdirOne sys.dirs dir () = (none, ()) := by
  rw [mkdirOne, WriteSystem.dirs]
  dsimp only
  rcases hSys.mkdir dir with hMade | hThere
  · rw [hMade]
  · rw [hThere]

theorem mkdirPrefixes_succeeds (hSys : sys.Succeeds) (positions : List Nat) :
    mkdirPrefixes sys.dirs path positions () = (none, ()) := by
  induction positions with
  | nil => rfl
  | cons i rest ih =>
    rw [mkdirPrefixes, mkdirOne_succeeds hSys]
    dsimp only
    rw [ih]
    exact ite_self _

theorem parentDir_ne {dir : Bytes} (h : parentDir path = some dir) : dir ≠ [] := by
  obtain ⟨i, hi, rfl⟩ := Option.map_eq_some_iff.mp h
  obtain ⟨hLt, -, -⟩ := List.idxOf?_eq_some_iff.mp hi
  rw [List.length_reverse] at hLt
  dsimp only
  split
  · exact List.cons_ne_nil _ _
  · rename_i hLast
    rw [Ne, List.take_eq_nil_iff, not_or]
    refine ⟨hLast, ?_⟩
    rintro rfl
    cases hLt

theorem ensureDir_succeeds (hSys : sys.Succeeds) :
    (parentDir path).bind sys.ensureDir = none := by
  cases hParent : parentDir path with
  | none => rfl
  | some dir =>
    rw [Option.bind_some, WriteSystem.ensureDir, pathsEnsureDir, if_neg (parentDir_ne hParent),
      mkdirAll, mkdirPrefixes_succeeds hSys]
    dsimp only
    rw [mkdirOne_succeeds hSys, WriteSystem.dirs]
    dsimp only
    rw [hSys.stat]

theorem writeFile_succeeds (hSys : sys.Succeeds) (path content : Bytes) :
    writeFile sys path content = some (wrote content.length path, some content) := by
  have hWrite := writeAll_writes hSys.writes (hSys.writes.start 0) (List.prefix_refl content)
    (Nat.zero_le content.length)
  rw [List.take_zero] at hWrite
  rw [writeFile, ensureDir_succeeds hSys]
  dsimp only
  rw [hSys.openFile]
  dsimp only
  rw [hWrite, Option.map_some]
  dsimp only
  rw [hSys.close]

end Mua.Tools
