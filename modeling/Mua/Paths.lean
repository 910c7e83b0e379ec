import Mua.Session
import Mua.Lib.Directories

/-! # Paths

paths.c: `mkdir -p`. The walk over a path makes each prefix from the start. On a tree of directories
this comes to one walk down the path, and the tree that is left tells the error.
-/

namespace Mua.Paths

open Directories Session

inductive MkdirAnswer
  | made
  | exists'
  | notDir
  | failed (reason : Bytes)
  deriving DecidableEq, Repr

inductive StatAnswer
  | directory
  | other
  | failed (reason : Bytes)
  deriving DecidableEq, Repr

/-- mkdir(2) and stat(2) on a file system. -/
structure DirSystem (σ : Type) where
  mkdir : Bytes → σ → MkdirAnswer × σ
  stat : Bytes → σ → StatAnswer

section EnsureDir

variable {σ : Type} (sys : DirSystem σ)

def mkdirOne (dir : Bytes) (fs : σ) : Option Error × σ :=
  match sys.mkdir dir fs with
  | (.made, fs) => (none, fs)
  | (.exists', fs) => (none, fs)
  | (.notDir, fs) =>
    (some ⟨.validation, ascii "paths: a component of " ++ dir ++ ascii " is not a directory"⟩, fs)
  | (.failed reason, fs) =>
    (some ⟨.exception, ascii "paths: mkdir " ++ dir ++ ascii ": " ++ reason⟩, fs)

/-- The walk over the positions of a path, up to the first prefix that fails. -/
def mkdirPrefixes (path : Bytes) : List Nat → σ → Option Error × σ
  | [], fs => (none, fs)
  | i :: rest, fs =>
    if path[i]? = some slash then
      match mkdirOne sys (path.take i) fs with
      | (some err, fs) => (some err, fs)
      | (none, fs) => mkdirPrefixes path rest fs
    else mkdirPrefixes path rest fs

def mkdirAll (path : Bytes) (positions : List Nat) (fs : σ) : Option Error × σ :=
  match mkdirPrefixes sys path positions fs with
  | (some err, fs) => (some err, fs)
  | (none, fs) => mkdirOne sys path fs

def pathsEnsureDir (path : Bytes) (fs : σ) : Option Error × σ :=
  if path = [] then (some ⟨.validation, ascii "paths: empty directory path"⟩, fs)
  else
    -- from 1 on: an absolute path has no empty prefix made
    match mkdirAll sys path (List.range' 1 (path.length - 1)) fs with
    | (some err, fs) => (some err, fs)
    | (none, fs) =>
      match sys.stat path fs with
      | .directory => (none, fs)
      | .other =>
        (some ⟨.validation, ascii "paths: " ++ path ++ ascii " exists and is not a directory"⟩, fs)
      | .failed reason =>
        (some ⟨.exception, ascii "paths: stat " ++ path ++ ascii ": " ++ reason⟩, fs)

end EnsureDir

def component (name : Bytes) : Option (Step Bytes) :=
  if name = [] then none
  else if name = ascii "." then some .stay
  else if name = ascii ".." then some .up
  else some (.down name)

def names (path : Bytes) : List (Step Bytes) := (path.splitOn slash).filterMap component

def start (cwd : List Bytes) (path : Bytes) : List Bytes :=
  if path.head? = some slash then [] else cwd

variable (cwd : List Bytes) (refuse : List Bytes → Option Bytes)

/-- mkdir(2) on a tree, which may refuse to make a directory for reasons of its own. -/
def treeMkdir (path : Bytes) (t : DirTree Bytes) : MkdirAnswer × DirTree Bytes :=
  match t.mkdir refuse (start cwd path) (names path) with
  | (.made, t) => (.made, t)
  | (.there, t) => (.exists', t)
  | (.failed .notDirectory, t) => (.notDir, t)
  | (.failed .missing, t) => (.failed (ascii "No such file or directory"), t)
  | (.failed (.refused reason), t) => (.failed reason, t)

/-- stat(2): a slash at the end stands for a directory. -/
def treeStat (path : Bytes) (t : DirTree Bytes) : StatAnswer :=
  match (t.walk (start cwd path) (names path) : Except (Fault Bytes) _) with
  | .error .missing => .failed (ascii "No such file or directory")
  | .error .notDirectory => .failed (ascii "Not a directory")
  | .error (.refused reason) => .failed reason
  | .ok pos =>
    if t.kind pos = some .directory then .directory
    else if path.getLast? = some slash then .failed (ascii "Not a directory")
    else .other

def treeSystem : DirSystem (DirTree Bytes) where
  mkdir := treeMkdir cwd refuse
  stat := treeStat cwd

end Mua.Paths
