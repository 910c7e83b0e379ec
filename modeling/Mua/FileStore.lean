import Mua.WriteTool

/-! # Files under the tools

The three tools work on one set of files. Whatever the system answers, a call leaves its memory
blocks intact and is a step of a store of texts, or an error that leaves the files as they were but
for a front of the text that was to be written.
-/

namespace Mua.Tools

open Agent Session Lines Search

section Read

variable {scan : ReadScan} {skip want k eintr : Nat} {rest file path : Bytes} {offset limit : Int}
  {lib : JsonLib} {openFile : Bytes → FileAnswer} {args : CJson} {reads : Nat → ReadResult}

theorem RegularRead.outcome (h : RegularRead lib openFile args path offset limit file)
    (reads : Nat → ReadResult) :
    (∃ msg, readExecute lib openFile reads args = fail msg) ∨
      readExecute lib openFile reads args = succeed (readContent offset limit file) := by
  have hRead := readScanFile_sound reads 0 0 file h.tracks
  rw [h.execute]
  generalize readScanFile reads 0 0 file { offset, limit } = answer at hRead
  obtain ⟨last, status⟩ := answer
  cases status with
  | ok => exact .inr (congrArg succeed (hRead (.inl rfl)).content_eq)
  | capped => exact .inr (congrArg succeed (hRead (.inr rfl)).content_eq)
  | binary => exact .inl ⟨_, rfl⟩
  | ioError reason => exact .inl ⟨_, rfl⟩

theorem RegularRead.succeeds (h : RegularRead lib openFile args path offset limit file)
    (hReads : ReadsWell reads) (hFree : NulFree file) :
    readExecute lib openFile reads args = succeed (readContent offset limit file) := by
  have hRead := readScanFile_reads hReads (hReads.start 0) hFree h.tracks
  rw [h.execute]
  generalize readScanFile reads 0 0 file { offset, limit } = answer at hRead
  obtain ⟨last, status⟩ := answer
  have hContent := hRead.content_eq
  rcases hRead.succeeds with rfl | rfl
  · exact congrArg succeed hContent
  · exact congrArg succeed hContent

end Read

variable {reads : Nat → ReadResult} {writes : Nat → WriteResult} {k eintr gotTotal : Nat}
  {rest block text data file path old new content : Bytes} {sys : EditSystem}

theorem editRewrite_sound (sys : EditSystem) (path : Bytes) (hText : text <+: data)
    (f : OpenFile) :
    (∃ msg left, editRewrite sys path f data text.length = some (some (fail msg), left) ∧
        (left = f.content ∨ left <+: text)) ∨
      editRewrite sys path f data text.length = some (none, text) := by
  have hWrite := writeAll_sound sys.writes 0 0 hText
    (Nat.zero_le text.length)
  rw [List.take_zero] at hWrite
  rw [editRewrite]
  cases sys.ftruncate with
  | some reason => exact .inl ⟨_, _, rfl, .inl rfl⟩
  | none =>
    dsimp only
    cases sys.lseek with
    | some reason => exact .inl ⟨_, _, rfl, .inr List.nil_prefix⟩
    | none =>
      dsimp only
      rcases hWrite with ⟨f', reason, hWrite, hTorn⟩ | hWrite
      · rw [hWrite]
        exact .inl ⟨_, _, rfl, .inr hTorn⟩
      · rw [hWrite]
        cases sys.close with
        | some reason => exact .inl ⟨_, _, rfl, .inr List.prefix_rfl⟩
        | none => exact .inr rfl

def spliced (file : Bytes) (p oldLen : Nat) (new : Bytes) : Bytes :=
  file.take p ++ new ++ file.drop (p + oldLen)

/-- How an edit can end: by its result, and by what is in the file then. -/
inductive EditOutcome (path old new file : Bytes) : ToolResult → Bytes → Prop
  | replaced {p : Nat} (hFits : file.length ≤ kToolEditFileCap)
      (hOnce : positions old file = [p]) :
      EditOutcome path old new file (replaced path) (spliced file p old.length new)
  | torn {p : Nat} {front : Bytes} (msg : Bytes) (hFits : file.length ≤ kToolEditFileCap)
      (hOnce : positions old file = [p]) (hFront : front <+: spliced file p old.length new) :
      EditOutcome path old new file (fail msg) front
  | kept (msg : Bytes) : EditOutcome path old new file (fail msg) file

theorem editOpenAndRead_sound (hOpened : sys.openFile path = .opened true file) :
    (∃ msg, editOpenAndRead sys path = some (.error (fail msg))) ∨
      file.length ≤ kToolEditFileCap ∧
        ∃ data, editOpenAndRead sys path = some (.ok (data, file.length)) ∧ file <+: data := by
  rw [editOpenAndRead, hOpened]
  dsimp only
  split
  · exact .inl ⟨_, rfl⟩
  rename_i hFits
  have hRoom : file.length ≤ (sys.xmalloc (max file.length 1)).length := by
    rw [EditSystem.xmalloc, List.length_map, List.length_range]
    exact Nat.le_max_left _ _
  rcases editRead_sound sys.reads 0 0 (List.drop_zero (l := file)) (Nat.zero_le _)
    List.nil_prefix hRoom with ⟨reason, hRead⟩ | ⟨data, hRead, hFront⟩
  · rw [hRead]
    exact .inl ⟨_, rfl⟩
  · rw [hRead]
    exact .inr ⟨Nat.le_of_not_lt hFits, data, rfl, hFront⟩

/-- No range leaves its block and no size wraps, whichever call of the system fails. -/
theorem editFile_sound (hOpened : sys.openFile path = .opened true file) (hOld : old ≠ [])
    (new : Bytes) :
    ∃ result left, editFile sys path old new = some (result, left) ∧
      EditOutcome path old new file result left := by
  have hContent : sys.content path = file := by rw [EditSystem.content, hOpened]
  rw [editFile, hContent]
  rcases editOpenAndRead_sound hOpened with ⟨msg, hRead⟩ | ⟨hFits, data, hRead, hFront⟩
  · rw [hRead]
    exact ⟨_, _, rfl, .kept msg⟩
  rw [hRead, Option.bind_some]
  dsimp only
  rw [countOccurrences_eq hFront (List.prefix_append old [0]) hOld, Option.bind_some]
  cases hPositions : positions old file with
  | nil => exact ⟨_, _, rfl, .kept _⟩
  | cons p ps =>
    cases ps with
    | nil =>
      have hOccurs : Occurs old file p := by
        rw [← mem_positions hOld, hPositions]
        exact List.mem_singleton_self p
      obtain ⟨result, hSplice, hText⟩ := editSplice_eq sys new hFront hOccurs hOld
      have hCount : (Found.add ⟨0, 0⟩ [p]).count = 1 := rfl
      have hFirst : (Found.add ⟨0, 0⟩ [p]).first = p := rfl
      rw [if_pos hCount, hFirst, hSplice, Option.bind_some]
      dsimp only
      rcases editRewrite_sound sys path hText ⟨file, file.length⟩ with
        ⟨msg, left, hRewrite, rfl | hTorn⟩ | hRewrite
      · rw [hRewrite]
        exact ⟨_, _, rfl, .kept msg⟩
      · rw [hRewrite]
        exact ⟨_, _, rfl, .torn msg hFits hPositions hTorn⟩
      · rw [hRewrite]
        exact ⟨_, _, rfl, .replaced hFits hPositions⟩
    | cons q ps =>
      have hCount : (Found.add ⟨0, 0⟩ (p :: q :: ps)).count =
          min kToolEditCountCap (ps.length + 2) := by
        rw [Found.add, Nat.zero_add]
        rfl
      have hCap : 1 < kToolEditCountCap := by decide
      rw [hCount, if_neg (by omega), if_neg (by omega)]
      exact ⟨_, _, rfl, .kept _⟩

/-- How a write can end; `none` is a file that was not opened. -/
inductive WriteOutcome (path content : Bytes) : ToolResult → Option Bytes → Prop
  | wrote : WriteOutcome path content (wrote content.length path) (some content)
  | torn {front : Bytes} (msg : Bytes) (hFront : front <+: content) :
      WriteOutcome path content (fail msg) (some front)
  | refused (msg : Bytes) : WriteOutcome path content (fail msg) none

theorem writeFile_sound (sys : WriteSystem) (path content : Bytes) :
    ∃ result left, writeFile sys path content = some (result, left) ∧
      WriteOutcome path content result left := by
  have hWrite := writeAll_sound sys.writes 0 0
    (List.prefix_refl content) (Nat.zero_le content.length)
  rw [List.take_zero] at hWrite
  rw [writeFile]
  split
  · exact ⟨_, _, rfl, .refused _⟩
  split
  · exact ⟨_, _, rfl, .refused _⟩
  rcases hWrite with ⟨f, reason, hWrite, hTorn⟩ | hWrite
  · rw [hWrite]
    exact ⟨_, _, rfl, .torn _ hTorn⟩
  · rw [hWrite, Option.map_some]
    dsimp only
    cases sys.close with
    | some reason => exact ⟨_, _, rfl, .torn _ List.prefix_rfl⟩
    | none => exact ⟨_, _, rfl, .wrote⟩

/-- The regular files there are. Which of them a path names is given beside them: two paths may
name one file, and no call changes what a path names. -/
abbrev Files (ι : Type) := ι → Option Bytes

def Files.put {ι : Type} [DecidableEq ι] (files : Files ι) (id : ι) (file : Bytes) : Files ι :=
  Function.update files id (some file)

inductive OpenAnswer
  | granted
  | openFailed (reason : Bytes)
  | statFailed (reason : Bytes)
  | irregular
  deriving DecidableEq, Repr

def noSuchFile : Bytes := ascii "No such file or directory"

def Files.openFile {ι : Type} (resolve : Bytes → ι) (files : Files ι) (answer : OpenAnswer)
    (path : Bytes) : FileAnswer :=
  match answer with
  | .granted =>
    match files (resolve path) with
    | some file => .opened true file
    | none => .openFailed noSuchFile
  | .openFailed reason => .openFailed reason
  | .statFailed reason => .statFailed reason
  | .irregular => .opened false []

inductive FileCall
  | read (args : CJson) (answer : OpenAnswer) (reads : Nat → ReadResult)
  | write (args : CJson) (sys : WriteSystem)
  | edit (args : CJson) (answer : OpenAnswer) (sys : EditSystem)

/-- What is left in the file that the arguments name, if it was opened. -/
def Files.leave {ι : Type} [DecidableEq ι] (resolve : Bytes → ι) (files : Files ι) (args : CJson)
    (left : Option Bytes) : Files ι :=
  match jsonGetCstr args (ascii "path"), left with
  | some path, some file => files.put (resolve path) file
  | _, _ => files

def editLeaves (openFile : Bytes → FileAnswer) (args : CJson) (left : Option Bytes) :
    Option Bytes :=
  match (jsonGetCstr args (ascii "path")).map openFile with
  | some (.opened true _) => left
  | _ => none

def fileStep {ι : Type} [DecidableEq ι] (resolve : Bytes → ι) (lib : JsonLib) (files : Files ι) :
    FileCall → Option (Files ι × ToolResult)
  | .read args answer reads =>
    some (files, readExecute lib (files.openFile resolve answer) reads args)
  | .write args sys =>
    (writeExecute sys args).map fun (result, left) => (files.leave resolve args left, result)
  | .edit args answer sys =>
    let openFile := files.openFile resolve answer
    (editExecute { sys with openFile } args).map fun (result, left) =>
      (files.leave resolve args (editLeaves openFile args left), result)

inductive FileOp
  | read (path : Bytes) (offset limit : Int)
  | write (path content : Bytes)
  | edit (path old new : Bytes)
  | refused (msg : Bytes)
  deriving DecidableEq, Repr

def readOp (lib : JsonLib) (args : CJson) : FileOp :=
  match jsonGetCstr args (ascii "path") with
  | none => .refused (ascii "read: path is required")
  | some path =>
    if path = [] then .refused (ascii "read: path is required")
    else
      match optPosInt lib args (ascii "offset") 1,
        optPosInt lib args (ascii "limit") (2 ^ 63 - 1) with
      | some offset, some limit => .read path offset limit
      | _, _ => .refused (ascii "read: offset and limit must be integers >= 1")

def writeOp (args : CJson) : FileOp :=
  match jsonGetCstr args (ascii "path") with
  | none => .refused (ascii "write: path is required")
  | some path =>
    if path = [] then .refused (ascii "write: path is required")
    else
      match jsonGetCstr args (ascii "content") with
      | none => .refused (ascii "write: content is required")
      | some content => .write path content

def editOp (args : CJson) : FileOp :=
  match jsonGetCstr args (ascii "path") with
  | none => .refused (ascii "edit: path is required")
  | some path =>
    if path = [] then .refused (ascii "edit: path is required")
    else
      match jsonGetCstr args (ascii "old_string"), jsonGetCstr args (ascii "new_string") with
      | some old, some new =>
        if old = [] then .refused (ascii "edit: old_string is empty")
        else if old = new then .refused (ascii "edit: old_string and new_string are identical")
        else .edit path old new
      | _, _ => .refused (ascii "edit: old_string and new_string are required")

def FileCall.op (lib : JsonLib) : FileCall → FileOp
  | .read args _ _ => readOp lib args
  | .write args _ => writeOp args
  | .edit args _ _ => editOp args

def FileOp.target {ι : Type} (resolve : Bytes → ι) (files : Files ι) : FileOp → Option (ι × Bytes)
  | .write path content => some (resolve path, content)
  | .edit path old new =>
    (files (resolve path)).bind fun file =>
      if kToolEditFileCap < file.length then none
      else
        match positions old file with
        | [p] => some (resolve path, spliced file p old.length new)
        | _ => none
  | _ => none

def FileOp.result {ι : Type} (resolve : Bytes → ι) (files : Files ι) : FileOp → ToolResult
  | .refused msg => fail msg
  | .read path offset limit =>
    match files (resolve path) with
    | none => fail (ascii "read: cannot open " ++ path ++ ascii ": " ++ noSuchFile)
    | some file => succeed (readContent offset limit file)
  | .write path content => wrote content.length path
  | .edit path old _ =>
    match files (resolve path) with
    | none => fail (ascii "edit: cannot open " ++ path ++ ascii ": " ++ noSuchFile)
    | some file =>
      if kToolEditFileCap < file.length then
        fail (ascii "edit: " ++ path ++ ascii " exceeds the 4 MiB edit cap")
      else
        match positions old file with
        | [] => notFound path
        | [_] => replaced path
        | _ :: _ :: ps => notUnique (min kToolEditCountCap (ps.length + 2)) path

def FileOp.after {ι : Type} [DecidableEq ι] (resolve : Bytes → ι) (files : Files ι) (op : FileOp) :
    Files ι :=
  match op.target resolve files with
  | some (id, text) => files.put id text
  | none => files

variable {ι : Type} [DecidableEq ι] {resolve : Bytes → ι} {lib : JsonLib} {files : Files ι}
  {args : CJson} {answer : OpenAnswer} {op : FileOp}

inductive ReadCase (lib : JsonLib) (args : CJson) : FileOp → Prop
  | refused {msg : Bytes}
      (hExecute : ∀ openFile reads, readExecute lib openFile reads args = fail msg) :
      ReadCase lib args (.refused msg)
  | read {path : Bytes} {offset limit : Int} (hPath : jsonGetCstr args (ascii "path") = some path)
      (hNe : path ≠ []) (hOffset : optPosInt lib args (ascii "offset") 1 = some offset)
      (hLimit : optPosInt lib args (ascii "limit") (2 ^ 63 - 1) = some limit) :
      ReadCase lib args (.read path offset limit)

theorem readOp_case (lib : JsonLib) (args : CJson) : ReadCase lib args (readOp lib args) := by
  rw [readOp]
  cases hPath : jsonGetCstr args (ascii "path") with
  | none =>
    refine .refused fun openFile reads => ?_
    rw [readExecute, hPath]
  | some path =>
    dsimp only
    split
    · rename_i hEmpty
      refine .refused fun openFile reads => ?_
      rw [readExecute, hPath]
      exact if_pos hEmpty
    rename_i hNe
    cases hOffset : optPosInt lib args (ascii "offset") 1 with
    | none =>
      refine .refused fun openFile reads => ?_
      rw [readExecute, hPath]
      dsimp only
      rw [if_neg hNe, hOffset]
    | some offset =>
      cases hLimit : optPosInt lib args (ascii "limit") (2 ^ 63 - 1) with
      | none =>
        refine .refused fun openFile reads => ?_
        rw [readExecute, hPath]
        dsimp only
        rw [if_neg hNe, hOffset, hLimit]
      | some limit => exact .read hPath hNe hOffset hLimit

inductive WriteCase (args : CJson) : FileOp → Prop
  | refused {msg : Bytes} (hExecute : ∀ sys, writeExecute sys args = some (fail msg, none)) :
      WriteCase args (.refused msg)
  | write {path content : Bytes} (hPath : jsonGetCstr args (ascii "path") = some path)
      (hContent : jsonGetCstr args (ascii "content") = some content)
      (hExecute : ∀ sys, writeExecute sys args = writeFile sys path content) :
      WriteCase args (.write path content)

theorem writeOp_case (args : CJson) : WriteCase args (writeOp args) := by
  rw [writeOp]
  cases hPath : jsonGetCstr args (ascii "path") with
  | none =>
    refine .refused fun sys => ?_
    rw [writeExecute, hPath]
  | some path =>
    dsimp only
    split
    · rename_i hEmpty
      refine .refused fun sys => ?_
      rw [writeExecute, hPath]
      exact if_pos hEmpty
    rename_i hNe
    cases hContent : jsonGetCstr args (ascii "content") with
    | none =>
      refine .refused fun sys => ?_
      rw [writeExecute, hPath]
      dsimp only
      rw [if_neg hNe, hContent]
    | some content =>
      refine .write hPath hContent fun sys => ?_
      rw [writeExecute, hPath]
      dsimp only
      rw [if_neg hNe, hContent]

inductive EditCase (args : CJson) : FileOp → Prop
  | refused {msg : Bytes} (hExecute : ∀ sys, editExecute sys args = some (fail msg, none)) :
      EditCase args (.refused msg)
  | edit {path old new : Bytes} (hPath : jsonGetCstr args (ascii "path") = some path)
      (hNe : path ≠ []) (hOld : jsonGetCstr args (ascii "old_string") = some old)
      (hNew : jsonGetCstr args (ascii "new_string") = some new) (hOldNe : old ≠ [])
      (hDiffer : old ≠ new)
      (hExecute : ∀ sys, editExecute sys args =
        (editFile sys path old new).map fun (result, file) => (result, some file)) :
      EditCase args (.edit path old new)

theorem editOp_case (args : CJson) : EditCase args (editOp args) := by
  rw [editOp]
  cases hPath : jsonGetCstr args (ascii "path") with
  | none =>
    refine .refused fun sys => ?_
    rw [editExecute, hPath]
  | some path =>
    dsimp only
    split
    · rename_i hEmpty
      refine .refused fun sys => ?_
      rw [editExecute, hPath]
      exact if_pos hEmpty
    rename_i hNe
    cases hOld : jsonGetCstr args (ascii "old_string") with
    | none =>
      refine .refused fun sys => ?_
      rw [editExecute, hPath]
      dsimp only
      rw [if_neg hNe, hOld]
    | some old =>
      cases hNew : jsonGetCstr args (ascii "new_string") with
      | none =>
        refine .refused fun sys => ?_
        rw [editExecute, hPath]
        dsimp only
        rw [if_neg hNe, hOld, hNew]
      | some new =>
        dsimp only
        split
        · rename_i hNil
          refine .refused fun sys => ?_
          rw [editExecute, hPath]
          dsimp only
          rw [if_neg hNe, hOld, hNew]
          exact if_pos hNil
        rename_i hOldNe
        split
        · rename_i hSame
          refine .refused fun sys => ?_
          rw [editExecute, hPath]
          dsimp only
          rw [if_neg hNe, hOld, hNew]
          dsimp only
          rw [if_neg hOldNe, if_pos hSame]
        · rename_i hDiffer
          refine .edit hPath hNe hOld hNew hOldNe hDiffer fun sys => ?_
          rw [editExecute, hPath]
          dsimp only
          rw [if_neg hNe, hOld, hNew]
          dsimp only
          rw [if_neg hOldNe, if_neg hDiffer]

/-- A call is a step of the store, or an error with the files as they were, or with one torn. -/
inductive Outcome {ι : Type} [DecidableEq ι] (resolve : Bytes → ι) (files : Files ι) (op : FileOp) :
    Files ι → ToolResult → Prop
  | done : Outcome resolve files op (op.after resolve files) (op.result resolve files)
  | failed (msg : Bytes) : Outcome resolve files op files (fail msg)
  | torn {id : ι} {text front : Bytes} (msg : Bytes)
      (hTarget : op.target resolve files = some (id, text)) (hFront : front <+: text) :
      Outcome resolve files op (files.put id front) (fail msg)

theorem Files.put_self {id : ι} (hFile : files id = some file) : files.put id file = files :=
  Function.update_eq_self_iff.mpr hFile.symm

omit [DecidableEq ι] in
theorem Files.opened_of_granted (hFile : files (resolve path) = some file) :
    files.openFile resolve .granted path = .opened true file := by
  rw [openFile, hFile]

omit [DecidableEq ι] in
theorem Files.opened (h : files.openFile resolve answer path = .opened true file) :
    files (resolve path) = some file := by
  cases answer with
  | granted =>
    rw [openFile] at h
    cases hFile : files (resolve path) with
    | none =>
      rw [hFile] at h
      cases h
    | some there =>
      rw [hFile] at h
      cases h
      rfl
  | openFailed reason => cases h
  | statFailed reason => cases h
  | irregular => cases h

theorem Files.leave_some (hPath : jsonGetCstr args (ascii "path") = some path) (left : Bytes) :
    files.leave resolve args (some left) = files.put (resolve path) left := by
  unfold leave
  rw [hPath]

theorem Files.leave_none : files.leave resolve args none = files := by
  unfold leave
  split
  · rename_i hNone
    cases hNone
  · rfl

section Leaves

variable {openFile : Bytes → FileAnswer} {left : Option Bytes}

theorem editLeaves_none : editLeaves openFile args none = none := by
  unfold editLeaves
  split
  · rfl
  · rfl

theorem editLeaves_opened (hPath : jsonGetCstr args (ascii "path") = some path)
    (hOpened : openFile path = .opened true file) : editLeaves openFile args left = left := by
  unfold editLeaves
  rw [hPath, Option.map_some, hOpened]

theorem editLeaves_refused (hPath : jsonGetCstr args (ascii "path") = some path)
    (hRefused : ∀ file, openFile path ≠ .opened true file) :
    editLeaves openFile args left = none := by
  unfold editLeaves
  rw [hPath, Option.map_some]
  split
  · rename_i file hOpened
    exact absurd (Option.some.inj hOpened) (hRefused file)
  · rfl

end Leaves

theorem editFile_refused (old new : Bytes)
    (hRefused : ∀ file, sys.openFile path ≠ .opened true file) :
    ∃ msg left, editFile sys path old new = some (fail msg, left) := by
  rw [editFile, editOpenAndRead]
  cases hAnswer : sys.openFile path with
  | openFailed reason => exact ⟨_, _, rfl⟩
  | statFailed reason => exact ⟨_, _, rfl⟩
  | opened regular file =>
    cases regular with
    | false => exact ⟨_, _, rfl⟩
    | true => exact absurd hAnswer (hRefused file)

theorem readStep_outcome (reads : Nat → ReadResult) :
    Outcome resolve files (readOp lib args) files
      (readExecute lib (files.openFile resolve answer) reads args) := by
  have hCase := readOp_case lib args
  generalize readOp lib args = op at hCase
  cases hCase with
  | refused hExecute =>
    rw [hExecute]
    exact .done
  | @read path offset limit hPath hNe hOffset hLimit =>
    cases hAnswer : files.openFile resolve answer path with
    | opened regular file =>
      cases regular with
      | true =>
        have hRead : RegularRead lib (files.openFile resolve answer) args path offset limit file :=
          ⟨hPath, hNe, hOffset, hLimit, hAnswer⟩
        rcases hRead.outcome reads with ⟨msg, hFailed⟩ | hRead
        · rw [hFailed]
          exact .failed msg
        · have hDone : (FileOp.read path offset limit).result resolve files =
              succeed (readContent offset limit file) := by
            rw [FileOp.result, Files.opened hAnswer]
          rw [hRead, ← hDone]
          exact .done
      | false =>
        rw [readExecute, hPath]
        dsimp only
        rw [if_neg hNe, hOffset, hLimit, hAnswer]
        exact .failed _
    | openFailed reason =>
      rw [readExecute, hPath]
      dsimp only
      rw [if_neg hNe, hOffset, hLimit, hAnswer]
      exact .failed _
    | statFailed reason =>
      rw [readExecute, hPath]
      dsimp only
      rw [if_neg hNe, hOffset, hLimit, hAnswer]
      exact .failed _

theorem writeStep_outcome (resolve : Bytes → ι) (files : Files ι) (sys : WriteSystem) :
    ∃ result left, writeExecute sys args = some (result, left) ∧
      Outcome resolve files (writeOp args) (files.leave resolve args left) result := by
  have hCase := writeOp_case args
  generalize writeOp args = op at hCase
  cases hCase with
  | refused hExecute =>
    refine ⟨_, _, hExecute sys, ?_⟩
    rw [Files.leave_none]
    exact .done
  | @write path content hPath hContent hExecute =>
    obtain ⟨result, left, hWrite, hOutcome⟩ := writeFile_sound sys path content
    refine ⟨result, left, (hExecute sys).trans hWrite, ?_⟩
    cases hOutcome with
    | wrote =>
      rw [Files.leave_some hPath]
      exact .done
    | torn msg hFront =>
      rw [Files.leave_some hPath]
      exact .torn msg rfl hFront
    | refused msg =>
      rw [Files.leave_none]
      exact .failed msg

theorem editStep_outcome (sys : EditSystem) (hSys : sys.openFile = files.openFile resolve answer) :
    ∃ result left, editExecute sys args = some (result, left) ∧
      Outcome resolve files (editOp args)
        (files.leave resolve args (editLeaves sys.openFile args left)) result := by
  have hCase := editOp_case args
  generalize editOp args = op at hCase
  cases hCase with
  | refused hExecute =>
    refine ⟨_, _, hExecute sys, ?_⟩
    rw [editLeaves_none, Files.leave_none]
    exact .done
  | @edit path old new hPath hNe hOld hNew hOldNe hDiffer hExecute =>
    by_cases hRefused : ∀ file, sys.openFile path ≠ .opened true file
    · obtain ⟨msg, left, hEdit⟩ := editFile_refused old new hRefused
      refine ⟨_, _, by rw [hExecute, hEdit]; rfl, ?_⟩
      rw [editLeaves_refused hPath hRefused, Files.leave_none]
      exact .failed msg
    simp only [ne_eq, not_forall, not_not] at hRefused
    obtain ⟨file, hOpened⟩ := hRefused
    have hFile : files (resolve path) = some file := Files.opened (hSys ▸ hOpened)
    obtain ⟨result, left, hEdit, hOutcome⟩ := editFile_sound hOpened hOldNe new
    refine ⟨_, _, by rw [hExecute, hEdit]; rfl, ?_⟩
    rw [editLeaves_opened hPath hOpened, Files.leave_some hPath]
    have hTarget : ∀ {p : Nat}, file.length ≤ kToolEditFileCap → positions old file = [p] →
        (FileOp.edit path old new).target resolve files =
          some (resolve path, spliced file p old.length new) := by
      intro p hFits hOnce
      rw [FileOp.target, hFile, Option.bind_some, if_neg (Nat.not_lt.mpr hFits), hOnce]
    cases hOutcome with
    | @replaced p hFits hOnce =>
      have hAfter : (FileOp.edit path old new).after resolve files =
          files.put (resolve path) (spliced file p old.length new) := by
        rw [FileOp.after, hTarget hFits hOnce]
      have hResult : (FileOp.edit path old new).result resolve files = replaced path := by
        rw [FileOp.result, hFile]
        dsimp only
        rw [if_neg (Nat.not_lt.mpr hFits), hOnce]
      rw [← hAfter, ← hResult]
      exact .done
    | torn msg hFits hOnce hFront => exact .torn msg (hTarget hFits hOnce) hFront
    | kept msg =>
      rw [Files.put_self hFile]
      exact .failed msg

theorem fileStep_outcome (resolve : Bytes → ι) (lib : JsonLib) (files : Files ι) (call : FileCall) :
    ∃ files' result, fileStep resolve lib files call = some (files', result) ∧
      Outcome resolve files (call.op lib) files' result := by
  cases call with
  | read args answer reads => exact ⟨_, _, rfl, readStep_outcome reads⟩
  | write args sys =>
    obtain ⟨result, left, hWrite, hOutcome⟩ := writeStep_outcome resolve files sys
    refine ⟨_, _, ?_, hOutcome⟩
    rw [fileStep, hWrite, Option.map_some]
  | edit args answer sys =>
    obtain ⟨result, left, hEdit, hOutcome⟩ := editStep_outcome
      { sys with openFile := files.openFile resolve answer } rfl
    refine ⟨_, _, ?_, hOutcome⟩
    rw [fileStep, hEdit, Option.map_some]

end Mua.Tools
