import Mua.FileStore

/-! # Runs of the file tools

When the system does not fail, the results of any calls are those of a store of texts. When it may,
what a file holds is still known from the calls on it that have reported success since it was
written.
-/

namespace Mua.Tools

open Agent Session Lines Search

def fileRun {ι : Type} [DecidableEq ι] (resolve : Bytes → ι) (lib : JsonLib) (files : Files ι) :
    List FileCall → Option (Files ι × List ToolResult)
  | [] => some (files, [])
  | call :: calls =>
    (fileStep resolve lib files call).bind fun (files, result) =>
      (fileRun resolve lib files calls).map fun (files, results) => (files, result :: results)

/-- The store without the system: every request is answered in full. -/
def storeRun {ι : Type} [DecidableEq ι] (resolve : Bytes → ι) (files : Files ι) :
    List FileOp → Files ι × List ToolResult
  | [] => (files, [])
  | op :: ops =>
    ((storeRun resolve (op.after resolve files) ops).1,
      op.result resolve files :: (storeRun resolve (op.after resolve files) ops).2)

variable {ι : Type} [DecidableEq ι] {resolve : Bytes → ι} {lib : JsonLib}
  {files mid last : Files ι} {call : FileCall} {calls between : List FileCall} {args : CJson}
  {id : ι} {path file text content : Bytes} {op : FileOp} {result : ToolResult}
  {results : List ToolResult}

def FileCall.Succeeds : FileCall → Prop
  | .read _ answer reads => answer = .granted ∧ ReadsWell reads
  | .write _ sys => sys.Succeeds
  | .edit _ answer sys => answer = .granted ∧ sys.Succeeds

def Files.Texts {ι : Type} (files : Files ι) : Prop :=
  ∀ id file, files id = some file → NulFree file

theorem Files.Texts.put (h : files.Texts) (hFile : NulFree file) : (files.put id file).Texts := by
  intro other there hThere
  rw [Files.put, Function.update_apply] at hThere
  split at hThere
  · obtain rfl := Option.some.inj hThere
    exact hFile
  · exact h other there hThere

omit [DecidableEq ι] in
/-- What a call puts into a file is a text. -/
theorem target_nulFree (h : files.Texts)
    (hTarget : (call.op lib).target resolve files = some (id, text)) : NulFree text := by
  cases call with
  | read args answer reads =>
    have hCase := readOp_case lib args
    change (readOp lib args).target resolve files = _ at hTarget
    generalize readOp lib args = op at hCase hTarget
    cases hCase with
    | refused hExecute => cases hTarget
    | read hPath hNe hOffset hLimit => cases hTarget
  | write args sys =>
    have hCase := writeOp_case args
    change (writeOp args).target resolve files = _ at hTarget
    generalize writeOp args = op at hCase hTarget
    cases hCase with
    | refused hExecute => cases hTarget
    | write hPath hContent hExecute =>
      cases hTarget
      exact nulFree_jsonGetCstr hContent
  | edit args answer sys =>
    have hCase := editOp_case args
    change (editOp args).target resolve files = _ at hTarget
    generalize editOp args = op at hCase hTarget
    cases hCase with
    | refused hExecute => cases hTarget
    | @edit path' old new hPath hNe hOld hNew hOldNe hDiffer hExecute =>
      obtain ⟨file, hFile, hTarget⟩ := Option.bind_eq_some_iff.mp hTarget
      have hFree := h (resolve path') file hFile
      split at hTarget
      · cases hTarget
      split at hTarget
      · cases hTarget
        rw [spliced, nulFree_append, nulFree_append]
        refine ⟨⟨?_, nulFree_jsonGetCstr hNew⟩, ?_⟩
        · exact fun hMem => hFree (List.mem_of_mem_take hMem)
        · exact fun hMem => hFree (List.mem_of_mem_drop hMem)
      · cases hTarget

theorem after_texts (h : files.Texts) : ((call.op lib).after resolve files).Texts := by
  rw [FileOp.after]
  split
  · rename_i id text hTarget
    exact h.put (target_nulFree h hTarget)
  · exact h

theorem readStep_succeeds {reads : Nat → ReadResult} (hReads : ReadsWell reads)
    (hTexts : files.Texts) :
    (readOp lib args).after resolve files = files ∧
      readExecute lib (files.openFile resolve .granted) reads args =
        (readOp lib args).result resolve files := by
  have hCase := readOp_case lib args
  generalize readOp lib args = op at hCase
  cases hCase with
  | refused hExecute => exact ⟨rfl, hExecute _ _⟩
  | @read path offset limit hPath hNe hOffset hLimit =>
    refine ⟨rfl, ?_⟩
    cases hFile : files (resolve path) with
    | none =>
      have hAnswer : files.openFile resolve .granted path = .openFailed noSuchFile := by
        rw [Files.openFile, hFile]
      rw [FileOp.result, hFile, readExecute, hPath]
      dsimp only
      rw [if_neg hNe, hOffset, hLimit, hAnswer]
    | some file =>
      have hRead : RegularRead lib (files.openFile resolve .granted) args path offset limit file :=
        ⟨hPath, hNe, hOffset, hLimit, Files.opened_of_granted hFile⟩
      rw [hRead.succeeds hReads (hTexts (resolve path) file hFile), FileOp.result, hFile]

theorem writeStep_succeeds (resolve : Bytes → ι) (files : Files ι) {sys : WriteSystem}
    (hSys : sys.Succeeds) :
    ∃ left, writeExecute sys args = some ((writeOp args).result resolve files, left) ∧
      files.leave resolve args left = (writeOp args).after resolve files := by
  have hCase := writeOp_case args
  generalize writeOp args = op at hCase
  cases hCase with
  | refused hExecute => exact ⟨none, hExecute sys, Files.leave_none⟩
  | @write path content hPath hContent hExecute =>
    exact ⟨some content, (hExecute sys).trans (writeFile_succeeds hSys path content),
      Files.leave_some hPath content⟩

theorem editStep_succeeds {sys : EditSystem} (hSys : sys.Succeeds)
    (hOpen : sys.openFile = files.openFile resolve .granted) :
    ∃ left, editExecute sys args = some ((editOp args).result resolve files, left) ∧
      files.leave resolve args (editLeaves sys.openFile args left) =
        (editOp args).after resolve files := by
  have hCase := editOp_case args
  generalize editOp args = op at hCase
  cases hCase with
  | refused hExecute =>
    refine ⟨none, hExecute sys, ?_⟩
    rw [editLeaves_none, Files.leave_none]
    rfl
  | @edit path old new hPath hNe hOld hNew hOldNe hDiffer hExecute =>
    rw [hExecute]
    cases hFile : files (resolve path) with
    | none =>
      have hAnswer : sys.openFile path = .openFailed noSuchFile := by
        rw [hOpen, Files.openFile, hFile]
      refine ⟨some [], ?_, ?_⟩
      · rw [FileOp.result, hFile, editFile, editOpenAndRead, EditSystem.content, hAnswer]
        rfl
      · have hRefused : ∀ file, sys.openFile path ≠ .opened true file := by
          intro file hOpened
          rw [hAnswer] at hOpened
          cases hOpened
        rw [editLeaves_refused hPath hRefused, Files.leave_none, FileOp.after, FileOp.target, hFile]
        rfl
    | some file =>
      have hOpened : sys.openFile path = .opened true file := by
        rw [hOpen, Files.opened_of_granted hFile]
      have hLeave : ∀ left,
          files.leave resolve args (editLeaves sys.openFile args (some left)) =
            files.put (resolve path) left := by
        intro left
        rw [editLeaves_opened hPath hOpened, Files.leave_some hPath]
      rw [FileOp.result, FileOp.after, FileOp.target, hFile, Option.bind_some]
      dsimp only
      by_cases hFits : file.length ≤ kToolEditFileCap
      · have hCall : RegularEdit sys args path old new file :=
          ⟨hPath, hNe, hOld, hNew, hOldNe, hDiffer, hOpened, hFits⟩
        rw [hCall.editFile_eq hSys, if_neg (Nat.not_lt.mpr hFits), if_neg (Nat.not_lt.mpr hFits)]
        cases positions old file with
        | nil => exact ⟨_, rfl, (hLeave file).trans (Files.put_self hFile)⟩
        | cons p ps =>
          cases ps with
          | nil => exact ⟨_, rfl, hLeave _⟩
          | cons q ps => exact ⟨_, rfl, (hLeave file).trans (Files.put_self hFile)⟩
      · have hOver := Nat.lt_of_not_le hFits
        refine ⟨some file, ?_, ?_⟩
        · rw [editFile, editOpenAndRead, EditSystem.content, hOpened]
          dsimp only
          rw [if_pos hOver, if_pos hOver]
          rfl
        · rw [hLeave, if_pos hOver]
          exact Files.put_self hFile

theorem fileStep_succeeds (resolve : Bytes → ι) (lib : JsonLib) (hCall : call.Succeeds)
    (hTexts : files.Texts) :
    fileStep resolve lib files call =
      some ((call.op lib).after resolve files, (call.op lib).result resolve files) := by
  cases call with
  | read args answer reads =>
    obtain ⟨rfl, hReads⟩ := hCall
    obtain ⟨hAfter, hResult⟩ := readStep_succeeds hReads hTexts
    rw [fileStep, FileCall.op, hAfter, hResult]
  | write args sys =>
    obtain ⟨left, hWrite, hLeave⟩ := writeStep_succeeds resolve files hCall
    rw [fileStep, FileCall.op, hWrite, Option.map_some, ← hLeave]
  | edit args answer sys =>
    obtain ⟨rfl, hSys⟩ := hCall
    have hOwn : EditSystem.Succeeds { sys with openFile := files.openFile resolve .granted } :=
      ⟨hSys.reads, hSys.ftruncate, hSys.lseek, hSys.writes, hSys.close⟩
    obtain ⟨left, hEdit, hLeave⟩ := editStep_succeeds hOwn rfl
    rw [fileStep, hEdit, Option.map_some, FileCall.op, ← hLeave]

theorem fileRun_succeeds (resolve : Bytes → ι) (lib : JsonLib) (hTexts : files.Texts)
    (hCalls : ∀ call ∈ calls, call.Succeeds) :
    fileRun resolve lib files calls =
      some (storeRun resolve files (calls.map (FileCall.op lib))) := by
  induction calls generalizing files with
  | nil => rfl
  | cons call calls ih =>
    have hFirst := fileStep_succeeds resolve lib (hCalls call List.mem_cons_self) hTexts
    have hMid : ((call.op lib).after resolve files).Texts := after_texts hTexts
    have hRest := ih hMid fun call' hMem => hCalls call' (List.mem_cons_of_mem call hMem)
    rw [fileRun, hFirst, Option.bind_some]
    dsimp only
    rw [hRest]
    rfl

inductive Outcomes {ι : Type} [DecidableEq ι] (resolve : Bytes → ι) (lib : JsonLib) :
    Files ι → List FileCall → Files ι → List ToolResult → Prop
  | nil {files : Files ι} : Outcomes resolve lib files [] files []
  | cons {files mid last : Files ι} {call : FileCall} {calls : List FileCall} {result : ToolResult}
      {results : List ToolResult} (hCall : Outcome resolve files (call.op lib) mid result)
      (hRest : Outcomes resolve lib mid calls last results) :
      Outcomes resolve lib files (call :: calls) last (result :: results)

theorem fileRun_outcomes (resolve : Bytes → ι) (lib : JsonLib) (files : Files ι)
    (calls : List FileCall) :
    ∃ last results, fileRun resolve lib files calls = some (last, results) ∧
      Outcomes resolve lib files calls last results := by
  induction calls generalizing files with
  | nil => exact ⟨files, [], rfl, .nil⟩
  | cons call calls ih =>
    obtain ⟨mid, result, hStep, hCall⟩ := fileStep_outcome resolve lib files call
    obtain ⟨last, results, hRun, hRest⟩ := ih mid
    refine ⟨last, result :: results, ?_, .cons hCall hRest⟩
    rw [fileRun, hStep, Option.bind_some]
    dsimp only
    rw [hRun, Option.map_some]

/-- Whatever the system answers, the calls are steps of the store but for errors, which leave the
files as they were or one of them torn; and when no system call fails, they are just its steps. -/
theorem fileRun_refines (resolve : Bytes → ι) (lib : JsonLib) (files : Files ι)
    (calls : List FileCall) :
    ∃ last results, fileRun resolve lib files calls = some (last, results) ∧
      Outcomes resolve lib files calls last results ∧
      (files.Texts → (∀ call ∈ calls, call.Succeeds) →
        (last, results) = storeRun resolve files (calls.map (FileCall.op lib))) := by
  obtain ⟨last, results, hRun, hOutcomes⟩ := fileRun_outcomes resolve lib files calls
  refine ⟨last, results, hRun, hOutcomes, fun hTexts hCalls => ?_⟩
  exact Option.some.inj (hRun.symm.trans (fileRun_succeeds resolve lib hTexts hCalls))

def plainPath (path : Bytes) : Bytes :=
  if ascii "./" <+: path then path.drop 2 else path

def draftArgs (path : String) (more : List (Bytes × CJson)) : CJson :=
  .object ((ascii "path", .string (ascii path)) :: more)

def draftWrite : FileCall :=
  .write (draftArgs "d/f" [(ascii "content", .string (ascii "ab"))])
    ⟨fun _ => .exists', fun _ => .directory, fun _ => none, fun _ => .wrote 1, none⟩

def draftEdit : FileCall :=
  .edit (draftArgs "./d/f" [(ascii "old_string", .string (ascii "a")),
    (ascii "new_string", .string (ascii "cc"))]) .granted (stepwise [])

def draftRead : FileCall := .read (draftArgs "d/f" []) .granted fun _ => .got 2

/-- A file that is written, edited under another name, and read from its start. -/
def draftCalls : List FileCall := [draftWrite, draftEdit, draftRead]

theorem draftCalls_succeed : ∀ call ∈ draftCalls, call.Succeeds := by
  have hReads : ∀ n, ReadsWell fun _ => .got n :=
    fun n k => ⟨0, by decide, (fun i hi => by cases hi), n, rfl⟩
  have hWrites : ∀ n, WritesWell fun _ => .wrote (n + 1) :=
    fun n k => ⟨0, by decide, (fun i hi => by cases hi), n + 1, rfl⟩
  simp only [draftCalls, draftWrite, draftEdit, draftRead, List.forall_mem_cons]
  refine ⟨⟨fun _ => .inr rfl, fun _ => rfl, fun _ => rfl, hWrites 0, rfl⟩,
    ⟨rfl, hReads 2, rfl, rfl, hWrites 1, rfl⟩, ⟨rfl, hReads 2⟩, ?_⟩
  intro call hMem
  cases hMem

theorem fileRun_refines_sample :
    ∃ last, fileRun plainPath sampleLib (fun _ => none) draftCalls =
      some (last, [wrote 2 (ascii "d/f"), replaced (ascii "./d/f"), succeed (ascii "ccb")]) := by
  obtain ⟨last, results, hRun, -, hStore⟩ :=
    fileRun_refines plainPath sampleLib (fun _ => none) draftCalls
  have hTexts : Files.Texts fun _ : Bytes => none := fun id file hFile => by cases hFile
  have hResults := congrArg Prod.snd (hStore hTexts draftCalls_succeed)
  have hExpected : (storeRun plainPath (fun _ => none) (draftCalls.map (FileCall.op sampleLib))).2 =
      [wrote 2 (ascii "d/f"), replaced (ascii "./d/f"), succeed (ascii "ccb")] := by decide +kernel
  refine ⟨last, ?_⟩
  rw [hRun, ← hExpected, ← hResults]

theorem Outcomes.append {calls₁ calls₂ : List FileCall}
    (h : Outcomes resolve lib files (calls₁ ++ calls₂) last results) :
    ∃ mid, Outcomes resolve lib files calls₁ mid (results.take calls₁.length) ∧
      Outcomes resolve lib mid calls₂ last (results.drop calls₁.length) := by
  induction calls₁ generalizing files results with
  | nil => exact ⟨files, .nil, h⟩
  | cons call calls₁ ih =>
    cases h with
    | cons hCall hRest =>
      obtain ⟨mid, hFirst, hSecond⟩ := ih hRest
      exact ⟨mid, .cons hCall hFirst, hSecond⟩

def FileOp.writes {ι : Type} (resolve : Bytes → ι) : FileOp → Option ι
  | .write path _ => some (resolve path)
  | .edit path _ _ => some (resolve path)
  | _ => none

def FileOp.rewrites {ι : Type} [DecidableEq ι] (resolve : Bytes → ι) (id : ι) (text : Bytes) :
    FileOp → Bytes
  | .write path content => if resolve path = id then content else text
  | .edit path old new =>
    if resolve path = id then
      match positions old text with
      | [p] => spliced text p old.length new
      | _ => text
    else text
  | _ => text

omit [DecidableEq ι] in
theorem FileOp.target_writes (h : op.target resolve files = some (id, text)) :
    op.writes resolve = some id := by
  cases op with
  | read => cases h
  | write => cases h; rfl
  | edit other old new =>
    obtain ⟨file, hFile, hTarget⟩ := Option.bind_eq_some_iff.mp h
    split at hTarget
    · cases hTarget
    split at hTarget
    · cases hTarget
      rfl
    · cases hTarget
  | refused => cases h

theorem Outcome.frame (h : Outcome resolve files op mid result)
    (hOther : op.writes resolve ≠ some id) : mid id = files id := by
  cases h with
  | done =>
    rw [FileOp.after]
    cases hTarget : op.target resolve files with
    | none => rfl
    | some target =>
      refine Function.update_of_ne ?_ _ _
      rintro rfl
      exact hOther (FileOp.target_writes hTarget)
  | failed msg => rfl
  | torn msg hTarget hFront =>
    refine Function.update_of_ne ?_ _ _
    rintro rfl
    exact hOther (FileOp.target_writes hTarget)

theorem FileOp.rewrites_other (hOther : op.writes resolve ≠ some id) :
    op.rewrites resolve id text = text := by
  cases op with
  | read => rfl
  | write path content => exact if_neg fun hSame => hOther (congrArg some hSame)
  | edit path old new => exact if_neg fun hSame => hOther (congrArg some hSame)
  | refused => rfl

theorem Outcome.wrote (h : Outcome resolve files (.write path content) mid result)
    (hOk : result.isError = false) : mid (resolve path) = some content := by
  cases h with
  | done => exact Function.update_self _ _ _
  | failed msg => cases hOk
  | torn msg hTarget hFront => cases hOk

theorem Outcome.replaced {old new : Bytes}
    (h : Outcome resolve files (.edit path old new) mid result)
    (hFile : files (resolve path) = some text) (hOk : result.isError = false) :
    ∃ p, positions old text = [p] ∧
      mid (resolve path) = some (spliced text p old.length new) := by
  cases h with
  | failed msg => cases hOk
  | torn msg hTarget hFront => cases hOk
  | done =>
    rw [FileOp.result, hFile] at hOk
    rw [FileOp.after, FileOp.target, hFile, Option.bind_some]
    dsimp only at hOk
    split at hOk
    · cases hOk
    rename_i hFits
    rw [if_neg hFits]
    cases hPositions : positions old text with
    | nil =>
      rw [hPositions] at hOk
      cases hOk
    | cons p ps =>
      cases ps with
      | nil => exact ⟨p, rfl, Function.update_self _ _ _⟩
      | cons q ps =>
        rw [hPositions] at hOk
        cases hOk

theorem Outcome.read {offset limit : Int}
    (h : Outcome resolve files (.read path offset limit) mid result)
    (hFile : files (resolve path) = some text) (hOk : result.isError = false) :
    result = succeed (readContent offset limit text) := by
  cases h with
  | done => rw [FileOp.result, hFile]
  | failed msg => cases hOk
  | torn msg hTarget hFront => cases hOk

theorem Outcome.rewrites (h : Outcome resolve files op mid result) (hFile : files id = some text)
    (hDone : op.writes resolve = some id → result.isError = false) :
    mid id = some (op.rewrites resolve id text) := by
  by_cases hWrites : op.writes resolve = some id
  · have hOk := hDone hWrites
    cases op with
    | read => cases hWrites
    | refused => cases hWrites
    | write path content =>
      obtain rfl := Option.some.inj hWrites
      rw [FileOp.rewrites, if_pos rfl]
      exact h.wrote hOk
    | edit path old new =>
      obtain rfl := Option.some.inj hWrites
      obtain ⟨p, hOnce, hText⟩ := h.replaced hFile hOk
      rw [FileOp.rewrites, if_pos rfl, hOnce]
      exact hText
  · rw [h.frame hWrites, hFile, FileOp.rewrites_other hWrites]

theorem Outcomes.rewrites (h : Outcomes resolve lib files calls last results)
    (hFile : files id = some text)
    (hDone : ∀ p ∈ calls.zip results,
      (p.1.op lib).writes resolve = some id → p.2.isError = false) :
    last id =
      some ((calls.map (FileCall.op lib)).foldl (fun t op => op.rewrites resolve id t) text) := by
  induction h generalizing text with
  | nil => exact hFile
  | @cons files mid last call calls result results hCall hRest ih =>
    have hMid := hCall.rewrites hFile (hDone (call, result) List.mem_cons_self)
    exact ih hMid fun p hp => hDone p (List.mem_cons_of_mem _ hp)

theorem readContent_whole (hFits : text.length ≤ kToolReadReturnCap) :
    readContent 1 (2 ^ 63 - 1) text = text := by
  have hCaps : kToolReadReturnCap < kToolReadScanCap ∧ kToolReadScanCap ≤ 2 ^ 63 - 1 := by decide
  have hHead : scannedHead text = text := List.take_of_length_le (by omega)
  have hSelected : selected 1 (2 ^ 63 - 1) text = text := by
    rw [selected_eq, hHead]
    exact select_all (by omega)
  have hNote : readNote 1 (2 ^ 63 - 1) text = [] := by
    rw [readNote, hSelected, if_neg (by omega), if_neg (by omega)]
    exact if_neg fun h => h.1 h.2
  rw [readContent, hSelected, hNote]
  simp [List.take_of_length_le hFits]

/-- A read that succeeds gives the window of what was written, with the edits made since, under
whatever names of the file. -/
theorem fileRun_reads_back {lib : JsonLib} (before between : List FileCall) {write : WriteSystem}
    {wargs rargs : CJson} {answer : OpenAnswer} {reads : Nat → ReadResult} {offset limit : Int}
    {other : Bytes} {rs ms : List ToolResult} {w r : ToolResult}
    (hRun : fileRun resolve lib files
        (before ++ .write wargs write :: (between ++ [.read rargs answer reads])) =
      some (last, rs ++ w :: (ms ++ [r])))
    (hBefore : rs.length = before.length) (hBetween : ms.length = between.length)
    (hWrite : writeOp wargs = .write path content)
    (hRead : readOp lib rargs = .read other offset limit) (hSame : resolve other = resolve path)
    (hWrote : w.isError = false) (hOk : r.isError = false)
    (hDone : ∀ p ∈ between.zip ms,
      (p.1.op lib).writes resolve = some (resolve path) → p.2.isError = false) :
    let text := (between.map (FileCall.op lib)).foldl
      (fun t op => op.rewrites resolve (resolve path) t) content
    r = succeed (readContent offset limit text) ∧
      (offset = 1 → limit = 2 ^ 63 - 1 → text.length ≤ kToolReadReturnCap → r.content = text) := by
  intro text
  obtain ⟨last', results, hAgain, hOutcomes⟩ := fileRun_outcomes resolve lib files
    (before ++ .write wargs write :: (between ++ [.read rargs answer reads]))
  rw [hRun] at hAgain
  cases hAgain
  obtain ⟨mid, -, hRest⟩ := hOutcomes.append
  rw [← hBefore, List.drop_left] at hRest
  cases hRest with
  | cons hFirst hRest =>
    rename_i next
    obtain ⟨near, hMiddle, hLast⟩ := hRest.append
    rw [← hBetween, List.take_left] at hMiddle
    rw [← hBetween, List.drop_left] at hLast
    -- the file holds the content, then what the calls between made of it
    have hContent : next (resolve path) = some content := by
      rw [FileCall.op, hWrite] at hFirst
      exact hFirst.wrote hWrote
    have hText : near (resolve other) = some text := hSame ▸ hMiddle.rewrites hContent hDone
    cases hLast with
    | cons hCall hNil =>
      rw [FileCall.op, hRead] at hCall
      have hResult := hCall.read hText hOk
      refine ⟨hResult, ?_⟩
      rintro rfl rfl hFits
      rw [hResult, readContent_whole hFits]
      rfl

theorem fileRun_reads_back_sample :
    ∃ last r, fileRun plainPath sampleLib (fun _ => none) draftCalls =
        some (last, [wrote 2 (ascii "d/f"), replaced (ascii "./d/f"), r]) ∧
      r = succeed (readContent 1 (2 ^ 63 - 1) (ascii "ccb")) ∧ r.content = ascii "ccb" := by
  have hTexts : Files.Texts fun _ : Bytes => none := fun id file hFile => by cases hFile
  have hRun := fileRun_succeeds plainPath sampleLib hTexts draftCalls_succeed
  have hResults : (storeRun plainPath (fun _ => none) (draftCalls.map (FileCall.op sampleLib))).2 =
      [] ++ wrote 2 (ascii "d/f") :: ([replaced (ascii "./d/f")] ++ [succeed (ascii "ccb")]) := by
    decide +kernel
  generalize storeRun plainPath (fun _ => none) (draftCalls.map (FileCall.op sampleLib)) =
    answer at *
  obtain ⟨last, results⟩ := answer
  subst hResults
  have hWrite : writeOp (draftArgs "d/f" [(ascii "content", .string (ascii "ab"))]) =
      .write (ascii "d/f") (ascii "ab") := by decide +kernel
  have hRead : readOp sampleLib (draftArgs "d/f" []) = .read (ascii "d/f") 1 (2 ^ 63 - 1) := by
    decide +kernel
  have hDone : ∀ p ∈ [draftEdit].zip [replaced (ascii "./d/f")],
      (p.1.op sampleLib).writes plainPath = some (plainPath (ascii "d/f")) →
        p.2.isError = false := by
    intro p hp _
    obtain rfl := List.mem_singleton.mp hp
    rfl
  obtain ⟨hWindow, hText⟩ :=
    fileRun_reads_back [] [draftEdit] hRun rfl rfl hWrite hRead rfl rfl rfl hDone
  exact ⟨last, _, hRun, hWindow, hText rfl rfl (by decide +kernel)⟩

end Mua.Tools
