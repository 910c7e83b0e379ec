import Mua.SessionLines

/-! # Appending to a loaded session, and loading it again

The second load of the file repeats the first one up to its end, where the
newline that heals a torn tail makes the tail a line like the others; what it
staged is then no longer last.
-/

namespace Mua.Session

open Records

variable {lib : JsonLib}

/-- The state `session_load` ends its scan in: what it returns, and the line it logs as skipped. -/
def sessionScan (lib : JsonLib) (path file : Bytes) (reads : Nat → ReadResult) :
    Except Error LoadScan :=
  match loadScan lib reads 0 file.length 0 file (loadStart path file) (bufInit sessionMaxLine) with
  | .error err => .error err
  | .ok (ls, line) => loadTail lib ls line.data

/-- The line a load leaves staged, 0 for none. -/
def stagedTail (lib : JsonLib) (path file : Bytes) (reads : Nat → ReadResult) : Nat :=
  match sessionScan lib path file reads with
  | .ok ls => ls.stagedLine
  | .error _ => 0

theorem sessionLoad_scan {path file : Bytes} (hPath : path ≠ []) (hFile : file ≠ [])
    (reads : Nat → ReadResult) :
    sessionLoad lib path (.opened true file.length) file reads =
      (sessionScan lib path file reads).map LoadScan.sess := by
  have hSize : file.length ≠ 0 := fun h => hFile (List.length_eq_zero_iff.mp h)
  unfold sessionLoad sessionScan
  simp only [if_neg hPath, if_neg hSize, not_true_eq_false, if_false]
  cases loadScan lib reads 0 file.length 0 file (loadStart path file) (bufInit sessionMaxLine) with
  | error err => rfl
  | ok s => rfl

theorem sessionScan_cases (lib : JsonLib) (path file : Bytes) (reads : Nat → ReadResult) :
    sessionScan lib path file reads = loadBytes lib path file ∨
      (∃ err, sessionScan lib path file reads = .error err) ∧ ¬ReadsWell reads := by
  unfold sessionScan
  obtain hScan | ⟨⟨err, hErr⟩, hBad⟩ := loadScan_cases lib reads 0 file.length 0 file rfl
    (loadStart path file) (bufInit sessionMaxLine)
  · left
    replace hScan : Incremental.consume (byteStep lib) (loadStart path file, []) file = _ :=
      hScan.symm
    rw [loadBytes, hScan, bind_map_except]
    cases loadScan lib reads 0 file.length 0 file (loadStart path file) (bufInit sessionMaxLine) with
    | error err => rfl
    | ok s => rfl
  · right
    rw [hErr]
    exact ⟨⟨err, rfl⟩, fun hReads => hBad ⟨hReads, hReads.start 0⟩⟩

theorem sessionScan_ok {path file : Bytes} {reads : Nat → ReadResult} {ls : LoadScan}
    (h : sessionScan lib path file reads = .ok ls) : loadBytes lib path file = .ok ls := by
  obtain hSame | ⟨⟨err, hErr⟩, -⟩ := sessionScan_cases lib path file reads
  · exact hSame ▸ h
  · rw [hErr] at h
    cases h

theorem sessionScan_eq {reads : Nat → ReadResult} (hReads : ReadsWell reads) (path file : Bytes) :
    sessionScan lib path file reads = loadBytes lib path file :=
  (sessionScan_cases lib path file reads).resolve_right fun h => h.2 hReads

theorem sessionLoad_ok_scan {path file : Bytes} {reads : Nat → ReadResult} {sess : SessionState}
    (h : sessionLoad lib path (.opened true file.length) file reads = .ok sess) :
    path ≠ [] ∧ file ≠ [] ∧ ∃ ls, sessionScan lib path file reads = .ok ls ∧ ls.sess = sess := by
  have hPath : path ≠ [] := by
    rintro rfl
    cases h
  have hFile : file ≠ [] := by
    rintro rfl
    unfold sessionLoad at h
    rw [if_neg hPath] at h
    cases h
  rw [sessionLoad_scan hPath hFile] at h
  refine ⟨hPath, hFile, ?_⟩
  cases hScan : sessionScan lib path file reads with
  | error err =>
    rw [hScan] at h
    cases h
  | ok ls =>
    rw [hScan] at h
    exact ⟨ls, rfl, Except.ok.inj h⟩

/-- A line counts, and touches nothing of the session but its id and its messages. -/
structure Counted (ls next : LoadScan) : Prop where
  lineNo : next.lineNo = ls.lineNo + 1
  path : next.sess.path = ls.sess.path
  file : next.sess.file = ls.sess.file
  poisoned : next.sess.poisoned = ls.sess.poisoned
  needsHeal : next.sess.needsHeal = ls.sess.needsHeal
  count : ls.sess.messages.length ≤ sessionMaxMessages →
    next.sess.messages.length ≤ sessionMaxMessages

theorem consumeHeader_ok {ls next : LoadScan} {node : CJson}
    (h : consumeHeader lib ls node = .ok next) :
    ∃ id, next = { ls with sess := { ls.sess with id := id } } := by
  unfold consumeHeader at h
  split at h
  · cases h
  · rename_i id version hFields
    split at h
    · cases h
    · exact ⟨id, (Except.ok.inj h).symm⟩

theorem consumeRecord_ok {ls next : LoadScan} {node : CJson}
    (h : consumeRecord ls node = .ok next) :
    next = ls ∨ next = stage ls ∨ ls.sess.messages.length < sessionMaxMessages ∧
      next = { ls with sess := { ls.sess with messages := ls.sess.messages ++ [node] } } := by
  unfold consumeRecord at h
  split at h
  · exact .inr (.inl (Except.ok.inj h).symm)
  split at h
  · split at h
    · cases h
    · rename_i hRoom
      exact .inr (.inr ⟨Nat.lt_of_not_le hRoom, (Except.ok.inj h).symm⟩)
  split at h
  · exact .inl (Except.ok.inj h).symm
  · exact .inr (.inl (Except.ok.inj h).symm)

theorem consumeLine_counted {ls next : LoadScan} {line : Bytes}
    (h : consumeLine lib ls line = .ok next) : Counted ls next := by
  unfold consumeLine at h
  dsimp only at h
  split at h
  · cases h
    exact ⟨rfl, rfl, rfl, rfl, rfl, id⟩
  split at h
  · cases h
  split at h
  · split at h
    · cases h
    · cases h
      exact ⟨rfl, rfl, rfl, rfl, rfl, id⟩
  · split at h
    · obtain ⟨id', rfl⟩ := consumeHeader_ok h
      exact ⟨rfl, rfl, rfl, rfl, rfl, id⟩
    · obtain rfl | rfl | ⟨hRoom, rfl⟩ := consumeRecord_ok h
      · exact ⟨rfl, rfl, rfl, rfl, rfl, id⟩
      · exact ⟨rfl, rfl, rfl, rfl, rfl, id⟩
      · refine ⟨rfl, rfl, rfl, rfl, rfl, fun _ => ?_⟩
        rw [List.length_append, List.length_singleton]
        exact hRoom

/-- The same scan, over a file that holds something else and with another heal flag. -/
def LoadScan.onDisk (file : Bytes) (needsHeal : Bool) (ls : LoadScan) : LoadScan :=
  { ls with sess := { ls.sess with file := file, needsHeal := needsHeal } }

variable (lib) in
theorem consumeLine_onDisk (file : Bytes) (needsHeal : Bool) (ls : LoadScan) (line : Bytes) :
    consumeLine lib (ls.onDisk file needsHeal) line =
      (consumeLine lib ls line).map (LoadScan.onDisk file needsHeal) := by
  unfold consumeLine
  dsimp only [LoadScan.onDisk]
  split
  · rfl
  split
  · rfl
  cases jsonParse lib line sessionMaxLine with
  | error err =>
    dsimp only
    split <;> rfl
  | ok node =>
    dsimp only
    split
    · unfold consumeHeader
      dsimp only
      cases headerFields lib node with
      | none => rfl
      | some header =>
        dsimp only
        split <;> rfl
    · unfold consumeRecord
      dsimp only
      split
      · rfl
      split
      · split <;> rfl
      split <;> rfl

/-- What holds of a session between its load and the first append. -/
structure Reopened (path file : Bytes) (ls : LoadScan) : Prop where
  path : ls.sess.path = path
  file : ls.sess.file = file
  poisoned : ls.sess.poisoned = false
  count : ls.sess.messages.length ≤ sessionMaxMessages
  lineNo : ls.lineNo ≠ 0

/-- The lines before the unterminated one, and what they leave. -/
structure Terminated (path file : Bytes) (ls : LoadScan) : Prop where
  path : ls.sess.path = path
  file : ls.sess.file = file
  poisoned : ls.sess.poisoned = false
  needsHeal : ls.sess.needsHeal = false
  count : ls.sess.messages.length ≤ sessionMaxMessages

theorem Terminated.line {path file line : Bytes} {ls next : LoadScan}
    (h : Terminated path file ls) (hLine : consumeLine lib ls line = .ok next) :
    Terminated path file next := by
  have hCounted := consumeLine_counted hLine
  constructor
  · exact hCounted.path.trans h.path
  · exact hCounted.file.trans h.file
  · exact hCounted.poisoned.trans h.poisoned
  · exact hCounted.needsHeal.trans h.needsHeal
  · exact hCounted.count h.count

/-- Once a byte was read, a line was counted or one is pending. -/
theorem lineNo_or_pending {ls next : LoadScan} {line rest : Bytes} {b : Byte}
    (h : Incremental.consume (byteStep lib) (ls, line) (b :: rest) = .ok (next, [])) :
    next.lineNo ≠ 0 := by
  have hStep : ∀ (s : LoadScan × Bytes) a s', byteStep lib s a = .ok s' →
      s'.1.lineNo ≠ 0 ∨ s'.2 ≠ [] := by
    rintro ⟨ls, line⟩ a ⟨ls', line'⟩ hStep
    unfold byteStep lineStep at hStep
    dsimp only at hStep
    split at hStep
    · cases hReply : consumeLine lib ls line with
      | error err =>
        rw [hReply] at hStep
        cases hStep
      | ok t =>
        rw [hReply] at hStep
        cases hStep
        left
        rw [(consumeLine_counted hReply).lineNo]
        exact Nat.succ_ne_zero _
    · split at hStep
      · cases hStep
        right
        simp
      · cases hStep
  rw [Incremental.consume] at h
  cases hFirst : byteStep lib (ls, line) b with
  | error err =>
    rw [hFirst] at h
    cases h
  | ok s =>
    rw [hFirst] at h
    have hEnd := Incremental.consume_invariant (fun s => s.1.lineNo ≠ 0 ∨ s.2 ≠ [])
      (fun s a s' _ => hStep s a s') (hStep _ _ _ hFirst) h
    exact hEnd.resolve_right (not_not_intro rfl)

/-- Read again in a file that goes on after it, the first content leads to where its load ended. -/
theorem consume_resumed {path file : Bytes} {ls : LoadScan} (hFile : file ≠ [])
    (h : loadBytes lib path file = .ok ls) (file' rest : Bytes) :
    Reopened path file ls ∧
      Incremental.consume (byteStep lib) (loadStart path file', [])
          (file ++ (if ls.sess.needsHeal then [newline] else []) ++ rest) =
        Incremental.consume (byteStep lib) (ls.onDisk file' false, []) rest := by
  unfold loadBytes at h
  cases hScan : Incremental.consume (byteStep lib) (loadStart path file, []) file with
  | error err =>
    rw [hScan] at h
    cases h
  | ok s =>
    obtain ⟨before, tail⟩ := s
    rw [hScan] at h
    replace h : loadTail lib before tail = .ok ls := h
    have hStart : Terminated path file (loadStart path file) :=
      ⟨rfl, rfl, rfl, rfl, Nat.zero_le _⟩
    have hBefore : Terminated path file before :=
      consume_lines_invariant (fun _ _ _ h hLine => h.line hLine) hStart hScan
    have hAgain : Incremental.consume (byteStep lib) (loadStart path file', []) file =
        .ok (before.onDisk file' false, tail) := by
      have hMap : Incremental.consume (byteStep lib) (loadStart path file', []) file =
          (Incremental.consume (byteStep lib) (loadStart path file, []) file).map
            fun r => (r.1.onDisk file' false, r.2) :=
        consume_lines_map (consumeLine_onDisk lib file' false) (fun _ => rfl)
          (loadStart path file) [] file
      rw [hScan] at hMap
      exact hMap
    rw [List.append_assoc, Incremental.consume_append_ok hAgain]
    by_cases hTail : tail = []
    · subst hTail
      obtain rfl : before = ls := Except.ok.inj h
      rw [hBefore.needsHeal, if_neg Bool.false_ne_true, List.nil_append]
      refine ⟨⟨hBefore.path, hBefore.file, hBefore.poisoned, hBefore.count, ?_⟩, rfl⟩
      obtain ⟨b, bytes, rfl⟩ := List.exists_cons_of_ne_nil hFile
      exact lineNo_or_pending hScan
    · rw [loadTail, if_neg hTail] at h
      have hCounted := consumeLine_counted h
      have hLine : consumeLine lib (before.onDisk file' false) tail =
          .ok (ls.onDisk file' false) := by
        have hMap := consumeLine_onDisk lib file' false
          { before with sess := { before.sess with needsHeal := true } } tail
        rw [h] at hMap
        exact hMap
      have hHeal : ls.sess.needsHeal = true := hCounted.needsHeal
      rw [hHeal, if_pos rfl, List.singleton_append, consume_sep, hLine]
      refine ⟨⟨?_, ?_, ?_, ?_, ?_⟩, rfl⟩
      · exact hCounted.path.trans hBefore.path
      · exact hCounted.file.trans hBefore.file
      · exact hCounted.poisoned.trans hBefore.poisoned
      · exact hCounted.count hBefore.count
      · rw [hCounted.lineNo]
        exact Nat.succ_ne_zero _

theorem load_journal {ls : LoadScan} {ms : List CJson} (hHeader : ls.lineNo ≠ 0)
    (hStaged : ls.stagedLine = 0)
    (hCount : ls.sess.messages.length + ms.length ≤ sessionMaxMessages)
    (hMs : ∀ m ∈ ms, PrintsBack lib m ∧ Storable lib m) :
    Incremental.consume (byteStep lib) (ls, []) (journal lib.print newline ms) =
      .ok ({ ls with
        sess := { ls.sess with messages := ls.sess.messages ++ ms }
        lineNo := ls.lineNo + ms.length }, []) := by
  induction ms generalizing ls with
  | nil =>
    rw [journal_nil, Incremental.consume_nil, List.append_nil]
    rfl
  | cons m ms ih =>
    obtain ⟨hPrint, hStorable⟩ := hMs m List.mem_cons_self
    rw [List.length_cons] at hCount
    have hRoom : ls.sess.messages.length < sessionMaxMessages := by omega
    rw [journal_cons, consume_record hPrint.noNewline hStorable.fits,
      consumeLine_message ls hPrint hStorable hHeader hStaged hRoom]
    let next : LoadScan := { ls with
      sess := { ls.sess with messages := ls.sess.messages ++ [m] }
      lineNo := ls.lineNo + 1 }
    have hNext : next.sess.messages.length + ms.length ≤ sessionMaxMessages := by
      show (ls.sess.messages ++ [m]).length + ms.length ≤ sessionMaxMessages
      rw [List.length_append, List.length_singleton]
      omega
    have hHeader : next.lineNo ≠ 0 := Nat.succ_ne_zero _
    have hStaged : next.stagedLine = 0 := hStaged
    have hRest := ih hHeader hStaged hNext fun m hm => hMs m (List.mem_cons_of_mem _ hm)
    refine hRest.trans ?_
    show Except.ok ({ ls with
      sess := { ls.sess with messages := ls.sess.messages ++ [m] ++ ms }
      lineNo := ls.lineNo + 1 + ms.length }, []) = _
    rw [List.append_assoc, List.length_cons, Nat.add_assoc, Nat.add_comm 1]
    rfl

def corruptLine (path : Bytes) (n : Nat) : Error :=
  ⟨.validation, ascii "session: " ++ path ++ ascii ": corrupt line " ++ decimal n⟩

theorem load_journal_staged {ls : LoadScan} {m : CJson} (ms : List CJson)
    (hStaged : ls.stagedLine ≠ 0) (hPrint : PrintsBack lib m) (hStorable : Storable lib m) :
    Incremental.consume (byteStep lib) (ls, []) (journal lib.print newline (m :: ms)) =
      .error (corruptLine ls.sess.path ls.stagedLine) := by
  rw [journal_cons, consume_record hPrint.noNewline hStorable.fits,
    consumeLine_staged lib ls hPrint.nonempty hStaged]
  rfl

/-- What a list of appends leaves in a file whose last line may want a newline. -/
theorem appendAll_healed {sess : SessionState} {as : List Attempt}
    (hClean : (appendAll lib sess as).1.poisoned = false)
    (hSome : (appendAll lib sess as).2 ≠ []) :
    let r := appendAll lib sess as
    r.1.file = sess.file ++ (if sess.needsHeal then [newline] else []) ++
        journal lib.print newline r.2 ∧
      sess.messages.length + r.2.length ≤ sessionMaxMessages ∧
      ∀ m ∈ r.2, Storable lib m ∧ ∃ a ∈ as, a.msg = m := by
  induction as with
  | nil => exact absurd rfl hSome
  | cons a as ih =>
    have hCase := sessionAppend_cases lib sess a.msg a.os
    rw [appendAll] at hClean hSome ⊢
    generalize sessionAppend lib sess a.msg a.os = r at hCase hClean hSome
    cases hCase with
    | refused err =>
      obtain ⟨hFile, hLe, hAll⟩ := ih hClean hSome
      refine ⟨hFile, hLe, ?_⟩
      intro m hm
      obtain ⟨hStorable, a', ha', hEq⟩ := hAll m hm
      exact ⟨hStorable, a', List.mem_cons_of_mem _ ha', hEq⟩
    | torn torn err _ _ _ =>
      rw [appendAll_poisoned rfl] at hClean
      cases hClean
    | written hRole _ hLt hFits =>
      have hRoom : (sess.messages ++ [a.msg]).length ≤ sessionMaxMessages := by
        rw [List.length_append, List.length_singleton]
        exact hLt
      obtain ⟨hFile, -, -, hLe, hAll⟩ := appendAll_journal rfl hRoom hClean
      dsimp only at hFile hLe hAll ⊢
      rw [List.length_append, List.length_singleton] at hLe
      refine ⟨?_, ?_, ?_⟩
      · rw [hFile, journal_cons]
        simp [recordBytes]
      · rw [List.length_cons]
        omega
      · intro m hm
        rcases List.mem_cons.mp hm with rfl | hm
        · exact ⟨⟨hRole, hFits⟩, a, List.mem_cons_self, rfl⟩
        · obtain ⟨hStorable, a', ha', hEq⟩ := hAll m hm
          exact ⟨hStorable, a', List.mem_cons_of_mem _ ha', hEq⟩

variable (lib) in
theorem appendAll_length_le (sess : SessionState) (as : List Attempt) :
    (appendAll lib sess as).2.length ≤ as.length := by
  induction as generalizing sess with
  | nil => exact le_rfl
  | cons a as ih =>
    rw [appendAll]
    split
    · rename_i next hOk
      exact Nat.succ_le_succ (ih next)
    · rename_i next err hError
      exact (ih next).trans (Nat.le_succ _)

theorem appendAll_succeeds {sess : SessionState} {as : List Attempt}
    (hClean : sess.poisoned = false) (hAll : (appendAll lib sess as).2 = as.map Attempt.msg) :
    (appendAll lib sess as).1.poisoned = false := by
  induction as generalizing sess with
  | nil => exact hClean
  | cons a as ih =>
    have hCase := sessionAppend_cases lib sess a.msg a.os
    have hShort : (appendAll lib (sessionAppend lib sess a.msg a.os).1 as).2 ≠
        (a :: as).map Attempt.msg := by
      intro hEq
      have hLe := appendAll_length_le lib (sessionAppend lib sess a.msg a.os).1 as
      rw [hEq, List.length_map, List.length_cons] at hLe
      omega
    rw [appendAll] at hAll ⊢
    generalize sessionAppend lib sess a.msg a.os = r at hCase hAll hShort
    cases hCase with
    | refused err => exact absurd hAll hShort
    | torn torn err _ _ _ => exact absurd hAll hShort
    | written _ hClean _ _ => exact ih hClean (List.cons.inj hAll).2

/-- Load a file, append messages to the session, all of them with success, and load the file
again: this succeeds exactly when the first load left no line staged. It then returns the loaded
messages followed by the appended ones, and otherwise names the staged line. -/
theorem sessionLoad_reload {path file : Bytes} {reads : Nat → ReadResult} {sess : SessionState}
    (hLoad : sessionLoad lib path (.opened true file.length) file reads = .ok sess)
    {as : List Attempt} (hSome : as ≠ [])
    (hAll : (appendAll lib sess as).2 = as.map Attempt.msg)
    (hPrint : ∀ a ∈ as, PrintsBack lib a.msg)
    {reads' : Nat → ReadResult} (hReads : ReadsWell reads') :
    let file' := (appendAll lib sess as).1.file
    let again := sessionLoad lib path (.opened true file'.length) file' reads'
    ((∃ loaded, again = .ok loaded) ↔ stagedTail lib path file reads = 0) ∧
      (∀ loaded, again = .ok loaded → loaded.messages = sess.messages ++ as.map Attempt.msg) ∧
      ∀ err, again = .error err → err = corruptLine path (stagedTail lib path file reads) := by
  intro file' again
  obtain ⟨hPath, hFile, ls, hScan, rfl⟩ := sessionLoad_ok_scan hLoad
  have hStaged : stagedTail lib path file reads = ls.stagedLine := by
    unfold stagedTail
    rw [hScan]
  obtain ⟨hReopened, hResumed⟩ := consume_resumed hFile (sessionScan_ok hScan) file'
    (journal lib.print newline (as.map Attempt.msg))
  have hClean := appendAll_succeeds hReopened.poisoned hAll
  have hNonempty : as.map Attempt.msg ≠ [] := fun hNil => hSome (List.map_eq_nil_iff.mp hNil)
  obtain ⟨hBytes, hCount, hStorable⟩ := appendAll_healed hClean (hAll ▸ hNonempty)
  rw [hAll] at hBytes hCount hStorable
  have hContent : file' = file ++ (if ls.sess.needsHeal then [newline] else []) ++
      journal lib.print newline (as.map Attempt.msg) := by
    rw [← hReopened.file]
    exact hBytes
  have hMs : ∀ m ∈ as.map Attempt.msg, PrintsBack lib m ∧ Storable lib m := by
    intro m hm
    obtain ⟨a, ha, rfl⟩ := List.mem_map.mp hm
    exact ⟨hPrint a ha, (hStorable _ hm).1⟩
  have hFile' : file' ≠ [] := by
    intro hNil
    rw [hContent, List.append_assoc] at hNil
    exact hFile (List.append_eq_nil_iff.mp hNil).1
  have hAgain : again = (loadBytes lib path file').map LoadScan.sess :=
    sessionLoad_eq hPath hFile' hReads
  have hBytesAgain : loadBytes lib path file' =
      (Incremental.consume (byteStep lib) (ls.onDisk file' false, [])
        (journal lib.print newline (as.map Attempt.msg))).bind fun s => loadTail lib s.1 s.2 := by
    rw [← hResumed, ← hContent]
    rfl
  rw [hBytesAgain] at hAgain
  rw [hStaged]
  by_cases hNone : ls.stagedLine = 0
  · -- nothing staged: the appended records are read after the loaded ones
    have hHeader : (ls.onDisk file' false).lineNo ≠ 0 := hReopened.lineNo
    have hNoneAgain : (ls.onDisk file' false).stagedLine = 0 := hNone
    rw [load_journal hHeader hNoneAgain hCount hMs] at hAgain
    rw [hAgain]
    refine ⟨⟨fun _ => hNone, fun _ => ⟨_, rfl⟩⟩, ?_, nofun⟩
    intro loaded hOk
    obtain rfl := Except.ok.inj hOk
    rfl
  · -- the staged line now has a record after it
    obtain ⟨a, rest, rfl⟩ := List.exists_cons_of_ne_nil hSome
    obtain ⟨hPrint, hStorable⟩ := hMs a.msg List.mem_cons_self
    have hSomeAgain : (ls.onDisk file' false).stagedLine ≠ 0 := hNone
    rw [List.map_cons, load_journal_staged _ hSomeAgain hPrint hStorable] at hAgain
    have hPathAgain : (ls.onDisk file' false).sess.path = path := hReopened.path
    rw [hAgain, hPathAgain]
    refine ⟨⟨nofun, fun hZero => absurd hZero hNone⟩, nofun, ?_⟩
    intro err hError
    exact (Except.error.inj hError).symm

def sampleTorn : Bytes := sampleFile.take (sampleFile.length - 2)

def sampleScan : LoadScan :=
  ⟨⟨sampleSession.id, samplePath, sampleFile, [sampleMessage], false, false⟩, 2, 0⟩

def sampleTornScan : LoadScan :=
  ⟨⟨sampleSession.id, samplePath, sampleTorn, [], false, true⟩, 2, 2⟩

def sampleAppends : List Attempt := [⟨sampleMessage, sampleWrites⟩]

theorem sampleAppends_printsBack : ∀ a ∈ sampleAppends, PrintsBack sampleLib a.msg := by
  intro a ha
  rw [List.mem_singleton.mp ha]
  exact (sampleLib_printable (.inr rfl)).printsBack

theorem sample_loads {file : Bytes} {ls : LoadScan} (hFile : file ≠ [])
    (hBytes : loadBytes sampleLib samplePath file = .ok ls) :
    sessionLoad sampleLib samplePath (.opened true file.length) file sampleReads = .ok ls.sess ∧
      stagedTail sampleLib samplePath file sampleReads = ls.stagedLine := by
  have hPath : samplePath ≠ [] := by decide
  have hScan := (sessionScan_eq sampleReads_well samplePath file).trans hBytes
  constructor
  · rw [sessionLoad_scan hPath hFile, hScan]
    rfl
  · unfold stagedTail
    rw [hScan]

/-- Appended to, the whole file loads with both messages, and the torn one names its line 2. -/
theorem sessionLoad_reload_sample :
    (∃ sess, sessionLoad sampleLib samplePath (.opened true sampleFile.length) sampleFile
        sampleReads = .ok sess ∧
      ∃ loaded, sessionLoad sampleLib samplePath
          (.opened true (appendAll sampleLib sess sampleAppends).1.file.length)
          (appendAll sampleLib sess sampleAppends).1.file sampleReads = .ok loaded ∧
        loaded.messages = [sampleMessage, sampleMessage]) ∧
    ∃ sess, sessionLoad sampleLib samplePath (.opened true sampleTorn.length) sampleTorn
        sampleReads = .ok sess ∧
      sessionLoad sampleLib samplePath
          (.opened true (appendAll sampleLib sess sampleAppends).1.file.length)
          (appendAll sampleLib sess sampleAppends).1.file sampleReads =
        .error (corruptLine samplePath 2) := by
  have hSome : sampleAppends ≠ [] := by decide
  constructor
  · have hBytes : loadBytes sampleLib samplePath sampleFile = .ok sampleScan := rfl
    have hAll : (appendAll sampleLib sampleScan.sess sampleAppends).2 =
        sampleAppends.map Attempt.msg := rfl
    obtain ⟨hLoad, hStaged⟩ := sample_loads (by decide) hBytes
    obtain ⟨hIff, hMsgs, -⟩ :=
      sessionLoad_reload hLoad hSome hAll sampleAppends_printsBack sampleReads_well
    obtain ⟨loaded, hAgain⟩ := hIff.mpr hStaged
    exact ⟨_, hLoad, loaded, hAgain, hMsgs loaded hAgain⟩
  · have hBytes : loadBytes sampleLib samplePath sampleTorn = .ok sampleTornScan := rfl
    have hAll : (appendAll sampleLib sampleTornScan.sess sampleAppends).2 =
        sampleAppends.map Attempt.msg := rfl
    obtain ⟨hLoad, hStaged⟩ := sample_loads (by decide) hBytes
    obtain ⟨hIff, -, hError⟩ :=
      sessionLoad_reload hLoad hSome hAll sampleAppends_printsBack sampleReads_well
    refine ⟨_, hLoad, ?_⟩
    rw [hStaged] at hIff hError
    cases hAgain : sessionLoad sampleLib samplePath
      (.opened true (appendAll sampleLib sampleTornScan.sess sampleAppends).1.file.length)
      (appendAll sampleLib sampleTornScan.sess sampleAppends).1.file sampleReads with
    | ok loaded =>
      have hZero : sampleTornScan.stagedLine = 0 := hIff.mp ⟨loaded, hAgain⟩
      exact absurd hZero (by decide)
    | error err =>
      rw [hError err hAgain]
      rfl

end Mua.Session
