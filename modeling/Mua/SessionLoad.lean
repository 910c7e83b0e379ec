import Mua.Session
import Mua.Lib.Records

/-! # What a load reads back

The chunked scan is the line machine run over the bytes of the file, whatever
pieces read(2) delivers. A session that was only appended to is a journal: its
header line and the lines of the messages it accepted. Cut the file anywhere
past the header text, and a load gives back the messages whose text survived.
-/

namespace Mua.Session

open Records

variable {lib : JsonLib}

theorem recordBytes_ne_nil (sess : SessionState) (line : Bytes) : recordBytes sess line ≠ [] := by
  simp [recordBytes]

/-- A record lands whole, or the session is poisoned with some proper prefix of it in the file. -/
theorem writeLine_cases (sess : SessionState) (line : Bytes) (os : Nat → WriteResult) :
    writeLine sess line os =
      ({ sess with file := sess.file ++ recordBytes sess line, needsHeal := false }, .ok ()) ∨
    ∃ torn err, torn <+: recordBytes sess line ∧ torn ≠ recordBytes sess line ∧
      writeLine sess line os =
        ({ sess with file := sess.file ++ torn, poisoned := true }, .error err) := by
  have hNothing : ∀ reason, ∃ torn err, torn <+: recordBytes sess line ∧
      torn ≠ recordBytes sess line ∧ poison sess reason =
        ({ sess with file := sess.file ++ torn, poisoned := true }, .error err) := by
    intro reason
    refine ⟨[], writeFailed sess.path reason, List.nil_prefix,
      (recordBytes_ne_nil sess line).symm, ?_⟩
    rw [List.append_nil]
    rfl
  unfold writeLine
  split
  · rename_i n hWrote
    by_cases hAll : (recordBytes sess line).length ≤ n
    · left
      simp [hAll]
    · right
      have hShort : min n (recordBytes sess line).length = n := by omega
      refine ⟨(recordBytes sess line).take n, writeFailed sess.path (ascii "short write"),
        List.take_prefix _ _, ?_, ?_⟩
      · intro hEq
        have := congrArg List.length hEq
        rw [List.length_take, hShort] at this
        omega
      · simp only [hShort]
        rw [if_pos (by omega)]
        rfl
  · exact .inr (hNothing _)
  · exact .inr (hNothing _)

inductive Appended (lib : JsonLib) (sess : SessionState) (msg : CJson) :
    SessionState × Except Error Unit → Prop
  | refused (err : Error) : Appended lib sess msg (sess, .error err)
  | torn (torn : Bytes) (err : Error) (hPrefix : torn <+: recordBytes sess (lib.print msg))
      (hProper : torn ≠ recordBytes sess (lib.print msg)) (hRole : hasRole msg) :
      Appended lib sess msg ({ sess with file := sess.file ++ torn, poisoned := true }, .error err)
  | written (hRole : hasRole msg) (hClean : sess.poisoned = false)
      (hCount : sess.messages.length < sessionMaxMessages)
      (hFits : (lib.print msg).length ≤ sessionMaxLine) :
      Appended lib sess msg
        ({ sess with
            file := sess.file ++ recordBytes sess (lib.print msg)
            needsHeal := false
            messages := sess.messages ++ [msg] }, .ok ())

theorem sessionAppend_cases (lib : JsonLib) (sess : SessionState) (msg : CJson) (os : Nat → WriteResult) :
    Appended lib sess msg (sessionAppend lib sess msg os) := by
  unfold sessionAppend
  split
  · exact .refused _
  split
  · exact .refused _
  split
  · exact .refused _
  dsimp only
  split
  · exact .refused _
  rename_i hRole hPoison hCount hFits
  simp only [Bool.not_eq_true, Bool.not_eq_false, not_le, not_lt] at hRole hPoison hCount hFits
  obtain hWrote | ⟨torn, err, hPrefix, hProper, hTorn⟩ := writeLine_cases sess (lib.print msg) os
  · rw [hWrote]
    exact .written hRole hPoison hCount hFits
  · rw [hTorn]
    exact .torn torn err hPrefix hProper hRole

/-- One `session_append` call: the message, and how write(2) answers it. -/
structure Attempt where
  msg : CJson
  os : Nat → WriteResult

/-- The session after a list of appends, and the messages it accepted. -/
def appendAll (lib : JsonLib) (sess : SessionState) : List Attempt → SessionState × List CJson
  | [] => (sess, [])
  | a :: rest =>
    match sessionAppend lib sess a.msg a.os with
    | (sess, .ok ()) => ((appendAll lib sess rest).1, a.msg :: (appendAll lib sess rest).2)
    | (sess, .error _) => appendAll lib sess rest

theorem appendAll_poisoned {sess : SessionState} (h : sess.poisoned = true) (as : List Attempt) :
    (appendAll lib sess as).1.poisoned = true := by
  induction as generalizing sess with
  | nil => exact h
  | cons a as ih =>
    have hCase := sessionAppend_cases lib sess a.msg a.os
    rw [appendAll]
    generalize sessionAppend lib sess a.msg a.os = r at hCase
    cases hCase with
    | refused err => exact ih h
    | torn torn err _ _ _ => exact ih rfl
    | written _ hClean _ _ => rw [h] at hClean; cases hClean

structure Storable (lib : JsonLib) (msg : CJson) : Prop where
  role : hasRole msg
  fits : (lib.print msg).length ≤ sessionMaxLine

/-- A session that was never poisoned is a journal of the messages it accepted. -/
theorem appendAll_journal {sess : SessionState} {as : List Attempt}
    (hHeal : sess.needsHeal = false) (hCount : sess.messages.length ≤ sessionMaxMessages)
    (hClean : (appendAll lib sess as).1.poisoned = false) :
    let r := appendAll lib sess as
    r.1.file = sess.file ++ journal lib.print newline r.2 ∧
      r.1.messages = sess.messages ++ r.2 ∧ r.1.id = sess.id ∧
      sess.messages.length + r.2.length ≤ sessionMaxMessages ∧
      (∀ m ∈ r.2, Storable lib m ∧ ∃ a ∈ as, a.msg = m) := by
  induction as generalizing sess with
  | nil => simp [appendAll, hCount]
  | cons a as ih =>
    have hCase := sessionAppend_cases lib sess a.msg a.os
    rw [appendAll] at hClean ⊢
    generalize sessionAppend lib sess a.msg a.os = r at hCase hClean
    cases hCase with
    | refused err =>
      obtain ⟨hFile, hMsgs, hId, hLe, hAll⟩ := ih hHeal hCount hClean
      refine ⟨hFile, hMsgs, hId, hLe, ?_⟩
      intro m hm
      obtain ⟨hStorable, a', ha', hEq⟩ := hAll m hm
      exact ⟨hStorable, a', List.mem_cons_of_mem _ ha', hEq⟩
    | torn torn err _ _ _ =>
      rw [appendAll_poisoned rfl] at hClean
      cases hClean
    | written hRole _ hLt hFits =>
      obtain ⟨hFile, hMsgs, hId, hLe, hAll⟩ := ih rfl (by simp; omega) hClean
      simp only [List.length_append, List.length_cons, List.length_nil] at hLe
      refine ⟨?_, ?_, hId, ?_, ?_⟩
      · rw [hFile]
        simp [recordBytes, hHeal]
      · rw [hMsgs]
        simp
      · simp only [List.length_cons]
        omega
      · intro m hm
        rcases List.mem_cons.mp hm with rfl | hm
        · exact ⟨⟨hRole, hFits⟩, a, List.mem_cons_self, rfl⟩
        · obtain ⟨hStorable, a', ha', hEq⟩ := hAll m hm
          exact ⟨hStorable, a', List.mem_cons_of_mem _ ha', hEq⟩

abbrev byteStep (lib : JsonLib) : LoadScan × Bytes → Byte → Except Error (LoadScan × Bytes) :=
  lineStep sessionMaxLine newline (consumeLine lib) lineTooLong

def loadBytes (lib : JsonLib) (path file : Bytes) : Except Error LoadScan :=
  (Incremental.consume (byteStep lib) (loadStart path file, []) file).bind fun s =>
    loadTail lib s.1 s.2

theorem newline_notMem_takeWhile (cursor : Bytes) :
    newline ∉ cursor.takeWhile fun b => b != newline := by
  intro h
  have := List.mem_takeWhile_imp h
  simp at this

theorem segment_eq (cursor : Bytes)
    (h : (cursor.takeWhile fun b => b != newline).length ≠ cursor.length) :
    (cursor.takeWhile fun b => b != newline) ++
      newline :: cursor.drop ((cursor.takeWhile fun b => b != newline).length + 1) = cursor := by
  induction cursor with
  | nil => exact absurd rfl h
  | cons b cursor ih =>
    by_cases hb : b = newline
    · simp [hb]
    · have hKeep : (b != newline) = true := by simpa using hb
      rw [List.takeWhile_cons_of_pos (p := fun b => b != newline) hKeep] at h ⊢
      simp only [List.length_cons, ne_eq, Nat.add_right_cancel_iff] at h
      rw [List.cons_append, List.length_cons, List.drop_succ_cons, ih h]

theorem scanChunk_eq_consume (lib : JsonLib) (ls : LoadScan) (line : LineBuf) (cursor : Bytes) :
    (scanChunk lib ls line cursor).map (fun s => (s.1, s.2.data)) =
      Incremental.consume (byteStep lib) (ls, line.data) cursor := by
  induction hLen : cursor.length using Nat.strong_induction_on generalizing ls line cursor with
  | _ n ih =>
  unfold scanChunk
  split
  · rename_i hEmpty
    rw [hEmpty]
    rfl
  rename_i hCursor
  have hSep := newline_notMem_takeWhile cursor
  have hAll : (cursor.takeWhile fun b => b != newline).length = cursor.length →
      cursor.takeWhile (fun b => b != newline) = cursor :=
    (List.takeWhile_prefix _).eq_of_length
  have hSplit := segment_eq cursor
  generalize cursor.takeWhile (fun b => b != newline) = seg at hSep hAll hSplit ⊢
  dsimp only
  split
  · rename_i hFull
    rw [bufAppend_eq_none] at hFull
    have hError : Incremental.consume (byteStep lib) (ls, line.data) seg = .error (lineTooLong ls) :=
      consume_text_tooLong hSep line.fits hFull
    by_cases hEnd : seg.length = cursor.length
    · rw [← hAll hEnd, hError]
      rfl
    · rw [← hSplit hEnd, Incremental.consume_append_error hError]
      rfl
  · rename_i line' hAppend
    rw [bufAppend_eq_some] at hAppend
    have hFits : line.data.length + seg.length ≤ sessionMaxLine := by
      rw [← List.length_append, ← hAppend]
      exact line'.fits
    have hText : Incremental.consume (byteStep lib) (ls, line.data) seg =
        .ok (ls, line.data ++ seg) := consume_text hSep hFits
    split
    · rename_i hEnd
      rw [← hAll hEnd, hText, ← hAppend]
      rfl
    · rename_i hEnd
      conv_rhs => rw [← hSplit hEnd, Incremental.consume_append_ok hText, consume_sep, ← hAppend]
      cases consumeLine lib ls line'.data with
      | error err => rfl
      | ok ls =>
        have hPos : 0 < cursor.length := List.length_pos_iff.mpr hCursor
        exact ih _ (by rw [List.length_drop]; omega) ls (bufReset line') _ rfl

/-- read(2) never fails, and no more than `kSessionEintrMax` interrupts come in a row. -/
def ReadsWell (reads : Nat → ReadResult) : Prop :=
  ∀ k, ∃ j ≤ kSessionEintrMax, (∀ i < j, reads (k + i) = .eintr) ∧ ∃ n, reads (k + j) = .got n

/-- The reads of one load, from its k-th call with `eintr` interrupts behind it. -/
def ReadsWellFrom (reads : Nat → ReadResult) (k eintr : Nat) : Prop :=
  ∃ j, eintr + j ≤ kSessionEintrMax ∧ (∀ i < j, reads (k + i) = .eintr) ∧
    ∃ n, reads (k + j) = .got n

theorem ReadsWell.start {reads : Nat → ReadResult} (h : ReadsWell reads) (k : Nat) :
    ReadsWellFrom reads k 0 := by
  obtain ⟨j, hj, hInterrupts, hGot⟩ := h k
  exact ⟨j, by omega, hInterrupts, hGot⟩

theorem ReadsWellFrom.interrupted {reads : Nat → ReadResult} {k eintr : Nat}
    (h : ReadsWellFrom reads k eintr) (hEintr : reads k = .eintr) :
    eintr + 1 ≤ kSessionEintrMax ∧ ReadsWellFrom reads (k + 1) (eintr + 1) := by
  obtain ⟨j, hj, hInterrupts, n, hGot⟩ := h
  cases j with
  | zero =>
    rw [Nat.add_zero, hEintr] at hGot
    cases hGot
  | succ j =>
    refine ⟨by omega, j, by omega, fun i hi => ?_, n, ?_⟩
    · rw [Nat.add_right_comm]
      exact hInterrupts (i + 1) (by omega)
    · rw [Nat.add_right_comm]
      exact hGot

theorem ReadsWellFrom.not_failed {reads : Nat → ReadResult} {k eintr : Nat} {reason : Bytes}
    (h : ReadsWellFrom reads k eintr) : reads k ≠ .failed reason := by
  intro hFailed
  obtain ⟨j, -, hInterrupts, n, hGot⟩ := h
  cases j with
  | zero =>
    rw [Nat.add_zero, hFailed] at hGot
    cases hGot
  | succ j =>
    have := hInterrupts 0 (by omega)
    rw [Nat.add_zero, hFailed] at this
    cases this

theorem readBytes_append (rest : Bytes) (want n : Nat) :
    readBytes rest want n ++ rest.drop (readBytes rest want n).length = rest := by
  have hDrop : rest.drop (rest.take (min (max n 1) want)).length =
      rest.drop (min (max n 1) want) := by
    rw [List.length_take, List.drop_eq_drop_iff]
    omega
  rw [readBytes, hDrop, List.take_append_drop]

/-- The chunked scan consumes the file byte by byte, unless a read fails. -/
theorem loadScan_cases (lib : JsonLib) (reads : Nat → ReadResult) (k remaining eintr : Nat) (rest : Bytes)
    (hRest : rest.length = remaining) (ls : LoadScan) (line : LineBuf) :
    (loadScan lib reads k remaining eintr rest ls line).map (fun s => (s.1, s.2.data)) =
        Incremental.consume (byteStep lib) (ls, line.data) rest ∨
      (∃ err, loadScan lib reads k remaining eintr rest ls line = .error err) ∧
        ¬ (ReadsWell reads ∧ ReadsWellFrom reads k eintr) := by
  fun_induction loadScan lib reads k remaining eintr rest ls line with
  | case1 k eintr rest ls line =>
    left
    rw [List.length_eq_zero_iff.mp hRest]
    rfl
  | case2 k remaining eintr rest ls line hRem reason hFailed =>
    exact .inr ⟨⟨_, rfl⟩, fun h => h.2.not_failed hFailed⟩
  | case3 k remaining eintr rest ls line hRem hEintr hTries ih =>
    refine (ih hRest).imp_right ?_
    rintro ⟨hErr, hWell⟩
    exact ⟨hErr, fun h => hWell ⟨h.1, (h.2.interrupted hEintr).2⟩⟩
  | case4 k remaining eintr rest ls line hRem hEintr hTries =>
    exact .inr ⟨⟨_, rfl⟩, fun h => hTries (h.2.interrupted hEintr).1⟩
  | case5 k remaining eintr rest ls line hRem want n hGot chunk hEnd =>
    -- a read that delivers nothing has met the end of the file
    have hPos : 0 < chunk.length := by
      simp only [chunk, readBytes, want, kSessionReadChunk, List.length_take]
      omega
    omega
  | case6 k remaining eintr rest ls line hRem want n hGot chunk hEnd err hScan =>
    left
    have hChunk := scanChunk_eq_consume lib ls line chunk
    rw [hScan] at hChunk
    rw [← readBytes_append rest want n]
    exact (Incremental.consume_append_error hChunk.symm _).symm
  | case7 k remaining eintr rest ls line hRem want n hGot chunk hEnd ls' line' hScan ih =>
    have hChunk := scanChunk_eq_consume lib ls line chunk
    rw [hScan] at hChunk
    have hAll : Incremental.consume (byteStep lib) (ls, line.data) rest =
        Incremental.consume (byteStep lib) (ls', line'.data) (rest.drop chunk.length) := by
      conv_lhs => rw [← readBytes_append rest want n]
      exact Incremental.consume_append_ok hChunk.symm _
    rw [hAll]
    refine (ih (by rw [List.length_drop, hRest])).imp_right ?_
    rintro ⟨hErr, hWell⟩
    exact ⟨hErr, fun h => hWell ⟨h.1, h.1.start (k + 1)⟩⟩

theorem bind_map_except {E A B C : Type} (x : Except E A) (f : A → B) (g : B → Except E C) :
    (x.map f).bind g = x.bind fun a => g (f a) := by
  cases x <;> rfl

theorem sessionLoad_eq {path file : Bytes} {reads : Nat → ReadResult} (hPath : path ≠ [])
    (hFile : file ≠ []) (hReads : ReadsWell reads) :
    sessionLoad lib path (.opened true file.length) file reads =
      (loadBytes lib path file).map fun ls => ls.sess := by
  have hSize : file.length ≠ 0 := fun h => hFile (List.length_eq_zero_iff.mp h)
  unfold sessionLoad
  simp only [if_neg hPath, if_neg hSize, not_true_eq_false, if_false]
  obtain hScan | ⟨-, hBad⟩ := loadScan_cases lib reads 0 file.length 0 file rfl
    (loadStart path file) (bufInit sessionMaxLine)
  · replace hScan : Incremental.consume (byteStep lib) (loadStart path file, []) file = _ :=
      hScan.symm
    rw [loadBytes, hScan, bind_map_except]
    cases loadScan lib reads 0 file.length 0 file (loadStart path file)
      (bufInit sessionMaxLine) with
    | error err => rfl
    | ok s => rfl
  · exact absurd ⟨hReads, hReads.start 0⟩ hBad

theorem sessionLoad_ok {path file : Bytes} {reads : Nat → ReadResult} {sess : SessionState}
    (h : sessionLoad lib path (.opened true file.length) file reads = .ok sess) :
    ∃ ls, loadBytes lib path file = .ok ls ∧ ls.sess = sess := by
  unfold sessionLoad at h
  split at h
  · cases h
  simp only [not_true_eq_false, if_false] at h
  split at h
  · cases h
  obtain hScan | ⟨⟨err, hErr⟩, -⟩ := loadScan_cases lib reads 0 file.length 0 file rfl
    (loadStart path file) (bufInit sessionMaxLine)
  · replace hScan : Incremental.consume (byteStep lib) (loadStart path file, []) file = _ :=
      hScan.symm
    rw [loadBytes, hScan, bind_map_except]
    split at h
    · cases h
    · rename_i ls line hOk
      rw [hOk]
      cases hTail : loadTail lib ls line.data with
      | error err =>
        rw [hTail] at h
        cases h
      | ok ls' =>
        rw [hTail] at h
        exact ⟨ls', hTail, Except.ok.inj h⟩
  · rw [hErr] at h
    cases h

/-- What the store relies on cJSON for: a print is one line of text, it parses back to the
tree, and nothing shorter parses. -/
structure Printable (lib : JsonLib) (node : CJson) : Prop where
  nonempty : lib.print node ≠ []
  noNewline : newline ∉ lib.print node
  parse_print : lib.parse (lib.print node) = .ok (node, (lib.print node).length)
  parse_torn : ∀ torn, torn <+: lib.print node → torn ≠ lib.print node →
    ∃ offset, lib.parse torn = .error offset

structure PrintsBack (lib : JsonLib) (node : CJson) : Prop where
  nonempty : lib.print node ≠ []
  noNewline : newline ∉ lib.print node
  parse_print : lib.parse (lib.print node) = .ok (node, (lib.print node).length)

theorem Printable.printsBack {node : CJson} (h : Printable lib node) : PrintsBack lib node :=
  ⟨h.nonempty, h.noNewline, h.parse_print⟩

theorem jsonParse_print {node : CJson} {cap : Nat} (h : PrintsBack lib node)
    (hFits : (lib.print node).length ≤ cap) : jsonParse lib (lib.print node) cap = .ok node := by
  rw [jsonParse, if_neg (by omega), h.parse_print]
  simp

theorem jsonParse_torn {node : CJson} {torn : Bytes} (cap : Nat) (h : Printable lib node)
    (hPrefix : torn <+: lib.print node) (hProper : torn ≠ lib.print node) :
    ∃ err, jsonParse lib torn cap = .error err := by
  obtain ⟨offset, hOffset⟩ := h.parse_torn torn hPrefix hProper
  unfold jsonParse
  split
  · exact ⟨_, rfl⟩
  · rw [hOffset]
    exact ⟨_, rfl⟩

theorem consumeLine_message (ls : LoadScan) {msg : CJson} (hPrint : PrintsBack lib msg)
    (hStorable : Storable lib msg) (hHeader : ls.lineNo ≠ 0) (hStaged : ls.stagedLine = 0)
    (hCount : ls.sess.messages.length < sessionMaxMessages) :
    consumeLine lib ls (lib.print msg) =
      .ok { ls with
        sess := { ls.sess with messages := ls.sess.messages ++ [msg] }
        lineNo := ls.lineNo + 1 } := by
  have hRole := hStorable.role
  simp only [hasRole, Bool.and_eq_true] at hRole
  unfold consumeLine
  simp only [if_neg hPrint.nonempty, hStaged, not_true_eq_false, ne_eq, if_false,
    jsonParse_print hPrint hStorable.fits]
  rw [if_neg (by omega)]
  unfold consumeRecord
  simp [hRole, Nat.not_le.mpr hCount]

theorem consumeLine_torn (ls : LoadScan) {msg : CJson} {torn : Bytes} (hPrint : Printable lib msg)
    (hPrefix : torn <+: lib.print msg) (hProper : torn ≠ lib.print msg) (hNe : torn ≠ [])
    (hHeader : ls.lineNo ≠ 0) (hStaged : ls.stagedLine = 0) :
    consumeLine lib ls torn =
      .ok { ls with lineNo := ls.lineNo + 1, stagedLine := ls.lineNo + 1 } := by
  obtain ⟨err, hErr⟩ := jsonParse_torn sessionMaxLine hPrint hPrefix hProper
  unfold consumeLine
  simp only [if_neg hNe, hStaged, not_true_eq_false, ne_eq, if_false, hErr]
  rw [if_neg (by omega)]
  rfl

theorem toInt64_one (castOutside : Double → Int64) :
    (Double.ofInt 1).toInt64 castOutside = 1 := by
  rw [Double.toInt64, if_pos (by decide)]
  decide

theorem headerFields_headerRecord {id : FixedStr (kSessionIdLen + 1)} (hId : id.data ≠ [])
    (created : Int) : headerFields lib (headerRecord id.data created) = some (id, 1) := by
  have hType : jsonGetCstr (headerRecord id.data created) (ascii "type") =
      some (ascii "session") := rfl
  have hVersion : jsonGetInt lib (headerRecord id.data created) (ascii "version") = some 1 :=
    congrArg some (toInt64_one lib.castOutside)
  have hName : jsonGetCstr (headerRecord id.data created) (ascii "id") = some id.data :=
    congrArg some ((cstr_cstr _).trans (cstr_of_nulFree id.nulFree))
  have hCopy : FixedStr.copy? (kSessionIdLen + 1) id.data = some id := by
    have hCstr := cstr_of_nulFree id.nulFree
    rw [FixedStr.copy?, dif_pos (by rw [hCstr]; exact id.fits)]
    exact congrArg some (FixedStr.ext hCstr)
  simp [headerFields, hType, hVersion, hName, hCopy, hId]

theorem consumeLine_header {ls : LoadScan} {id : FixedStr (kSessionIdLen + 1)} {created : Int}
    (hId : id.data ≠ []) (hPrint : Printable lib (headerRecord id.data created))
    (hFits : (lib.print (headerRecord id.data created)).length ≤ sessionMaxLine)
    (hFirst : ls.lineNo = 0) (hStaged : ls.stagedLine = 0) :
    consumeLine lib ls (lib.print (headerRecord id.data created)) =
      .ok { ls with sess := { ls.sess with id := id }, lineNo := 1 } := by
  unfold consumeLine
  simp only [if_neg hPrint.nonempty, hStaged, not_true_eq_false, ne_eq, if_false,
    jsonParse_print hPrint.printsBack hFits, hFirst, Nat.zero_add, if_true]
  simp [consumeHeader, headerFields_headerRecord hId]

theorem loadTail_cut {ls : LoadScan} {msg : CJson} (cut : Nat) (hPrint : Printable lib msg)
    (hStorable : Storable lib msg) (hHeader : ls.lineNo ≠ 0) (hStaged : ls.stagedLine = 0)
    (hCount : ls.sess.messages.length < sessionMaxMessages)
    (hCut : cut ≤ (lib.print msg).length) :
    ∃ ls', loadTail lib ls ((lib.print msg).take cut) = .ok ls' ∧
      ls'.sess.messages =
        ls.sess.messages ++ (if cut = (lib.print msg).length then [msg] else []) ∧
      ls'.sess.id = ls.sess.id := by
  let healed : LoadScan := { ls with sess := { ls.sess with needsHeal := true } }
  by_cases hEnd : cut = (lib.print msg).length
  · rw [hEnd, List.take_length, if_pos rfl]
    have hLine := consumeLine_message healed hPrint.printsBack hStorable hHeader hStaged hCount
    exact ⟨_, (if_neg hPrint.nonempty).trans hLine, rfl, rfl⟩
  · rw [if_neg hEnd, List.append_nil]
    by_cases hNone : (lib.print msg).take cut = []
    · rw [hNone]
      exact ⟨ls, rfl, rfl, rfl⟩
    · have hProper : (lib.print msg).take cut ≠ lib.print msg := by
        intro hEq
        have := congrArg List.length hEq
        rw [List.length_take] at this
        omega
      have hLine := consumeLine_torn healed hPrint (List.take_prefix _ _) hProper hNone
        hHeader hStaged
      exact ⟨_, (if_neg hNone).trans hLine, rfl, rfl⟩

/-- The load of a cut journal, line by line: the induction is on the messages, and the cut
falls past the first record, at the end of its text, or inside it. -/
theorem load_cut_journal (ls : LoadScan) {ms : List CJson} (cut : Nat)
    (hHeader : ls.lineNo ≠ 0) (hStaged : ls.stagedLine = 0)
    (hCount : ls.sess.messages.length + ms.length ≤ sessionMaxMessages)
    (hMs : ∀ m ∈ ms, Printable lib m ∧ Storable lib m) :
    ∃ ls', ((Incremental.consume (byteStep lib) (ls, [])
        ((journal lib.print newline ms).take cut)).bind fun s => loadTail lib s.1 s.2) = .ok ls' ∧
      ls'.sess.messages = ls.sess.messages ++ whole lib.print 0 cut ms ∧
      ls'.sess.id = ls.sess.id := by
  induction ms generalizing ls cut with
  | nil => exact ⟨ls, by simp [loadTail, Except.bind], by simp, rfl⟩
  | cons m ms ih =>
    obtain ⟨hPrint, hStorable⟩ := hMs m List.mem_cons_self
    have hLt : ls.sess.messages.length < sessionMaxMessages := by
      simp only [List.length_cons] at hCount
      omega
    rw [journal_cons]
    by_cases hPast : (lib.print m).length < cut
    · -- the record and its newline survive
      obtain ⟨d, rfl⟩ : ∃ d, cut = d + ((lib.print m).length + 1) := 
        ⟨cut - ((lib.print m).length + 1), by omega⟩
      have hTake : (lib.print m ++ newline :: journal lib.print newline ms).take
          (d + ((lib.print m).length + 1)) =
            lib.print m ++ newline :: (journal lib.print newline ms).take d := by
        rw [List.take_append, List.take_of_length_le (by omega)]
        congr 1
        rw [show d + ((lib.print m).length + 1) - (lib.print m).length = d + 1 by omega]
        rfl
      have hWhole : whole lib.print 0 (d + ((lib.print m).length + 1)) (m :: ms) =
          m :: whole lib.print 0 d ms := by
        rw [whole_cons_of_lt _ (by omega), ← whole_add lib.print 0 ((lib.print m).length + 1) d,
          Nat.zero_add, Nat.zero_add]
      rw [hTake, consume_record hPrint.noNewline hStorable.fits,
        consumeLine_message ls hPrint.printsBack hStorable hHeader hStaged hLt, hWhole]
      obtain ⟨ls', hLoad, hMsgs, hId⟩ := ih { ls with
          sess := { ls.sess with messages := ls.sess.messages ++ [m] }
          lineNo := ls.lineNo + 1 } d (Nat.succ_ne_zero _) hStaged
        (by simp only [List.length_append, List.length_cons, List.length_nil] at hCount ⊢; omega)
        (fun m hm => hMs m (List.mem_cons_of_mem _ hm))
      exact ⟨ls', hLoad, by rw [hMsgs, List.append_assoc]; rfl, hId⟩
    · -- only a part of the text survives, as the unterminated tail
      have hTake : (lib.print m ++ newline :: journal lib.print newline ms).take cut =
          (lib.print m).take cut := by
        rw [List.take_append_of_le_length (by omega)]
      have hSep : newline ∉ (lib.print m).take cut := fun h =>
        hPrint.noNewline (List.mem_of_mem_take h)
      have hFits : ([] : Bytes).length + ((lib.print m).take cut).length ≤ sessionMaxLine := by
        have := hStorable.fits
        simp only [List.length_nil, List.length_take]
        omega
      rw [hTake, consume_text hSep hFits, whole_cons_of_le _ (by omega), Nat.zero_add]
      exact loadTail_cut cut hPrint hStorable hHeader hStaged hLt (by omega)

theorem sessionName_length (stamp : Bytes) (nn : Nat) :
    (sessionName stamp nn).length = (cstr stamp).length + 9 := by
  simp [sessionName, twoDigits, ascii]

theorem openFresh_id {dir stamp path : Bytes} {create : Nat → CreateResult} {nn attempts : Nat}
    {id : FixedStr (kSessionIdLen + 1)}
    (h : openFresh dir stamp create nn attempts = .ok (id, path)) : id.data ≠ [] := by
  induction attempts generalizing nn with
  | zero => cases h
  | succ attempts ih =>
    rw [openFresh] at h
    split at h
    · cases h
    rename_i hLen
    split at h
    · cases h
      simp only [ne_eq, not_not, sessionName_length, kSessionNameLen] at hLen
      have hFree := nulFree_cstr stamp
      cases hStamp : cstr stamp with
      | nil =>
        rw [hStamp] at hLen
        simp at hLen
      | cons b rest =>
        rw [hStamp] at hFree
        have hb : b ≠ 0 := fun h0 => hFree (h0 ▸ List.mem_cons_self)
        have hName : sessionName stamp nn =
            b :: (rest ++ (ascii "_" ++ twoDigits nn ++ ascii ".jsonl")) := by
          simp [sessionName, hStamp]
        rw [FixedStr.truncate_data, hName, kSessionIdLen, List.take_succ_cons, cstr_cons hb]
        exact List.cons_ne_nil b _
    · exact ih h
    · cases h

theorem sessionNew_ok {dir : Except Error Bytes} {now : Int} {stamp : Option Bytes}
    {create : Nat → CreateResult} {os : Nat → WriteResult} {sess : SessionState}
    (h : sessionNew lib dir now stamp create os = .ok sess) :
    sess.id.data ≠ [] ∧ sess.file = lib.print (headerRecord sess.id.data now) ++ [newline] ∧
      sess.messages = [] ∧ sess.needsHeal = false := by
  unfold sessionNew at h
  split at h
  · cases h
  split at h
  · cases h
  split at h
  · cases h
  rename_i id path hOpen
  simp only [writeHeader] at h
  split at h
  · cases h
  rename_i sess' hWrite
  cases h
  obtain hWhole | ⟨torn, err, -, -, hTorn⟩ := writeLine_cases ⟨id, path, [], [], false, false⟩
    (lib.print (headerRecord id.data now)) os
  · rw [hWhole] at hWrite
    cases hWrite
    exact ⟨openFresh_id hOpen, by simp [recordBytes], rfl, rfl⟩
  · rw [hTorn] at hWrite
    cases hWrite

theorem loadBytes_truncated (path : Bytes) {id : FixedStr (kSessionIdLen + 1)} {created : Int}
    {ms : List CJson} {cut : Nat} (hId : id.data ≠ [])
    (hPrint : Printable lib (headerRecord id.data created))
    (hFits : (lib.print (headerRecord id.data created)).length ≤ sessionMaxLine)
    (hCount : ms.length ≤ sessionMaxMessages)
    (hMs : ∀ m ∈ ms, Printable lib m ∧ Storable lib m)
    (hCut : (lib.print (headerRecord id.data created)).length ≤ cut) :
    ∃ ls, loadBytes lib path ((lib.print (headerRecord id.data created) ++
        newline :: journal lib.print newline ms).take cut) = .ok ls ∧
      ls.sess.messages =
        whole lib.print ((lib.print (headerRecord id.data created)).length + 1) cut ms ∧
      ls.sess.id = id := by
  generalize hHeader : lib.print (headerRecord id.data created) = header at hFits hCut ⊢
  have hLine : ∀ ls : LoadScan, ls.lineNo = 0 → ls.stagedLine = 0 →
      consumeLine lib ls header =
        .ok { ls with sess := { ls.sess with id := id }, lineNo := 1 } := by
    intro ls hFirst hStaged
    rw [← hHeader] at hFits ⊢
    exact consumeLine_header hId hPrint hFits hFirst hStaged
  have hSep : newline ∉ header := hHeader ▸ hPrint.noNewline
  unfold loadBytes
  rcases Nat.lt_or_eq_of_le hCut with hPast | rfl
  · obtain ⟨d, rfl⟩ : ∃ d, cut = d + (header.length + 1) := ⟨cut - (header.length + 1), by omega⟩
    have hTake : (header ++ newline :: journal lib.print newline ms).take
        (d + (header.length + 1)) = header ++ newline :: (journal lib.print newline ms).take d := by
      rw [List.take_append, List.take_of_length_le (by omega)]
      congr 1
      rw [show d + (header.length + 1) - header.length = d + 1 by omega]
      rfl
    rw [hTake, consume_record hSep hFits, hLine _ rfl rfl]
    obtain ⟨ls, hLoad, hMsgs, hKeep⟩ := load_cut_journal
      { loadStart path (header ++ newline :: (journal lib.print newline ms).take d) with
        sess := { (loadStart path (header ++ newline ::
          (journal lib.print newline ms).take d)).sess with id := id }
        lineNo := 1 } d (Nat.succ_ne_zero 0) rfl (by simpa [loadStart] using hCount) hMs
    refine ⟨ls, hLoad, ?_, hKeep⟩
    have hShift := whole_add lib.print 0 (header.length + 1) d ms
    rw [Nat.zero_add] at hShift
    rw [hShift, hMsgs]
    rfl
  · have hNone : whole lib.print (header.length + 1) header.length ms = [] := by
      cases ms with
      | nil => rfl
      | cons m ms => rw [whole_cons_of_le _ (by omega), if_neg (by omega)]
    rw [List.take_append_of_le_length le_rfl, List.take_length, hNone,
      consume_text hSep (by simpa using hFits)]
    have hNe : header ≠ [] := hHeader ▸ hPrint.nonempty
    refine ⟨_, (if_neg hNe).trans (hLine _ rfl rfl), rfl, rfl⟩

/-- Truncate the file of a session that was created and only appended to, anywhere past the
header text: a load succeeds, and its messages are the appended ones whose text survived. -/
theorem sessionLoad_truncated {dir : Except Error Bytes} {now : Int} {stamp : Option Bytes}
    {create : Nat → CreateResult} {os : Nat → WriteResult} {sess : SessionState}
    (hNew : sessionNew lib dir now stamp create os = .ok sess)
    (attempts : List Attempt) (hClean : (appendAll lib sess attempts).1.poisoned = false)
    (hHeader : Printable lib (headerRecord sess.id.data now))
    (hFits : (lib.print (headerRecord sess.id.data now)).length ≤ sessionMaxLine)
    (hPrint : ∀ a ∈ attempts, Printable lib a.msg)
    (path : Bytes) (hPath : path ≠ []) {reads : Nat → ReadResult} (hReads : ReadsWell reads)
    (cut : Nat) (hCut : (lib.print (headerRecord sess.id.data now)).length ≤ cut) :
    let file := (appendAll lib sess attempts).1.file.take cut
    ∃ loaded, sessionLoad lib path (.opened true file.length) file reads = .ok loaded ∧
      loaded.id = sess.id ∧
      loaded.messages = whole lib.print
        ((lib.print (headerRecord sess.id.data now)).length + 1) cut
        (appendAll lib sess attempts).2 := by
  intro file
  obtain ⟨hId, hFile, hMsgs, hHeal⟩ := sessionNew_ok hNew
  obtain ⟨hJournal, -, -, hCount, hAll⟩ := appendAll_journal hHeal (by simp [hMsgs]) hClean
  rw [hFile, List.append_assoc] at hJournal
  rw [hMsgs, List.length_nil, Nat.zero_add] at hCount
  have hMs : ∀ m ∈ (appendAll lib sess attempts).2, Printable lib m ∧ Storable lib m := by
    intro m hm
    obtain ⟨hStorable, a, ha, rfl⟩ := hAll m hm
    exact ⟨hPrint a ha, hStorable⟩
  obtain ⟨ls, hLoad, hKept, hKeep⟩ :=
    loadBytes_truncated path hId hHeader hFits hCount hMs hCut
  have hNe : file ≠ [] := by
    intro hEmpty
    have hLen := congrArg List.length hEmpty
    have hPos := List.length_pos_iff.mpr hHeader.nonempty
    simp only [file, hJournal, List.length_take, List.length_append, List.length_nil] at hLen
    omega
  refine ⟨ls.sess, ?_, hKeep, hKept⟩
  rw [sessionLoad_eq hPath hNe hReads]
  have hBytes : file = (lib.print (headerRecord sess.id.data now) ++
      newline :: journal lib.print newline (appendAll lib sess attempts).2).take cut := by
    simp only [file, hJournal]
    rfl
  rw [hBytes, hLoad]
  rfl

/-! A session with one user message, cut inside that message and right after its text. -/

def sampleStamp : Bytes := ascii "20260101T000000"

def sampleNow : Int := 1767225600

def sampleHeaderText : Bytes :=
  ascii "\x7b\"type\":\"session\",\"version\":1,\"id\":\"20260101T000000_00\",\"created\":1767225600\x7d"

def sampleMessage : CJson :=
  jsonAddCstr (jsonAddCstr jsonNewObj (ascii "role") (ascii "user")) (ascii "content") (ascii "hi")

def sampleMessageText : Bytes := ascii "\x7b\"role\":\"user\",\"content\":\"hi\"\x7d"

def sampleHeader : CJson := headerRecord (ascii "20260101T000000_00") sampleNow

def sampleLib : JsonLib where
  parse doc :=
    if doc = sampleHeaderText then .ok (sampleHeader, doc.length)
    else if doc = sampleMessageText then .ok (sampleMessage, doc.length)
    else .error 0
  print node := if hasRole node then sampleMessageText else sampleHeaderText
  castOutside _ := 0

theorem sampleLib_printable {node : CJson}
    (hNode : node = sampleHeader ∨ node = sampleMessage) : Printable sampleLib node := by
  have hTorn : ∀ torn, torn <+: sampleLib.print node → torn ≠ sampleLib.print node →
      ∃ offset, sampleLib.parse torn = .error offset := by
    intro torn hPrefix hProper
    have hLt : torn.length < (sampleLib.print node).length := by
      have := hPrefix.length_le
      have := mt hPrefix.eq_of_length hProper
      omega
    have hHeader : torn ≠ sampleHeaderText := by
      rintro rfl
      rcases hNode with rfl | rfl
      · exact hProper rfl
      · exact absurd hLt (by decide)
    have hMessage : torn ≠ sampleMessageText := by
      rintro rfl
      rcases hNode with rfl | rfl
      · exact absurd hPrefix (by decide)
      · exact hProper rfl
    exact ⟨0, by simp [sampleLib, hHeader, hMessage]⟩
  rcases hNode with rfl | rfl
  · exact ⟨by decide, by decide, rfl, hTorn⟩
  · exact ⟨by decide, by decide, rfl, hTorn⟩

def sampleWrites : Nat → WriteResult := fun _ => .wrote 4096

def sampleReads : Nat → ReadResult := fun _ => .got 7

def samplePath : Bytes := ascii "/s/20260101T000000_00.jsonl"

def sampleSession : SessionState :=
  ⟨FixedStr.truncate kSessionIdLen (ascii "20260101T000000_00"), samplePath,
    sampleHeaderText ++ [newline], [], false, false⟩

def sampleFile : Bytes := sampleHeaderText ++ newline :: sampleMessageText ++ [newline]

/-- Read seven bytes at a time, the file without its last newline still has the message, and
without the closing brace it has not. -/
theorem sessionLoad_truncated_sample :
    (∃ loaded, sessionLoad sampleLib samplePath
        (.opened true (sampleFile.take (sampleFile.length - 1)).length)
        (sampleFile.take (sampleFile.length - 1)) sampleReads = .ok loaded ∧
      loaded.messages = [sampleMessage]) ∧
    ∃ loaded, sessionLoad sampleLib samplePath
        (.opened true (sampleFile.take (sampleFile.length - 2)).length)
        (sampleFile.take (sampleFile.length - 2)) sampleReads = .ok loaded ∧
      loaded.messages = [] := by
  have hNew : sessionNew sampleLib (.ok (ascii "/s")) sampleNow (some sampleStamp)
      (fun _ => .created) sampleWrites = .ok sampleSession := rfl
  have hPrint : ∀ a ∈ [Attempt.mk sampleMessage sampleWrites], Printable sampleLib a.msg := by
    intro a ha
    rw [List.mem_singleton.mp ha]
    exact sampleLib_printable (.inr rfl)
  have hReads : ReadsWell sampleReads := fun k => ⟨0, by decide, by simp, 7, rfl⟩
  constructor
  · obtain ⟨loaded, hLoad, -, hMsgs⟩ := sessionLoad_truncated hNew
      [⟨sampleMessage, sampleWrites⟩] rfl (sampleLib_printable (.inl rfl)) (by decide) hPrint
      samplePath (by decide) hReads (sampleFile.length - 1) (by decide)
    exact ⟨loaded, hLoad, hMsgs⟩
  · obtain ⟨loaded, hLoad, -, hMsgs⟩ := sessionLoad_truncated hNew
      [⟨sampleMessage, sampleWrites⟩] rfl (sampleLib_printable (.inl rfl)) (by decide) hPrint
      samplePath (by decide) hReads (sampleFile.length - 2) (by decide)
    exact ⟨loaded, hLoad, hMsgs⟩

end Mua.Session
