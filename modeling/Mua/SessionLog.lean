import Mua.SessionReload
import Mua.Lib.After

/-! # What a session file tells

A session file grows record by record over many processes: some records are whole,
some torn, and each process that finds a torn tail starts a new line after it. A
load tells the records up to the first torn one, or fails; and so does a load of
any prefix of the file, which is what a crash leaves.
-/

namespace Mua.Session

open Records

variable {lib : JsonLib} {rest file : Bytes} {told kept : List CJson} {msg : CJson}

structure Recorded (lib : JsonLib) (msg : CJson) : Prop where
  printable : Printable lib msg
  storable : Storable lib msg

/-- What follows the header: each record has its line. A load tells the messages `told`, while the
session that wrote the last of the records holds `kept`; past a torn record they differ. -/
inductive Log (lib : JsonLib) : Bytes → List CJson → List CJson → Prop
  | header : Log lib [] [] []
  | blank : Log lib [newline] [] []
  | message {rest : Bytes} {told kept : List CJson} {msg : CJson} (hMsg : Recorded lib msg)
      (hRest : Log lib rest told kept) :
      Log lib (newline :: (lib.print msg ++ rest)) (msg :: told) (msg :: kept)
  | torn {torn rest : Bytes} {msg : CJson} (kept : List CJson) (hMsg : Recorded lib msg)
      (hPrefix : torn <+: lib.print msg) (hProper : torn ≠ lib.print msg) (hSome : torn ≠ [])
      (hRest : rest = [] ∨ ∃ lines, rest = newline :: lines) :
      Log lib (newline :: (torn ++ rest)) [] kept

namespace Log

theorem ends_line (h : Log lib rest told kept) : rest = [] ∨ ∃ lines, rest = newline :: lines := by
  cases h with
  | header => exact .inl rfl
  | blank => exact .inr ⟨[], rfl⟩
  | message _ _ => exact .inr ⟨_, rfl⟩
  | torn _ _ _ _ _ _ => exact .inr ⟨_, rfl⟩

theorem told_prefix (h : Log lib rest told kept) : told <+: kept := by
  induction h with
  | header => exact List.prefix_rfl
  | blank => exact List.prefix_rfl
  | message _ _ ih => exact List.cons_prefix_cons.mpr ⟨rfl, ih⟩
  | torn _ _ _ _ _ _ => exact List.nil_prefix

theorem reloaded (h : Log lib rest told kept) : Log lib rest told told := by
  induction h with
  | header => exact header
  | blank => exact blank
  | message hMsg _ ih => exact message hMsg ih
  | torn _ hMsg hPrefix hProper hSome hRest => exact torn [] hMsg hPrefix hProper hSome hRest

theorem of_prefix {text : Bytes} (hMsg : Recorded lib msg) (hText : text <+: lib.print msg) :
    ∃ told, Log lib (newline :: text) told told ∧ told <+: [msg] := by
  by_cases hWhole : text = lib.print msg
  · have hLog := message hMsg header
    rw [List.append_nil, ← hWhole] at hLog
    exact ⟨[msg], hLog, List.prefix_rfl⟩
  · by_cases hNone : text = []
    · exact ⟨[], hNone ▸ blank, List.nil_prefix⟩
    · have hLog := torn [] hMsg hText hWhole hNone (.inl rfl)
      rw [List.append_nil] at hLog
      exact ⟨[], hLog, List.nil_prefix⟩

/-- Cut anywhere, the records tell a prefix of what they told. -/
theorem cut (h : Log lib rest told kept) {left : Bytes} (hLeft : left <+: rest) :
    ∃ told', Log lib left told' told' ∧ told' <+: told := by
  induction h generalizing left with
  | header => exact ⟨[], List.prefix_nil.mp hLeft ▸ header, List.nil_prefix⟩
  | blank =>
    cases left with
    | nil => exact ⟨[], header, List.nil_prefix⟩
    | cons b left =>
      obtain ⟨rfl, hNil⟩ := List.cons_prefix_cons.mp hLeft
      exact ⟨[], List.prefix_nil.mp hNil ▸ blank, List.nil_prefix⟩
  | message hMsg hRest ih =>
    cases left with
    | nil => exact ⟨[], header, List.nil_prefix⟩
    | cons b left =>
      obtain ⟨rfl, hLine⟩ := List.cons_prefix_cons.mp hLeft
      rcases After.prefix_append_cases hLine with hText | ⟨later, rfl, hLater⟩
      · obtain ⟨told', hLog, hTold⟩ := of_prefix hMsg hText
        exact ⟨told', hLog, hTold.trans (List.cons_prefix_cons.mpr ⟨rfl, List.nil_prefix⟩)⟩
      · obtain ⟨told', hLog, hTold⟩ := ih hLater
        exact ⟨_, message hMsg hLog, List.cons_prefix_cons.mpr ⟨rfl, hTold⟩⟩
  | @torn text rest msg kept hMsg hPrefix hProper hSome hRest =>
    cases left with
    | nil => exact ⟨[], header, List.nil_prefix⟩
    | cons b left =>
      obtain ⟨rfl, hLine⟩ := List.cons_prefix_cons.mp hLeft
      rcases After.prefix_append_cases hLine with hText | ⟨later, rfl, hLater⟩
      · by_cases hNone : left = []
        · exact ⟨[], hNone ▸ blank, List.nil_prefix⟩
        · have hShort : left ≠ lib.print msg := by
            rintro rfl
            exact hProper (hPrefix.eq_of_length_le hText.length_le)
          have hLog := torn [] hMsg (hText.trans hPrefix) hShort hNone (.inl rfl)
          rw [List.append_nil] at hLog
          exact ⟨[], hLog, List.nil_prefix⟩
      · refine ⟨[], torn [] hMsg hPrefix hProper hSome ?_, List.nil_prefix⟩
        cases later with
        | nil => exact .inl rfl
        | cons b later =>
          rcases hRest with rfl | ⟨lines, rfl⟩
          · exact absurd (List.prefix_nil.mp hLater) (List.cons_ne_nil _ _)
          · obtain ⟨rfl, -⟩ := List.cons_prefix_cons.mp hLater
            exact .inr ⟨later, rfl⟩

theorem newline_getLast {line : Bytes} (hLine : newline ∉ line) (rest : Bytes) :
    (newline :: (line ++ rest)).getLast? = some newline ↔
      (line = [] ∧ rest = []) ∨ rest.getLast? = some newline := by
  cases hRest : rest with
  | nil =>
    cases hSome : line with
    | nil => simp
    | cons b bytes =>
      rw [List.append_nil, List.getLast?_cons_cons, ← hSome]
      constructor
      · intro hLast
        exact absurd (List.mem_of_getLast? hLast) hLine
      · rintro (⟨hNil, -⟩ | hLast)
        · exact absurd (hSome.symm.trans hNil) (List.cons_ne_nil b bytes)
        · cases hLast
  | cons b bytes =>
    rw [← hRest, ← List.cons_append, List.getLast?_append]
    simp [hRest]

theorem close (h : Log lib rest told kept) (hOpen : rest.getLast? ≠ some newline) :
    Log lib (rest ++ [newline]) told kept := by
  induction h with
  | header => exact blank
  | blank => exact absurd rfl hOpen
  | message hMsg hRest ih =>
    rw [ne_eq, newline_getLast hMsg.printable.noNewline, not_or] at hOpen
    rw [List.cons_append, List.append_assoc]
    exact message hMsg (ih hOpen.2)
  | torn kept hMsg hPrefix hProper hSome hRest =>
    rw [List.cons_append, List.append_assoc]
    refine torn kept hMsg hPrefix hProper hSome ?_
    rcases hRest with rfl | ⟨lines, rfl⟩
    · exact .inr ⟨[], rfl⟩
    · exact .inr ⟨lines ++ [newline], rfl⟩

theorem write (h : Log lib rest told kept) (hClosed : rest.getLast? = some newline)
    (hNew : Recorded lib msg) : ∃ told', Log lib (rest ++ lib.print msg) told' (kept ++ [msg]) := by
  induction h with
  | header => cases hClosed
  | blank =>
    have hLog := message hNew header
    rw [List.append_nil] at hLog
    exact ⟨[msg], hLog⟩
  | message hMsg hRest ih =>
    rw [newline_getLast hMsg.printable.noNewline] at hClosed
    rcases hClosed with ⟨hNil, -⟩ | hClosed
    · exact absurd hNil hMsg.printable.nonempty
    · obtain ⟨told', hLog⟩ := ih hClosed
      rw [List.cons_append, List.append_assoc]
      exact ⟨_, message hMsg hLog⟩
  | torn kept hMsg hPrefix hProper hSome hRest =>
    have hLine := fun hMem => hMsg.printable.noNewline (hPrefix.subset hMem)
    rw [newline_getLast hLine] at hClosed
    rw [List.cons_append, List.append_assoc]
    refine ⟨[], torn _ hMsg hPrefix hProper hSome ?_⟩
    rcases hRest with rfl | ⟨lines, rfl⟩
    · rcases hClosed with ⟨hNil, -⟩ | hClosed
      · exact absurd hNil hSome
      · cases hClosed
    · exact .inr ⟨lines ++ lib.print msg, rfl⟩

theorem record (h : Log lib rest told kept) (hClosed : rest.getLast? = some newline)
    (hNew : Recorded lib msg) :
    ∃ told', Log lib (rest ++ (lib.print msg ++ [newline])) told' (kept ++ [msg]) := by
  obtain ⟨told', hLog⟩ := h.write hClosed hNew
  refine ⟨told', ?_⟩
  rw [← List.append_assoc]
  apply hLog.close
  rw [List.getLast?_append_of_ne_nil _ hNew.printable.nonempty]
  intro hLast
  exact hNew.printable.noNewline (List.mem_of_getLast? hLast)

end Log

def linesBelow : Bytes → List Bytes
  | [] => []
  | _ :: bytes => bytes.splitOn newline

theorem splitOn_header {header : Bytes} (hHeader : newline ∉ header)
    (hRest : rest = [] ∨ ∃ lines, rest = newline :: lines) :
    (header ++ rest).splitOn newline = header :: linesBelow rest := by
  rcases hRest with rfl | ⟨bytes, rfl⟩
  · rw [List.append_nil]
    exact splitOn_of_notMem hHeader
  · exact splitOn_append hHeader bytes

theorem lines_record {line : Bytes} (hLine : newline ∉ line)
    (hRest : rest = [] ∨ ∃ lines, rest = newline :: lines) :
    linesBelow (newline :: (line ++ rest)) = line :: linesBelow rest := splitOn_header hLine hRest

theorem recordOf_recorded (h : Recorded lib msg) : recordOf lib (lib.print msg) = .message msg := by
  have hRole := h.storable.role
  rw [hasRole, Bool.and_eq_true] at hRole
  rw [recordOf, jsonParse_print h.printable.printsBack h.storable.fits]
  simp [hRole]

theorem recordOf_torn {torn : Bytes} (h : Recorded lib msg) (hPrefix : torn <+: lib.print msg)
    (hProper : torn ≠ lib.print msg) : recordOf lib torn = .corrupt := by
  obtain ⟨err, hErr⟩ := jsonParse_torn sessionMaxLine h.printable hPrefix hProper
  rw [recordOf, hErr]

theorem Log.messagesOf {count : Nat} (h : Log lib rest told kept)
    (hLines : Acceptable lib count (linesBelow rest)) : messagesOf lib (linesBelow rest) = told := by
  induction h generalizing count with
  | header => rfl
  | blank => rfl
  | @message rest told kept msg hMsg hRest ih =>
    have hKind := recordOf_recorded hMsg
    have hGood : (recordOf lib (lib.print msg)).isCorrupt = false := by rw [hKind]; rfl
    have hFits := hMsg.storable.fits
    rw [lines_record hMsg.printable.noNewline hRest.ends_line] at hLines ⊢
    rw [acceptable_cons hMsg.printable.nonempty hFits hGood] at hLines
    have hLater := ih hLines
    unfold Session.messagesOf at hLater ⊢
    rw [recordLines_cons hMsg.printable.nonempty, List.filterMap_cons, hKind, hLater]
    rfl
  | @torn text rest msg kept hMsg hPrefix hProper hSome hRest =>
    have hLine := fun hMem => hMsg.printable.noNewline (hPrefix.subset hMem)
    have hKind := recordOf_torn hMsg hPrefix hProper
    have hFits : text.length ≤ sessionMaxLine := hPrefix.length_le.trans hMsg.storable.fits
    have hCount : count ≤ sessionMaxMessages := (Nat.le_add_right _ _).trans hLines.2.2
    rw [lines_record hLine hRest] at hLines ⊢
    rw [acceptable_corrupt hSome hFits hCount (by rw [hKind]; rfl)] at hLines
    unfold Session.messagesOf
    rw [recordLines_cons hSome, hLines, List.filterMap_cons, hKind]
    rfl

theorem unterminated_splitOn (word : Bytes) :
    unterminated (word.splitOn newline) = false ↔ word = [] ∨ word.getLast? = some newline := by
  induction hLength : word.length using Nat.strongRecOn generalizing word with
  | ind n ih =>
  by_cases hMem : newline ∈ word
  · obtain ⟨line, rest, rfl, hLine⟩ := List.eq_append_cons_of_mem hMem
    have hShort : rest.length < n := by
      rw [← hLength, List.length_append, List.length_cons]
      omega
    have hMore : (rest.splitOn newline).isEmpty = false :=
      List.isEmpty_eq_false_iff.mpr (splitOn_ne_nil rest)
    rw [splitOn_append hLine, unterminated_cons, hMore, Bool.false_and, Bool.false_or,
      ih _ hShort rest rfl]
    cases rest with
    | nil => simp
    | cons b bytes => simp [List.getLast?_cons_cons]
  · rw [splitOn_of_notMem hMem]
    have hLast : word.getLast? ≠ some newline := fun hLast => hMem (List.mem_of_getLast? hLast)
    have hOpen : unterminated [word] = decide (word ≠ []) := rfl
    rw [hOpen, decide_eq_false_iff_not, not_not, or_iff_left hLast]

/-- A file that tells `told`, written last by a session that holds `kept`. -/
def OnDisk (lib : JsonLib) (file : Bytes) (told kept : List CJson) : Prop :=
  ∃ header rest, file = header ++ rest ∧ newline ∉ header ∧ Log lib rest told kept

/-- What a file tells is as `P` says. -/
def Tells (lib : JsonLib) (P : List CJson → Prop) (file : Bytes) : Prop :=
  ∃ told kept, OnDisk lib file told kept ∧ P told

/-- The disk is as `P` says, and a session that can still append is what was written to it. -/
structure OnRecord (lib : JsonLib) (P : List CJson → Prop) (sess : SessionState) : Prop where
  tells : Tells lib P sess.file
  disk : sess.poisoned = false → ∃ told, OnDisk lib sess.file told sess.messages
  heal : sess.poisoned = false → (sess.needsHeal = false ↔ sess.file.getLast? = some newline)

variable {P : List CJson → Prop}

theorem Tells.cut (hP : ∀ {a b}, a <+: b → P b → P a) (h : Tells lib P file) (n : Nat) :
    Tells lib P (file.take n) := by
  obtain ⟨told, kept, ⟨header, rest, rfl, hHeader, hLog⟩, hTold⟩ := h
  have hCut := List.take_prefix n (header ++ rest)
  generalize (header ++ rest).take n = left at hCut
  rcases After.prefix_append_cases hCut with hShort | ⟨later, rfl, hLater⟩
  · refine ⟨[], [], ⟨left, [], (List.append_nil left).symm, ?_, .header⟩, hP List.nil_prefix hTold⟩
    exact fun hMem => hHeader (hShort.subset hMem)
  · obtain ⟨told', hLog', hPrefix⟩ := hLog.cut hLater
    exact ⟨told', told', ⟨header, later, rfl, hHeader, hLog'⟩, hP hPrefix hTold⟩

theorem getLast_header {header : Bytes} (hHeader : newline ∉ header) (rest : Bytes) :
    (header ++ rest).getLast? = some newline ↔ rest.getLast? = some newline := by
  cases rest with
  | nil =>
    rw [List.append_nil]
    constructor
    · intro hLast
      exact absurd (List.mem_of_getLast? hLast) hHeader
    · nofun
  | cons b bytes => rw [List.getLast?_append_of_ne_nil _ (List.cons_ne_nil b bytes)]

theorem OnDisk.record {sess : SessionState} (h : OnDisk lib sess.file told sess.messages)
    (hHeal : sess.needsHeal = false ↔ sess.file.getLast? = some newline)
    (hNew : Recorded lib msg) :
    ∃ told', OnDisk lib (sess.file ++ recordBytes sess (lib.print msg)) told'
      (sess.messages ++ [msg]) := by
  obtain ⟨header, rest, hFile, hHeader, hLog⟩ := h
  rw [hFile, getLast_header hHeader] at hHeal
  unfold recordBytes
  rcases hOpen : sess.needsHeal with _ | _
  · obtain ⟨told', hLog'⟩ := hLog.record (hHeal.mp hOpen) hNew
    refine ⟨told', header, _, ?_, hHeader, hLog'⟩
    rw [hFile]
    simp
  · have hLast : rest.getLast? ≠ some newline := fun hLast => by
      rw [hHeal.mpr hLast] at hOpen
      cases hOpen
    obtain ⟨told', hLog'⟩ := (hLog.close hLast).record List.getLast?_concat hNew
    refine ⟨told', header, _, ?_, hHeader, hLog'⟩
    rw [hFile]
    simp

/-- An append keeps the file and the session as `P` says, when `P` holds of the message too. -/
theorem sessionAppend_onRecord (hP : ∀ {a b}, a <+: b → P b → P a) {sess : SessionState}
    (h : OnRecord lib P sess) (hPrint : Printable lib msg) (hMore : P (sess.messages ++ [msg]))
    (os : Nat → WriteResult) : OnRecord lib P (sessionAppend lib sess msg os).1 := by
  unfold sessionAppend
  split
  · exact h
  rename_i hRole
  split
  · exact h
  rename_i hPoisoned
  split
  · exact h
  dsimp only
  split
  · exact h
  rename_i hFits
  have hClean : sess.poisoned = false := Bool.eq_false_iff.mpr hPoisoned
  obtain ⟨told, hDisk⟩ := h.disk hClean
  have hNew : Recorded lib msg := ⟨hPrint, not_not.mp hRole, Nat.le_of_not_lt hFits⟩
  obtain ⟨told', hWhole⟩ := hDisk.record (h.heal hClean) hNew
  have hTold : told' <+: sess.messages ++ [msg] := by
    obtain ⟨header, rest, -, -, hLog⟩ := hWhole
    exact hLog.told_prefix
  have hTells : Tells lib P (sess.file ++ recordBytes sess (lib.print msg)) :=
    ⟨told', _, hWhole, hP hTold hMore⟩
  obtain hWrote | ⟨torn, err, hPrefix, hProper, hTorn⟩ := writeLine_cases sess (lib.print msg) os
  · rw [hWrote]
    have hClosed : (sess.file ++ recordBytes sess (lib.print msg)).getLast? = some newline := by
      rw [recordBytes, ← List.append_assoc, List.getLast?_concat]
    exact ⟨hTells, fun _ => ⟨told', hWhole⟩, fun _ => iff_of_true rfl hClosed⟩
  · rw [hTorn]
    refine ⟨?_, (fun hSafe => by cases hSafe), fun hSafe => by cases hSafe⟩
    obtain ⟨lost, hLost⟩ := hPrefix
    have hCut := hTells.cut hP (sess.file ++ torn).length
    rwa [← hLost, ← List.append_assoc, List.take_left] at hCut

theorem sessionLoad_onRecord {path : Bytes} {reads : Nat → ReadResult} {sess : SessionState}
    (h : Tells lib P file)
    (hLoad : sessionLoad lib path (.opened true file.length) file reads = .ok sess) :
    OnRecord lib P sess ∧ P sess.messages ∧ sess.poisoned = false := by
  obtain ⟨told, kept, ⟨header, rest, hFile, hHeader, hLog⟩, hTold⟩ := h
  obtain ⟨-, hSome, ls, hScan, rfl⟩ := sessionLoad_ok_scan hLoad
  obtain ⟨hOpened, -⟩ := consume_resumed hSome (sessionScan_ok hScan) [] []
  have hReference := sessionLoad_ok_reference hLoad
  have hSplit : file.splitOn newline = header :: linesBelow rest := by
    rw [hFile]
    exact splitOn_header hHeader hLog.ends_line
  rw [referenceLoad, hSplit] at hReference
  dsimp only at hReference
  obtain ⟨id, -, hLines⟩ := Option.bind_eq_some_iff.mp hReference
  obtain ⟨⟨-, hAcceptable⟩, hLoaded⟩ := Option.ite_none_right_eq_some.mp hLines
  have hMessages : ls.sess.messages = told := by
    rw [← hLog.messagesOf hAcceptable]
    exact (congrArg Loaded.messages (Option.some.inj hLoaded)).symm
  have hHeal : ls.sess.needsHeal = unterminated (file.splitOn newline) := by
    rw [hSplit]
    exact (congrArg Loaded.needsHeal (Option.some.inj hLoaded)).symm
  have hDisk : OnDisk lib ls.sess.file told told := by
    rw [hOpened.file]
    exact ⟨header, rest, hFile, hHeader, hLog.reloaded⟩
  rw [← hMessages] at hDisk hTold
  refine ⟨⟨⟨_, _, hDisk, hTold⟩, fun _ => ⟨_, hDisk⟩, fun _ => ?_⟩, hTold, hOpened.poisoned⟩
  rw [hHeal, hOpened.file, unterminated_splitOn, or_iff_right hSome]

theorem sessionNew_onRecord {dir : Except Error Bytes} {now : Int} {stamp : Option Bytes}
    {create : Nat → CreateResult} {os : Nat → WriteResult} {sess : SessionState}
    (hNew : sessionNew lib dir now stamp create os = .ok sess)
    (hHeader : newline ∉ lib.print (headerRecord sess.id.data now)) (hNone : P []) :
    OnRecord lib P sess ∧ sess.messages = [] := by
  obtain ⟨-, hFile, hMessages, hHeal⟩ := sessionNew_ok hNew
  have hDisk : OnDisk lib sess.file [] sess.messages :=
    ⟨_, [newline], hFile, hHeader, by rw [hMessages]; exact .blank⟩
  refine ⟨⟨⟨[], _, hDisk, hNone⟩, fun _ => ⟨[], hDisk⟩, fun _ => ?_⟩, hMessages⟩
  rw [hFile]
  exact iff_of_true hHeal List.getLast?_concat

end Mua.Session
