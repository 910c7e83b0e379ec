import Mua.SessionLoad

/-! # A load, line by line

The reference cuts the file at its newlines and judges each line by itself. The
load of the file is the reference: chunks, the line buffer and the staged line
are ways to find the lines, and leave no trace in the outcome.
-/

namespace Mua.Session

open Records

inductive Record
  | message (node : CJson)
  | control
  | corrupt

def Record.isCorrupt : Record → Bool
  | .corrupt => true
  | _ => false

def Record.message? : Record → Option CJson
  | .message node => some node
  | _ => none

/-- An object with a string role is a message, one with only a string type a control record. -/
def recordOf (lib : JsonLib) (line : Bytes) : Record :=
  match jsonParse lib line sessionMaxLine with
  | .error _ => .corrupt
  | .ok node =>
    if ¬ node.isObject then .corrupt
    else if (jsonGetCstr node (ascii "role")).isSome then .message node
    else if (jsonGetCstr node (ascii "type")).isSome then .control
    else .corrupt

def headerId (lib : JsonLib) (line : Bytes) : Option (FixedStr (kSessionIdLen + 1)) :=
  (jsonParse lib line sessionMaxLine).toOption.bind fun node =>
    (headerFields lib node).bind fun header => if header.2 = 1 then some header.1 else none

def noId : FixedStr (kSessionIdLen + 1) := FixedStr.truncate kSessionIdLen []

def recordLines (segments : List Bytes) : List Bytes := segments.filter (· ≠ [])

def messagesOf (lib : JsonLib) (segments : List Bytes) : List CJson :=
  (recordLines segments).filterMap fun line => (recordOf lib line).message?

/-- No line is over the cap, only the last nonempty one may be corrupt, and the messages fit
beside the `count` there are. -/
def Acceptable (lib : JsonLib) (count : Nat) (segments : List Bytes) : Prop :=
  (∀ line ∈ segments, line.length ≤ sessionMaxLine) ∧
    (∀ line ∈ (recordLines segments).dropLast, (recordOf lib line).isCorrupt = false) ∧
    count + (messagesOf lib segments).length ≤ sessionMaxMessages

instance (lib : JsonLib) (count : Nat) (segments : List Bytes) :
    Decidable (Acceptable lib count segments) :=
  inferInstanceAs (Decidable (_ ∧ _ ∧ _))

def unterminated (segments : List Bytes) : Bool := (segments.getLast?.getD []) ≠ []

structure Loaded where
  id : FixedStr (kSessionIdLen + 1)
  messages : List CJson
  needsHeal : Bool

def referenceLoad (lib : JsonLib) (file : Bytes) : Option Loaded :=
  match file.splitOn newline with
  | [] => none
  | first :: segments =>
    (if first = [] then some noId else headerId lib first).bind fun id =>
      if first.length ≤ sessionMaxLine ∧ Acceptable lib 0 segments then
        some ⟨id, messagesOf lib segments, unterminated (first :: segments)⟩
      else none

variable {lib : JsonLib}

@[simp] theorem message?_message (node : CJson) : (Record.message node).message? = some node := rfl

@[simp] theorem message?_control : Record.control.message? = none := rfl

@[simp] theorem message?_corrupt : Record.corrupt.message? = none := rfl

theorem recordLines_cons_nil (segments : List Bytes) :
    recordLines ([] :: segments) = recordLines segments := rfl

theorem recordLines_cons {line : Bytes} (h : line ≠ []) (segments : List Bytes) :
    recordLines (line :: segments) = line :: recordLines segments :=
  List.filter_cons_of_pos (by simpa using h)

/-- Below the first line, and with nothing staged, a line is what its record is. -/
theorem consumeLine_record (lib : JsonLib) (ls : LoadScan) {line : Bytes} (hLine : line ≠ [])
    (hHeader : ls.lineNo ≠ 0) (hStaged : ls.stagedLine = 0) :
    match recordOf lib line with
    | .message node =>
      if ls.sess.messages.length < sessionMaxMessages then
        consumeLine lib ls line = .ok { ls with
          sess := { ls.sess with messages := ls.sess.messages ++ [node] }
          lineNo := ls.lineNo + 1 }
      else ∃ err, consumeLine lib ls line = .error err
    | .control => consumeLine lib ls line = .ok { ls with lineNo := ls.lineNo + 1 }
    | .corrupt =>
      consumeLine lib ls line =
        .ok { ls with lineNo := ls.lineNo + 1, stagedLine := ls.lineNo + 1 } := by
  have hFirst : ¬ls.lineNo + 1 = 1 := by omega
  unfold recordOf consumeLine
  simp only [if_neg hLine, hStaged, ne_eq, not_true_eq_false, if_false, if_neg hFirst]
  cases jsonParse lib line sessionMaxLine with
  | error err => rfl
  | ok node =>
    dsimp only
    unfold consumeRecord
    cases hObject : node.isObject with
    | false => simp [stage]
    | true =>
      simp only [not_true_eq_false, if_false]
      cases hRole : (jsonGetCstr node (ascii "role")).isSome with
      | true =>
        simp only [if_true]
        by_cases hCount : ls.sess.messages.length < sessionMaxMessages
        · rw [if_pos hCount, if_neg (Nat.not_le.mpr hCount)]
        · rw [if_neg hCount, if_pos (Nat.not_lt.mp hCount)]
          exact ⟨_, rfl⟩
      | false =>
        simp only [Bool.false_eq_true, if_false]
        cases (jsonGetCstr node (ascii "type")).isSome with
        | true => rfl
        | false => rfl

theorem consumeLine_staged (lib : JsonLib) (ls : LoadScan) {line : Bytes} (hLine : line ≠ [])
    (hStaged : ls.stagedLine ≠ 0) :
    consumeLine lib ls line = .error ⟨.validation, ascii "session: " ++ ls.sess.path ++
      ascii ": corrupt line " ++ decimal ls.stagedLine⟩ := by
  unfold consumeLine
  simp only [if_neg hLine, if_pos hStaged]

abbrev readSegments (lib : JsonLib) : LoadScan → List Bytes → Except Error LoadScan :=
  readLines sessionMaxLine (consumeLine lib) lineTooLong (loadTail lib)

theorem loadBytes_eq (path file : Bytes) :
    loadBytes lib path file = readSegments lib (loadStart path file) (file.splitOn newline) :=
  consume_eq_readLines _ _

def LoadScan.heal (ls : LoadScan) (isLast : Bool) : LoadScan :=
  { ls with sess := { ls.sess with needsHeal := ls.sess.needsHeal || isLast } }

theorem LoadScan.heal_false (ls : LoadScan) : ls.heal false = ls := by
  unfold heal
  rw [Bool.or_false]

theorem LoadScan.heal_true (ls : LoadScan) :
    ls.heal true = { ls with sess := { ls.sess with needsHeal := true } } := by
  unfold heal
  rw [Bool.or_true]

theorem readSegments_cons {ls : LoadScan} {line : Bytes} (segments : List Bytes)
    (hLine : line ≠ []) (hFits : line.length ≤ sessionMaxLine) :
    readSegments lib ls (line :: segments) =
      (consumeLine lib (ls.heal segments.isEmpty) line).bind fun ls => readSegments lib ls segments := by
  cases segments with
  | nil =>
    rw [readSegments, readLines, if_pos hFits, loadTail, if_neg hLine, List.isEmpty_nil,
      LoadScan.heal_true]
    cases consumeLine lib _ line <;> rfl
  | cons next segments =>
    rw [readSegments, readLines_cons (List.cons_ne_nil _ _), if_pos hFits, List.isEmpty_cons,
      LoadScan.heal_false]

theorem readSegments_blank (lib : JsonLib) (ls : LoadScan) (segments : List Bytes) :
    ∃ n, ls.lineNo ≤ n ∧ readSegments lib ls ([] :: segments) =
      readSegments lib { ls with lineNo := n } segments := by
  cases segments with
  | nil => exact ⟨ls.lineNo, le_rfl, rfl⟩
  | cons next segments => exact ⟨ls.lineNo + 1, Nat.le_succ _, rfl⟩

theorem readSegments_tooLong (lib : JsonLib) (ls : LoadScan) {line : Bytes} (segments : List Bytes)
    (hLong : ¬line.length ≤ sessionMaxLine) :
    ∃ err, readSegments lib ls (line :: segments) = .error err := by
  cases segments with
  | nil => exact ⟨_, if_neg hLong⟩
  | cons next segments => exact ⟨_, if_neg hLong⟩

theorem readSegments_staged (lib : JsonLib) (ls : LoadScan) (segments : List Bytes) (hStaged : ls.stagedLine ≠ 0) :
    (readSegments lib ls segments).toOption.map LoadScan.sess =
      if recordLines segments = [] then some ls.sess else none := by
  induction segments generalizing ls with
  | nil => rfl
  | cons line segments ih =>
    by_cases hLine : line = []
    · subst hLine
      obtain ⟨n, -, hBlank⟩ := readSegments_blank lib ls segments
      rw [recordLines_cons_nil, hBlank]
      exact ih _ hStaged
    · rw [if_neg (by rw [recordLines_cons hLine]; exact List.cons_ne_nil _ _)]
      by_cases hFits : line.length ≤ sessionMaxLine
      · have hError := consumeLine_staged lib (ls.heal segments.isEmpty) hLine hStaged
        rw [readSegments_cons segments hLine hFits, hError]
        rfl
      · obtain ⟨err, hError⟩ := readSegments_tooLong lib ls segments hFits
        rw [hError]
        rfl

/-- The session after the lines below the header, when they are acceptable. -/
def withLines (lib : JsonLib) (sess : SessionState) (segments : List Bytes) : SessionState :=
  { sess with
    messages := sess.messages ++ messagesOf lib segments
    needsHeal := sess.needsHeal || unterminated segments }

theorem unterminated_cons (line : Bytes) (segments : List Bytes) :
    unterminated (line :: segments) =
      ((segments.isEmpty && decide (line ≠ [])) || unterminated segments) := by
  cases segments with
  | nil =>
    show decide (line ≠ []) = (true && decide (line ≠ []) || false)
    rw [Bool.true_and, Bool.or_false]
  | cons next segments => simp [unterminated]

theorem withLines_blank (sess : SessionState) (segments : List Bytes) :
    withLines lib sess ([] :: segments) = withLines lib sess segments := by
  unfold withLines
  rw [unterminated_cons]
  simp [messagesOf, recordLines_cons_nil]

theorem withLines_cons {line : Bytes} (hLine : line ≠ []) (sess : SessionState)
    (segments : List Bytes) :
    withLines lib sess (line :: segments) =
      withLines lib { sess with
        messages := sess.messages ++ ((recordOf lib line).message?).toList
        needsHeal := sess.needsHeal || segments.isEmpty } segments := by
  unfold withLines messagesOf
  rw [unterminated_cons, recordLines_cons hLine, List.filterMap_cons]
  cases (recordOf lib line).message? with
  | none => simp [hLine, Bool.or_assoc]
  | some node => simp [hLine, Bool.or_assoc]

theorem withLines_of_blank {segments : List Bytes} (hBlank : recordLines segments = [])
    (sess : SessionState) : withLines lib sess segments = sess := by
  have hTail : unterminated segments = false := by
    have hAll : ∀ l ∈ segments, l = [] := by
      intro l hl
      by_contra hNe
      have hMem : l ∈ recordLines segments := List.mem_filter.mpr ⟨hl, by simpa using hNe⟩
      rw [hBlank] at hMem
      cases hMem
    unfold unterminated
    cases hLast : segments.getLast? with
    | none => rfl
    | some l => simp [hAll l (List.mem_of_getLast? hLast)]
  unfold withLines messagesOf
  rw [hBlank, hTail, List.filterMap_nil, List.append_nil, Bool.or_false]

theorem acceptable_blank (count : Nat) (segments : List Bytes) :
    Acceptable lib count ([] :: segments) ↔ Acceptable lib count segments := by
  unfold Acceptable messagesOf
  rw [recordLines_cons_nil]
  simp

theorem acceptable_cons {count : Nat} {line : Bytes} {segments : List Bytes} (hLine : line ≠ [])
    (hFits : line.length ≤ sessionMaxLine) (hGood : (recordOf lib line).isCorrupt = false) :
    Acceptable lib count (line :: segments) ↔
      Acceptable lib (count + ((recordOf lib line).message?).toList.length) segments := by
  unfold Acceptable messagesOf
  rw [recordLines_cons hLine, List.filterMap_cons]
  have hDrop : (∀ l ∈ (line :: recordLines segments).dropLast, (recordOf lib l).isCorrupt = false) ↔
      ∀ l ∈ (recordLines segments).dropLast, (recordOf lib l).isCorrupt = false := by
    cases recordLines segments with
    | nil => simp
    | cons next lines => simp [hGood]
  rw [hDrop]
  cases (recordOf lib line).message? with
  | none => simp [hFits]
  | some node => simp [hFits, Nat.add_assoc, Nat.add_comm 1]

/-- A corrupt line is acceptable when nothing but blank lines follow it. -/
theorem acceptable_corrupt {count : Nat} {line : Bytes} {segments : List Bytes} (hLine : line ≠ [])
    (hFits : line.length ≤ sessionMaxLine) (hCount : count ≤ sessionMaxMessages)
    (hBad : (recordOf lib line).isCorrupt = true) :
    Acceptable lib count (line :: segments) ↔ recordLines segments = [] := by
  have hNone : (recordOf lib line).message? = none := by
    cases hRecord : recordOf lib line with
    | corrupt => rfl
    | message node => rw [hRecord] at hBad; cases hBad
    | control => rfl
  unfold Acceptable messagesOf
  rw [recordLines_cons hLine, List.filterMap_cons, hNone]
  constructor
  · rintro ⟨-, hLines, -⟩
    by_contra hSome
    rw [List.dropLast_cons_of_ne_nil hSome] at hLines
    have hGood := hLines line List.mem_cons_self
    rw [hBad] at hGood
    cases hGood
  · intro hBlank
    rw [hBlank]
    refine ⟨?_, nofun, hCount⟩
    intro l hl
    rcases List.mem_cons.mp hl with rfl | hl
    · exact hFits
    · by_contra hLong
      have hNe : l ≠ [] := by
        rintro rfl
        exact hLong (Nat.zero_le _)
      have hMem : l ∈ recordLines segments := List.mem_filter.mpr ⟨hl, by simpa using hNe⟩
      rw [hBlank] at hMem
      cases hMem

theorem readSegments_good {ls next : LoadScan} {line : Bytes} {segments : List Bytes}
    (hLine : line ≠ []) (hFits : line.length ≤ sessionMaxLine)
    (hGood : (recordOf lib line).isCorrupt = false)
    (hConsume : consumeLine lib (ls.heal segments.isEmpty) line = .ok next)
    (hSess : next.sess = { ls.sess with
      messages := ls.sess.messages ++ ((recordOf lib line).message?).toList
      needsHeal := ls.sess.needsHeal || segments.isEmpty })
    (hRest : (readSegments lib next segments).toOption.map LoadScan.sess =
      if Acceptable lib next.sess.messages.length segments then
        some (withLines lib next.sess segments)
      else none) :
    (readSegments lib ls (line :: segments)).toOption.map LoadScan.sess =
      if Acceptable lib ls.sess.messages.length (line :: segments) then
        some (withLines lib ls.sess (line :: segments))
      else none := by
  rw [readSegments_cons segments hLine hFits, hConsume, withLines_cons hLine, ← hSess]
  refine hRest.trans (if_congr ?_ rfl rfl)
  rw [acceptable_cons hLine hFits hGood, hSess, List.length_append]

/-- Reading the lines below the header: the induction is on the lines, and each is blank, too
long, a message, a control record or corrupt. -/
theorem readSegments_records (lib : JsonLib) (ls : LoadScan) (segments : List Bytes)
    (hHeader : ls.lineNo ≠ 0) (hStaged : ls.stagedLine = 0)
    (hCount : ls.sess.messages.length ≤ sessionMaxMessages) :
    (readSegments lib ls segments).toOption.map LoadScan.sess =
      if Acceptable lib ls.sess.messages.length segments then some (withLines lib ls.sess segments)
      else none := by
  induction segments generalizing ls with
  | nil =>
    rw [if_pos ⟨nofun, nofun, hCount⟩]
    simp [readSegments, readLines, withLines, messagesOf, recordLines, unterminated, Except.toOption]
  | cons line segments ih =>
    by_cases hFits : line.length ≤ sessionMaxLine
    case neg =>
      obtain ⟨err, hError⟩ := readSegments_tooLong lib ls segments hFits
      rw [hError, if_neg fun h => hFits (h.1 line List.mem_cons_self)]
      rfl
    by_cases hLine : line = []
    · subst hLine
      obtain ⟨n, hn, hBlank⟩ := readSegments_blank lib ls segments
      have hCounted : n ≠ 0 := by omega
      rw [hBlank, withLines_blank]
      refine Eq.trans ?_ (if_congr (acceptable_blank _ _).symm rfl rfl)
      apply ih
      · exact hCounted
      · exact hStaged
      · exact hCount
    have hRecord := consumeLine_record lib (ls.heal segments.isEmpty) hLine hHeader hStaged
    cases hKind : recordOf lib line with
    | corrupt =>
      rw [hKind] at hRecord
      have hRest := readSegments_staged lib
        { ls.heal segments.isEmpty with lineNo := ls.lineNo + 1, stagedLine := ls.lineNo + 1 }
        segments (Nat.succ_ne_zero _)
      have hBad : (recordOf lib line).isCorrupt = true := by rw [hKind]; rfl
      rw [readSegments_cons segments hLine hFits, hRecord]
      refine hRest.trans (Eq.trans ?_ (if_congr (acceptable_corrupt hLine hFits hCount hBad).symm
        rfl rfl))
      refine ite_congr rfl (fun hBlank => ?_) fun _ => rfl
      rw [withLines_cons hLine, withLines_of_blank hBlank, hKind, message?_corrupt,
        Option.toList_none, List.append_nil]
      rfl
    | control =>
      rw [hKind] at hRecord
      apply readSegments_good hLine hFits (by rw [hKind]; rfl) hRecord
      · rw [hKind, message?_control, Option.toList_none, List.append_nil]
        rfl
      · apply ih
        · exact Nat.succ_ne_zero _
        · exact hStaged
        · exact hCount
    | message node =>
      rw [hKind] at hRecord
      dsimp only at hRecord
      split at hRecord
      · rename_i hRoom
        apply readSegments_good hLine hFits (by rw [hKind]; rfl) hRecord
        · rw [hKind, message?_message, Option.toList_some]
          rfl
        · apply ih
          · exact Nat.succ_ne_zero _
          · exact hStaged
          · show (ls.sess.messages ++ [node]).length ≤ sessionMaxMessages
            rw [List.length_append, List.length_singleton]
            exact hRoom
      · rename_i hFull
        obtain ⟨err, hError⟩ := hRecord
        have hOver : ¬Acceptable lib ls.sess.messages.length (line :: segments) := by
          rw [acceptable_cons hLine hFits (by rw [hKind]; rfl), hKind, message?_message,
            Option.toList_some, List.length_singleton]
          rintro ⟨-, -, hSum⟩
          have hLength : ¬ls.sess.messages.length < sessionMaxMessages := hFull
          omega
        rw [readSegments_cons segments hLine hFits, hError, if_neg hOver]
        rfl

theorem consumeLine_first (lib : JsonLib) (ls : LoadScan) {line : Bytes} (hLine : line ≠ []) (hFirst : ls.lineNo = 0)
    (hStaged : ls.stagedLine = 0) :
    match headerId lib line with
    | some id => consumeLine lib ls line = .ok { ls with sess := { ls.sess with id := id }, lineNo := 1 }
    | none => ∃ err, consumeLine lib ls line = .error err := by
  unfold headerId consumeLine
  simp only [if_neg hLine, hStaged, ne_eq, not_true_eq_false, if_false, hFirst, Nat.zero_add, if_true]
  cases jsonParse lib line sessionMaxLine with
  | error err => exact ⟨_, rfl⟩
  | ok node =>
    dsimp only [Except.toOption, Option.bind_some]
    unfold consumeHeader
    cases headerFields lib node with
    | none => exact ⟨_, rfl⟩
    | some header =>
      obtain ⟨id, version⟩ := header
      dsimp only [Option.bind_some]
      by_cases hVersion : version = 1
      · rw [if_pos hVersion, if_neg (not_not_intro hVersion)]
      · rw [if_neg hVersion, if_pos hVersion]
        exact ⟨_, rfl⟩

def SessionState.loaded (sess : SessionState) : Loaded := ⟨sess.id, sess.messages, sess.needsHeal⟩

theorem readSegments_below (lib : JsonLib) (segments : List Bytes) (next : LoadScan) (hHeader : next.lineNo ≠ 0)
    (hStaged : next.stagedLine = 0) (hNone : next.sess.messages = []) :
    ((readSegments lib next segments).map LoadScan.sess).toOption.map SessionState.loaded =
      if Acceptable lib 0 segments then
        some ⟨next.sess.id, messagesOf lib segments, next.sess.needsHeal || unterminated segments⟩
      else none := by
  have hRest := readSegments_records lib next segments hHeader hStaged
    (by rw [hNone]; exact Nat.zero_le _)
  have hMap : ∀ r : Except Error LoadScan, (r.map LoadScan.sess).toOption =
      r.toOption.map LoadScan.sess := by
    intro r
    cases r <;> rfl
  rw [hMap, hRest, hNone]
  by_cases hAcceptable : Acceptable lib 0 segments
  · have hSame : Acceptable lib ([] : List CJson).length segments := hAcceptable
    rw [if_pos hSame, if_pos hAcceptable]
    unfold withLines SessionState.loaded
    rw [hNone]
    rfl
  · have hSame : ¬Acceptable lib ([] : List CJson).length segments := hAcceptable
    rw [if_neg hSame, if_neg hAcceptable]
    rfl

theorem loadBytes_reference (path : Bytes) {file : Bytes} (hFile : file ≠ []) :
    ((loadBytes lib path file).map LoadScan.sess).toOption.map SessionState.loaded =
      referenceLoad lib file := by
  rw [loadBytes_eq, referenceLoad]
  cases hSplit : file.splitOn newline with
  | nil => exact absurd hSplit (splitOn_ne_nil file)
  | cons first segments =>
    dsimp only
    by_cases hFits : first.length ≤ sessionMaxLine
    case neg =>
      obtain ⟨err, hError⟩ := readSegments_tooLong lib (loadStart path file) segments hFits
      have hOver : ¬(first.length ≤ sessionMaxLine ∧ Acceptable lib 0 segments) := fun h => hFits h.1
      rw [hError]
      simp only [if_neg hOver]
      cases (if first = [] then some noId else headerId lib first) with
      | none => rfl
      | some id => rfl
    have hRest : (first.length ≤ sessionMaxLine ∧ Acceptable lib 0 segments) ↔
        Acceptable lib 0 segments := and_iff_right hFits
    simp only [hRest]
    by_cases hFirst : first = []
    · subst hFirst
      rw [if_pos rfl, Option.bind_some]
      cases segments with
      | nil =>
        have hNil : [newline].intercalate (file.splitOn newline) = file :=
          List.intercalate_splitOn newline
        rw [hSplit] at hNil
        exact absurd hNil.symm hFile
      | cons next segments =>
        have hBelow := readSegments_below lib (next :: segments)
          { loadStart path file with lineNo := 1 } nofun rfl rfl
        exact hBelow
    · rw [if_neg hFirst, readSegments_cons segments hFirst hFits]
      have hHeader := consumeLine_first lib ((loadStart path file).heal segments.isEmpty) hFirst
        rfl rfl
      cases hId : headerId lib first with
      | none =>
        rw [hId] at hHeader
        obtain ⟨err, hError⟩ := hHeader
        rw [hError]
        rfl
      | some id =>
        rw [hId] at hHeader
        rw [hHeader, Option.bind_some, unterminated_cons, decide_eq_true hFirst, Bool.and_true]
        exact readSegments_below lib segments { (loadStart path file).heal segments.isEmpty with
          sess := { ((loadStart path file).heal segments.isEmpty).sess with id := id }
          lineNo := 1 } nofun rfl rfl

theorem sessionLoad_ok_reference {path file : Bytes} {reads : Nat → ReadResult}
    {sess : SessionState}
    (h : sessionLoad lib path (.opened true file.length) file reads = .ok sess) :
    referenceLoad lib file = some sess.loaded := by
  have hFile : file ≠ [] := by
    rintro rfl
    unfold sessionLoad at h
    split at h
    · cases h
    · cases h
  obtain ⟨ls, hLoad, rfl⟩ := sessionLoad_ok h
  rw [← loadBytes_reference path hFile, hLoad]
  rfl

theorem sampleReads_well : ReadsWell sampleReads := fun k => ⟨0, by decide, by simp, 7, rfl⟩

end Mua.Session
