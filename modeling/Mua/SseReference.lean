import Mua.SseSplit

/-! # The EventSource algorithm and the decoder

The reference reads a whole stream: it strips one BOM, makes every line end a
LF, splits at LF and interprets the lines. It has no carry, no pending LF and no
caps. A stream within the caps makes the decoder emit the reference's events.
-/

namespace Mua.Sse

open Incremental

namespace Reference

def stripBom (stream : Bytes) : Bytes :=
  if bomBytes.isPrefixOf stream then stream.drop 3 else stream

def normalizeNewlines : Bytes → Bytes
  | [] => []
  | b :: rest =>
    if b = cr then
      if rest.head? = some lf then normalizeNewlines rest else lf :: normalizeNewlines rest
    else b :: normalizeNewlines rest

/-- The terminated lines; what follows the last LF is not a line yet. -/
def lines (stream : Bytes) : List Bytes := ((normalizeNewlines (stripBom stream)).splitOn lf).dropLast

/-- The event source between two lines: the data lines seen since the last dispatch, the
event type named since then, and the last id. -/
structure EventSource where
  dataLines : List Bytes
  eventType : Bytes
  lastId : Bytes
  deriving DecidableEq, Repr

def EventSource.fresh : EventSource := ⟨[], [], []⟩

def setField (s : EventSource) (name value : Bytes) : EventSource :=
  if name = ascii "data" then { s with dataLines := s.dataLines ++ [value] }
  else if name = ascii "event" then { s with eventType := value }
  else if name = ascii "id" then if (0 : Byte) ∈ value then s else { s with lastId := value }
  else s

def dispatched (s : EventSource) : Option SseEvent :=
  if s.dataLines = [] then none
  else some {
    eventType := if s.eventType = [] then ascii "message" else s.eventType
    data := [lf].intercalate s.dataLines
    id := s.lastId }

/-- The part of a field line before its first colon, and the value after it less one space. -/
def field (line : Bytes) : Bytes × Bytes :=
  match line.splitOn colon with
  | [] => ([], [])
  | [name] => (name, [])
  | name :: _ =>
    let value := line.drop (name.length + 1)
    (name, if value.head? = some space then value.tail else value)

def interpretLine (s : EventSource) (line : Bytes) : EventSource × Option SseEvent :=
  if line = [] then ({ s with dataLines := [], eventType := [] }, dispatched s)
  else if line.head? = some colon then (s, none)
  else (setField s (field line).1 (field line).2, none)

def interpret (s : EventSource) : List Bytes → List SseEvent
  | [] => []
  | line :: rest => (interpretLine s line).2.toList ++ interpret (interpretLine s line).1 rest

def events (stream : Bytes) : List SseEvent := interpret .fresh (lines stream)

/-- The data buffer of the algorithm: every data line and a LF after each. -/
def dataBuffer (s : EventSource) : Bytes := s.dataLines.flatMap (· ++ [lf])

def Fits (lim : SseLimits) (s : EventSource) : Prop :=
  (dataBuffer s).length ≤ lim.maxEventData ∧ s.eventType.length ≤ lim.maxEventType ∧
    s.lastId.length ≤ lim.maxId

instance (lim : SseLimits) (s : EventSource) : Decidable (Fits lim s) :=
  inferInstanceAs (Decidable (_ ∧ _ ∧ _))

def FitsAll (lim : SseLimits) (s : EventSource) : List Bytes → Prop
  | [] => True
  | line :: rest =>
    Fits lim (interpretLine s line).1 ∧ FitsAll lim (interpretLine s line).1 rest

instance decidableFitsAll (lim : SseLimits) :
    (s : EventSource) → (lines : List Bytes) → Decidable (FitsAll lim s lines)
  | _, [] => isTrue trivial
  | s, line :: rest =>
    have := decidableFitsAll lim (interpretLine s line).1 rest
    inferInstanceAs (Decidable (Fits lim _ ∧ FitsAll lim _ rest))

/-- The stream exceeds none of the caps: no line, the unfinished one included, and no buffer. -/
def WithinCaps (lim : SseLimits) (stream : Bytes) : Prop :=
  (∀ line ∈ (normalizeNewlines (stripBom stream)).splitOn lf, line.length ≤ lim.maxLine) ∧
    FitsAll lim .fresh (lines stream)

instance (lim : SseLimits) (stream : Bytes) : Decidable (WithinCaps lim stream) :=
  inferInstanceAs (Decidable (_ ∧ _))

end Reference

open Reference

theorem field_eq (line : Bytes) : field line = (fieldName line, fieldValue line) := by
  by_cases hColon : colon ∈ line
  · obtain ⟨name, value, rfl, hName⟩ := List.eq_append_cons_of_mem hColon
    have hText : ∀ b ∈ name, (decide (b ≠ colon)) = true := by
      intro b hb
      have : b ≠ colon := fun h => hName (h ▸ hb)
      simpa using this
    have hTake : fieldName (name ++ colon :: value) = name := by
      rw [fieldName, List.takeWhile_append_of_pos hText]
      simp
    have hDrop : (name ++ colon :: value).dropWhile (· ≠ colon) = colon :: value := by
      rw [List.dropWhile_append_of_pos hText]
      simp
    have hAfter : (name ++ colon :: value).drop (name.length + 1) = value := by simp
    rw [hTake, fieldValue, hDrop, field, List.splitOn_append_cons_self_of_not_mem hName]
    cases hRest : value.splitOn colon with
    | nil => exact absurd hRest (List.splitOn_ne_nil _ _)
    | cons first others =>
      dsimp only
      rw [hAfter]
  · have hText : ∀ b ∈ line, (decide (b ≠ colon)) = true := by
      intro b hb
      have : b ≠ colon := fun h => hColon (h ▸ hb)
      simpa using this
    have hTake : fieldName line = line := List.takeWhile_eq_self_iff.mpr hText
    have hDrop : line.dropWhile (· ≠ colon) = [] := List.dropWhile_eq_nil_iff.mpr hText
    rw [hTake, fieldValue, hDrop, field, List.splitOn_eq_singleton hColon]

theorem dropLast_dataBuffer {s : EventSource} (h : s.dataLines ≠ []) :
    (dataBuffer s).dropLast = [lf].intercalate s.dataLines := by
  have hJoin : ∀ dataLines : List Bytes, dataLines ≠ [] →
      dataLines.flatMap (· ++ [lf]) = [lf].intercalate dataLines ++ [lf] := by
    intro dataLines
    induction dataLines with
    | nil => exact fun h => absurd rfl h
    | cons first rest ih =>
      intro _
      cases rest with
      | nil => simp
      | cons second rest =>
        rw [List.flatMap_cons, ih (List.cons_ne_nil _ _), List.intercalate_cons_cons]
        simp
  rw [dataBuffer, hJoin _ h, List.dropLast_concat]

theorem dataBuffer_eq_nil {s : EventSource} : dataBuffer s = [] ↔ s.dataLines = [] := by
  cases h : s.dataLines <;> simp [dataBuffer, h]

/-- The parser's buffers hold what the event source has seen. -/
structure Matches {lim : SseLimits} (parser : SseParser lim) (s : EventSource) : Prop where
  data : parser.data.data = dataBuffer s
  eventType : parser.eventType.data = s.eventType
  id : parser.id.data = s.lastId

variable {lim : SseLimits}

theorem bufAppend_some_of_le {max : Nat} (buf : Buf max) {bytes : Bytes}
    (h : (buf.data ++ bytes).length ≤ max) :
    bufAppend buf bytes = some ⟨buf.data ++ bytes, h⟩ := bufAppend_eq_some.mpr rfl

theorem processField_matches {parser : SseParser lim} {s : EventSource} {name value : Bytes}
    (hMatch : Matches parser s) (hFits : Fits lim (setField s name value)) :
    ∃ parser', processField parser name value = (parser', none) ∧
      Matches parser' (setField s name value) := by
  unfold setField at hFits ⊢
  unfold processField
  split_ifs at hFits ⊢ with hData hType hId hNul
  · have hLength : (parser.data.data ++ (value ++ [lf])).length ≤ lim.maxEventData := by
      have h := hFits.1
      rwa [dataBuffer, List.flatMap_append, List.flatMap_singleton, ← dataBuffer, ← hMatch.data] at h
    have hBoth : bufAppend parser.data (value ++ [lf]) = some ⟨_, hLength⟩ :=
      bufAppend_some_of_le _ hLength
    rw [bufAppend_append] at hBoth
    obtain ⟨first, hFirst, hSecond⟩ := Option.bind_eq_some_iff.mp hBoth
    rw [hFirst]
    dsimp only
    rw [hSecond]
    refine ⟨_, rfl, ⟨?_, hMatch.eventType, hMatch.id⟩⟩
    simp [dataBuffer, hMatch.data]
  · rw [bufAppend_some_of_le (bufReset parser.eventType) (by simpa using hFits.2.1)]
    exact ⟨_, rfl, ⟨hMatch.data, rfl, hMatch.id⟩⟩
  · exact ⟨_, rfl, hMatch⟩
  · rw [bufAppend_some_of_le (bufReset parser.id) (by simpa using hFits.2.2)]
    exact ⟨_, rfl, ⟨hMatch.data, hMatch.eventType, rfl⟩⟩
  · exact ⟨_, rfl, hMatch⟩

def always (_ : List SseEvent) : Bool := true

theorem processLine_matches {parser : SseParser lim} {s : EventSource} {line : Bytes}
    (hMatch : Matches parser s) (hFits : Fits lim (interpretLine s line).1)
    (emitted : List SseEvent) :
    ∃ parser', processLine (recordEvents always) parser emitted line =
        (parser', emitted ++ (interpretLine s line).2.toList, none) ∧
      Matches parser' (interpretLine s line).1 := by
  unfold processLine interpretLine at *
  split_ifs at hFits ⊢ with hBlank hComment
  · unfold dispatchEvent dispatched
    by_cases hNone : s.dataLines = []
    · have hData : parser.data.data = [] := hMatch.data.trans (dataBuffer_eq_nil.mpr hNone)
      rw [if_pos hData, if_pos hNone]
      exact ⟨{ parser with eventType := bufReset parser.eventType },
        by rw [Option.toList_none, List.append_nil], ⟨hData, rfl, hMatch.id⟩⟩
    · have hData : parser.data.data ≠ [] := by
        rw [hMatch.data]
        exact fun h => hNone (dataBuffer_eq_nil.mp h)
      have hEvent : pendingEvent parser =
          ⟨if s.eventType = [] then ascii "message" else s.eventType,
            [lf].intercalate s.dataLines, s.lastId⟩ := by
        rw [pendingEvent, hMatch.data, hMatch.eventType, hMatch.id, dropLast_dataBuffer hNone]
      rw [if_neg hData, if_neg hNone, hEvent]
      exact ⟨{ parser with data := bufReset parser.data, eventType := bufReset parser.eventType },
        rfl, ⟨rfl, rfl, hMatch.id⟩⟩
  · exact ⟨_, by simp, hMatch⟩
  · rw [field_eq] at hFits ⊢
    obtain ⟨parser', hField, hMatch'⟩ := processField_matches hMatch hFits
    refine ⟨parser', ?_, hMatch'⟩
    rw [hField]
    simp

/-- What is left to normalizeNewlines when the LF of a CR may still come. -/
def afterCr (stream : Bytes) : Bytes :=
  if stream.head? = some lf then normalizeNewlines stream.tail else normalizeNewlines stream

theorem normalize_cr (rest : Bytes) : normalizeNewlines (cr :: rest) = lf :: afterCr rest := by
  rw [normalizeNewlines, if_pos rfl, afterCr]
  split
  · rename_i hHead
    obtain ⟨tail, rfl⟩ : ∃ tail, rest = lf :: tail := by
      cases rest with
      | nil => cases hHead
      | cons b tail => exact ⟨tail, by rw [Option.some.inj hHead]⟩
    rw [normalizeNewlines, if_neg (by decide)]
    rfl
  · rfl

theorem normalize_other {b : Byte} (hb : b ≠ cr) (rest : Bytes) :
    normalizeNewlines (b :: rest) = b :: normalizeNewlines rest := by
  rw [normalizeNewlines, if_neg hb]

/-- The stream that the parser has still to see, under its pending LF. -/
def unread (parser : SseParser lim) (stream : Bytes) : Bytes :=
  if parser.pendingLfSkip then afterCr stream else normalizeNewlines stream

theorem splitOn_lf_append {carry : Bytes} (hCarry : lf ∉ carry) (stream : Bytes) :
    (carry ++ lf :: stream).splitOn lf = carry :: stream.splitOn lf :=
  List.splitOn_append_cons_self_of_not_mem hCarry stream

theorem dropLast_cons_splitOn (line stream : Bytes) :
    (line :: stream.splitOn lf).dropLast = line :: (stream.splitOn lf).dropLast :=
  List.dropLast_cons_of_ne_nil (List.splitOn_ne_nil _ _)

theorem length_le_of_splitOn {text stream : Bytes} (hText : lf ∉ text) {max : Nat}
    (h : ∀ line ∈ (text ++ stream).splitOn lf, line.length ≤ max) : text.length ≤ max := by
  by_cases hLf : lf ∈ stream
  · obtain ⟨rest, tail, rfl, hRest⟩ := List.eq_append_cons_of_mem hLf
    have hLine : text ++ rest ∈ (text ++ (rest ++ lf :: tail)).splitOn lf := by
      rw [← List.append_assoc, splitOn_lf_append (by simp [hText, hRest])]
      exact List.mem_cons_self
    have hLength := h _ hLine
    rw [List.length_append] at hLength
    omega
  · have hLine : text ++ stream ∈ (text ++ stream).splitOn lf := by
      rw [List.splitOn_eq_singleton (by simp [hText, hLf])]
      exact List.mem_cons_self
    have hLength := h _ hLine
    rw [List.length_append] at hLength
    omega

/-- The invariant of the run: the consumed prefix is in the buffers and the carry, and what
is left of the normalized stream continues the carry. -/
structure Between (parser : SseParser lim) (s : EventSource) (stream : Bytes) : Prop where
  state : parser.state = .line
  buffers : Matches parser s
  carry : lf ∉ parser.carry.data
  lines : ∀ line ∈ (parser.carry.data ++ unread parser stream).splitOn lf,
    line.length ≤ lim.maxLine
  fits : FitsAll lim s ((parser.carry.data ++ unread parser stream).splitOn lf).dropLast

theorem matches_of_frame {parser parser' : SseParser lim} {s : EventSource}
    (h : Matches parser s) (hData : parser'.data = parser.data)
    (hType : parser'.eventType = parser.eventType) (hId : parser'.id = parser.id) :
    Matches parser' s :=
  ⟨hData ▸ h.data, hType ▸ h.eventType, hId ▸ h.id⟩

theorem lineByte_between {parser : SseParser lim} {s : EventSource} {term : Byte}
    {rest rest' : Bytes} {emitted : List SseEvent} (hTerm : term = cr ∨ term = lf)
    (hState : parser.state = .line) (hBuffers : Matches parser s)
    (hCarry : lf ∉ parser.carry.data)
    (hRest : (if term = cr then afterCr rest else normalizeNewlines rest) = rest')
    (hLines : ∀ line ∈ (parser.carry.data ++ lf :: rest').splitOn lf, line.length ≤ lim.maxLine)
    (hFits : FitsAll lim s ((parser.carry.data ++ lf :: rest').splitOn lf).dropLast) :
    ∃ parser', lineByte (recordEvents always) parser emitted term =
        .ok (parser', emitted ++ (interpretLine s parser.carry.data).2.toList) ∧
      parser'.carry.data = [] ∧ unread parser' rest = rest' ∧
      Between parser' (interpretLine s parser.carry.data).1 rest := by
  rw [splitOn_lf_append hCarry] at hLines hFits
  rw [dropLast_cons_splitOn] at hFits
  obtain ⟨parser', hLine, hBuffers'⟩ := processLine_matches hBuffers hFits.1 emitted
  have hUnread : unread { parser' with
      carry := bufReset parser'.carry, pendingLfSkip := decide (term = cr) } rest = rest' := by
    rw [← hRest, unread]
    by_cases h : term = cr <;> simp [h]
  refine ⟨_, ?_, rfl, hUnread, ⟨?_, ?_, List.not_mem_nil, ?_, ?_⟩⟩
  · rw [lineByte_terminator parser emitted hTerm, hLine]
  · exact (processLine_frame hLine).state.trans hState
  · exact ⟨hBuffers'.data, hBuffers'.eventType, hBuffers'.id⟩
  · rw [hUnread]
    exact fun line h => hLines line (List.mem_cons_of_mem _ h)
  · rw [hUnread]
    exact hFits.2

/-- The lines still to be terminated, as the reference reads them. -/
def pendingLines (parser : SseParser lim) (stream : Bytes) : List Bytes :=
  ((parser.carry.data ++ unread parser stream).splitOn lf).dropLast

/-- One byte of a line: the events it completes are the next ones of the reference. -/
theorem lineByte_reference {parser : SseParser lim} {s : EventSource} {b : Byte} {rest : Bytes}
    (hSkip : parser.pendingLfSkip = false) (h : Between parser s (b :: rest))
    (emitted : List SseEvent) :
    ∃ parser' s' events,
      lineByte (recordEvents always) parser emitted b = .ok (parser', emitted ++ events) ∧
        Between parser' s' rest ∧
        interpret s (pendingLines parser (b :: rest)) =
          events ++ interpret s' (pendingLines parser' rest) := by
  obtain ⟨hState, hBuffers, hCarry, hLines, hFits⟩ := h
  have hUnread : unread parser (b :: rest) = normalizeNewlines (b :: rest) := by simp [unread, hSkip]
  rw [hUnread] at hLines hFits
  rw [pendingLines, hUnread]
  by_cases hTerm : b = cr ∨ b = lf
  · have hNorm : normalizeNewlines (b :: rest) =
        lf :: (if b = cr then afterCr rest else normalizeNewlines rest) := by
      by_cases hCr : b = cr
      · rw [if_pos hCr, hCr, normalize_cr]
      · rw [if_neg hCr, normalize_other hCr, hTerm.resolve_left hCr]
    rw [hNorm] at hLines hFits ⊢
    obtain ⟨parser', hByte, hEmpty, hRest, hBetween⟩ :=
      lineByte_between hTerm hState hBuffers hCarry rfl hLines hFits
    refine ⟨parser', _, _, hByte, hBetween, ?_⟩
    rw [splitOn_lf_append hCarry, dropLast_cons_splitOn, interpret, pendingLines, hEmpty, hRest,
      List.nil_append]
  · have hText := not_or.mp hTerm
    have hCarry' : lf ∉ parser.carry.data ++ [b] := by
      simpa [hCarry] using fun h => hText.2 h.symm
    have hMore : parser.carry.data ++ normalizeNewlines (b :: rest) =
        parser.carry.data ++ [b] ++ normalizeNewlines rest := by
      rw [normalize_other hText.1, List.append_assoc, List.singleton_append]
    rw [hMore] at hLines hFits ⊢
    have hLength : (parser.carry.data ++ [b]).length ≤ lim.maxLine :=
      length_le_of_splitOn hCarry' hLines
    have hAppend : bufAppend parser.carry [b] = some ⟨parser.carry.data ++ [b], hLength⟩ :=
      bufAppend_some_of_le _ hLength
    have hUnread' : ∀ carry, unread { parser with carry := carry } rest = normalizeNewlines rest := by
      intro carry
      simp [unread, hSkip]
    refine ⟨{ parser with carry := ⟨parser.carry.data ++ [b], hLength⟩ }, s, [], ?_,
      ⟨hState, matches_of_frame hBuffers rfl rfl rfl, hCarry', ?_, ?_⟩, ?_⟩
    · rw [lineByte_text parser emitted hText, hAppend, List.append_nil]
    · rw [hUnread']
      exact hLines
    · rw [hUnread']
      exact hFits
    · rw [pendingLines, hUnread']
      rfl

theorem consume_reference {parser : SseParser lim} {s : EventSource} {stream : Bytes}
    (h : Between parser s stream) (emitted : List SseEvent) :
    ∃ parser', consume (byteStep (recordEvents always)) (parser, emitted) stream =
      .ok (parser', emitted ++ interpret s (pendingLines parser stream)) := by
  induction stream generalizing parser s emitted with
  | nil =>
    have hUnread : unread parser [] = [] := by
      unfold unread
      split <;> rfl
    refine ⟨parser, ?_⟩
    rw [consume_nil, pendingLines, hUnread, List.append_nil, List.splitOn_eq_singleton h.carry]
    simp [interpret]
  | cons b rest ih =>
    cases hSkip : parser.pendingLfSkip with
    | false =>
      obtain ⟨parser', s', events, hByte, hBetween, hLines⟩ := lineByte_reference hSkip h emitted
      obtain ⟨parser'', hRun⟩ := ih hBetween (emitted ++ events)
      rw [← byteStep_line h.state hSkip emitted b] at hByte
      refine ⟨parser'', ?_⟩
      rw [consume_cons_ok hByte, hRun, hLines, List.append_assoc]
    | true =>
      have hParser : parser = { parser with pendingLfSkip := true } := by rw [← hSkip]
      have hUnread : unread parser (b :: rest) = afterCr (b :: rest) := by simp [unread, hSkip]
      have hStep : consume (byteStep (recordEvents always)) (parser, emitted) (b :: rest) =
          consume (byteStep (recordEvents always)) ({ parser with pendingLfSkip := false }, emitted)
            (if b = lf then rest else b :: rest) := by
        conv_lhs => rw [hParser]
        exact consume_skip parser emitted b rest
      by_cases hLf : b = lf
      · have hSame : unread { parser with pendingLfSkip := false } rest =
            unread parser (b :: rest) := by
          rw [hUnread, afterCr, hLf]
          rfl
        rw [hStep, if_pos hLf]
        have hBetween : Between { parser with pendingLfSkip := false } s rest :=
          ⟨h.state, matches_of_frame h.buffers rfl rfl rfl, h.carry, hSame ▸ h.lines,
            hSame ▸ h.fits⟩
        obtain ⟨parser', hRun⟩ := ih hBetween emitted
        refine ⟨parser', ?_⟩
        rw [hRun, pendingLines, pendingLines, hSame]
      · have hSame : unread { parser with pendingLfSkip := false } (b :: rest) =
            unread parser (b :: rest) := by
          rw [hUnread, afterCr, if_neg (by simpa using hLf)]
          rfl
        have hBetween : Between { parser with pendingLfSkip := false } s (b :: rest) :=
          ⟨h.state, matches_of_frame h.buffers rfl rfl rfl, h.carry, hSame ▸ h.lines,
            hSame ▸ h.fits⟩
        obtain ⟨parser', s', events, hByte, hNext, hLines⟩ :=
          lineByte_reference rfl hBetween emitted
        obtain ⟨parser'', hRun⟩ := ih hNext (emitted ++ events)
        rw [← byteStep_line (p := { parser with pendingLfSkip := false }) h.state rfl
          emitted b] at hByte
        refine ⟨parser'', ?_⟩
        have hSegments : pendingLines parser (b :: rest) =
            pendingLines { parser with pendingLfSkip := false } (b :: rest) := by
          rw [pendingLines, pendingLines, hSame]
        rw [hStep, if_neg hLf, consume_cons_ok hByte, hRun, hSegments, hLines, List.append_assoc]

theorem isText_bom (matched : Nat) : IsText (bomBytes.take matched) := by
  intro b hb
  have hMem : b ∈ bomBytes := List.mem_of_mem_take hb
  simp only [bomBytes, List.mem_cons, List.not_mem_nil, or_false] at hMem
  rcases hMem with rfl | rfl | rfl <;> decide

theorem consume_mismatch {σ : Type} {cb : SseEventCb σ} {parser : SseParser lim}
    (hState : parser.state = .bom) (hSkip : parser.pendingLfSkip = false) (ud : σ) {b : Byte}
    (hMismatch : bomBytes[parser.bomMatched]? ≠ some b) (rest : Bytes) :
    consume (byteStep cb) (parser, ud) (b :: rest) =
      consume (byteStep cb) ({ parser with bomMatched := 0, state := .line }, ud)
        (bomBytes.take parser.bomMatched ++ b :: rest) := by
  have hByte : byteStep cb (parser, ud) b = textByte cb parser ud b := by
    rw [byteStep, if_neg (by simp [hSkip])]
  rw [textByte, if_pos hState, if_neg hMismatch] at hByte
  have hText := consume_text cb (p := { parser with bomMatched := 0, state := .line })
    rfl hSkip ud (isText_bom parser.bomMatched)
  cases hAppend : bufAppend parser.carry (bomBytes.take parser.bomMatched) with
  | none =>
    rw [hAppend] at hByte hText
    rw [consume_cons_error hByte, consume_append_error hText]
  | some carry =>
    rw [hAppend] at hByte hText
    rw [consume_append_ok hText, consume, consume, hByte,
      byteStep_line (p := { parser with carry := carry, bomMatched := 0, state := .line })
        rfl hSkip]

theorem consume_match {σ : Type} {cb : SseEventCb σ} {parser : SseParser lim}
    (hState : parser.state = .bom) (hSkip : parser.pendingLfSkip = false) (ud : σ) {b : Byte}
    (hMatch : bomBytes[parser.bomMatched]? = some b) (rest : Bytes) :
    consume (byteStep cb) (parser, ud) (b :: rest) =
      consume (byteStep cb) ({ parser with
        bomMatched := parser.bomMatched + 1
        state := if parser.bomMatched + 1 = 3 then .line else .bom }, ud) rest := by
  refine consume_cons_ok ?_ rest
  rw [byteStep, if_neg (by simp [hSkip]), textByte, if_pos hState, if_pos hMatch]

/-- A stream that ends inside a BOM emits nothing; any other is read from its first line on. -/
theorem consume_stripBom {σ : Type} (cb : SseEventCb σ) (limits : SseLimits) (ud : σ)
    (stream : Bytes) :
    (consume (byteStep cb) (sseParserNew limits, ud) stream =
          .ok ({ sseParserNew limits with bomMatched := stream.length }, ud) ∧
        stream <+: bomBytes.take 2) ∨
      consume (byteStep cb) (sseParserNew limits, ud) stream =
        consume (byteStep cb) ({ sseParserNew limits with
          bomMatched := if bomBytes <+: stream then 3 else 0
          state := .line }, ud) (stripBom stream) := by
  have hOther : ∀ {stream : Bytes}, ¬bomBytes <+: stream → stripBom stream = stream := by
    intro stream h
    rw [stripBom, if_neg (by simpa using h)]
  rcases stream with _ | ⟨b₁, stream⟩
  · exact .inl ⟨rfl, List.nil_prefix⟩
  by_cases h₁ : b₁ = 0xef
  · subst h₁
    rw [consume_match rfl rfl ud rfl]
    rcases stream with _ | ⟨b₂, stream⟩
    · exact .inl ⟨rfl, by decide⟩
    by_cases h₂ : b₂ = 0xbb
    · subst h₂
      rw [consume_match rfl rfl ud rfl]
      rcases stream with _ | ⟨b₃, stream⟩
      · exact .inl ⟨rfl, by decide⟩
      by_cases h₃ : b₃ = 0xbf
      · subst h₃
        have hBom : bomBytes <+: 0xef :: 0xbb :: 0xbf :: stream := List.prefix_append bomBytes stream
        rw [consume_match rfl rfl ud rfl, if_pos hBom]
        exact .inr rfl
      · have hNot : ¬bomBytes <+: 0xef :: 0xbb :: b₃ :: stream := by
          simpa [bomBytes] using Ne.symm h₃
        right
        rw [consume_mismatch rfl rfl ud (by simpa [bomBytes, sseParserNew] using Ne.symm h₃),
          hOther hNot, if_neg hNot]
        rfl
    · have hNot : ¬bomBytes <+: 0xef :: b₂ :: stream := by
        simpa [bomBytes] using fun h => absurd h.symm h₂
      right
      rw [consume_mismatch rfl rfl ud (by simpa [bomBytes, sseParserNew] using Ne.symm h₂),
        hOther hNot, if_neg hNot]
      rfl
  · have hNot : ¬bomBytes <+: b₁ :: stream := by
      simpa [bomBytes] using fun h => absurd h.symm h₁
    right
    rw [consume_mismatch rfl rfl ud (by simpa [bomBytes, sseParserNew] using Ne.symm h₁),
      hOther hNot, if_neg hNot]
    rfl

/-- Within the caps the decoder does not fail and emits the events of the reference. -/
theorem transcript_eq_reference (limits : SseLimits) (chunks : List Bytes)
    (h : WithinCaps limits.resolve chunks.flatten) :
    (transcript limits always chunks).events = events chunks.flatten ∧
      (transcript limits always chunks).err = none := by
  rw [transcript_eq_bytes]
  rcases consume_stripBom (recordEvents always) limits [] chunks.flatten with
    ⟨hRun, hPrefix⟩ | hRun
  · have hCases : chunks.flatten = [] ∨ chunks.flatten = [0xef] ∨
        chunks.flatten = [0xef, 0xbb] := by
      rcases List.prefix_cons_iff.mp hPrefix with h | ⟨rest, h, hRest⟩
      · exact .inl h
      · rcases List.prefix_cons_iff.mp hRest with rfl | ⟨rest', rfl, hNil⟩
        · exact .inr (.inl h)
        · exact .inr (.inr (List.prefix_nil.mp hNil ▸ h))
    have hNone : events chunks.flatten = [] := by
      rcases hCases with h | h | h <;> rw [h] <;> decide
    rw [hRun, hNone]
    exact ⟨rfl, rfl⟩
  · have hBetween : Between
        ({ sseParserNew limits with
            bomMatched := if bomBytes <+: chunks.flatten then 3 else 0
            state := .line } : SseParser limits.resolve) .fresh
        (stripBom chunks.flatten) :=
      ⟨rfl, ⟨rfl, rfl, rfl⟩, List.not_mem_nil, h.1, h.2⟩
    obtain ⟨parser', hEvents⟩ := consume_reference hBetween []
    rw [hRun, hEvents]
    exact ⟨rfl, rfl⟩

/-- Two data lines, an id and a blank line, under small caps. -/
theorem transcript_eq_reference_sample :
    WithinCaps (SseLimits.resolve ⟨8, 6, 4, 4⟩) (ascii "data: a\r\ndata:b\nid: 7\r\r\ndata") ∧
      (transcript ⟨8, 6, 4, 4⟩ always [ascii "data: a\r", ascii "\ndata:b\nid: 7\r\r\ndata"]).events =
        [⟨ascii "message", ascii "a\nb", ascii "7"⟩] := by
  have hCaps : WithinCaps (SseLimits.resolve ⟨8, 6, 4, 4⟩)
      (ascii "data: a\r\ndata:b\nid: 7\r\r\ndata") := by decide
  exact ⟨hCaps, (transcript_eq_reference ⟨8, 6, 4, 4⟩
    [ascii "data: a\r", ascii "\ndata:b\nid: 7\r\r\ndata"] hCaps).1.trans (by decide)⟩

end Mua.Sse
