import Mua.SseReference

/-! # The verdict at the end of a stream

What is pending at the end of a stream can be read off its bytes: the text after
the last line end, and the data lines since the last blank line. A parser that
has not failed holds both in its buffers, whatever the chunks were; the verdict
also reads how much of a BOM was matched.
-/

namespace Mua.Sse

open Incremental

namespace Reference

/-- The event source after the terminated lines, and the text no line end follows. -/
def ending (s : EventSource) : List Bytes → EventSource × Bytes
  | [] => (s, [])
  | [text] => (s, text)
  | line :: next :: rest => ending (interpretLine s line).1 (next :: rest)

/-- Where the end of the stream finds the event source. -/
def atEnd (stream : Bytes) : EventSource × Bytes :=
  ending .fresh ((normalizeNewlines (stripBom stream)).splitOn lf)

/-- The stream ends in a partial line, or with event data that no blank line dispatched. A part
of a BOM is text. -/
def Pending (stream : Bytes) : Prop :=
  (atEnd stream).2 ≠ [] ∨ (atEnd stream).1.dataLines ≠ []

instance (stream : Bytes) : Decidable (Pending stream) := inferInstanceAs (Decidable (_ ∨ _))

theorem ending_cons (s : EventSource) (line : Bytes) {rest : List Bytes} (h : rest ≠ []) :
    ending s (line :: rest) = ending (interpretLine s line).1 rest := by
  cases rest with
  | nil => exact absurd rfl h
  | cons next rest => rfl

end Reference

open Reference

variable {lim : SseLimits} {σ : Type} {cb : SseEventCb σ}

theorem processField_data {parser parser' : SseParser lim} {s : EventSource} {name value : Bytes}
    (hData : parser.data.data = dataBuffer s)
    (h : processField parser name value = (parser', none)) :
    parser'.data.data = dataBuffer (setField s name value) := by
  unfold processField at h
  unfold setField
  split_ifs at h ⊢
  · split at h
    · cases h
    · rename_i first hFirst
      split at h
      · cases h
      · rename_i second hSecond
        cases h
        show second.data = _
        rw [bufAppend_eq_some.mp hSecond, bufAppend_eq_some.mp hFirst, hData]
        simp [dataBuffer]
  · split at h
    · cases h
    · cases h
      exact hData
  · cases h
    exact hData
  · split at h
    · cases h
    · cases h
      exact hData
  · cases h
    exact hData

theorem processLine_data {parser parser' : SseParser lim} {s : EventSource} {ud ud' : σ}
    {line : Bytes} (hData : parser.data.data = dataBuffer s)
    (h : processLine cb parser ud line = (parser', ud', none)) :
    parser'.data.data = dataBuffer (interpretLine s line).1 := by
  unfold processLine at h
  unfold interpretLine
  split_ifs at h ⊢
  · unfold dispatchEvent at h
    by_cases hNone : parser.data.data = []
    · rw [if_pos hNone] at h
      cases h
      exact hNone
    · rw [if_neg hNone] at h
      dsimp only at h
      cases hCb : cb ud (pendingEvent parser) with
      | mk ud'' keepGoing =>
        rw [hCb] at h
        cases keepGoing with
        | true =>
          cases h
          rfl
        | false => cases h
  · cases h
    exact hData
  · cases hField : processField parser (fieldName line) (fieldValue line) with
    | mk parser'' err =>
      rw [hField] at h
      cases h
      rw [field_eq]
      exact processField_data hData hField

/-- The parser holds the data lines of the event source, and its carry is one line's text. -/
structure Tracks (parser : SseParser lim) (s : EventSource) : Prop where
  state : parser.state = .line
  data : parser.data.data = dataBuffer s
  carry : lf ∉ parser.carry.data

def ahead (parser : SseParser lim) (stream : Bytes) : List Bytes :=
  (parser.carry.data ++ unread parser stream).splitOn lf

/-- After a byte the parser tracks an event source from which the stream ends the same way. -/
structure Advances (parser parser' : SseParser lim) (s s' : EventSource) (b : Byte) : Prop where
  tracks : Tracks parser' s'
  bomMatched : parser'.bomMatched = parser.bomMatched
  ending : ∀ rest, ending s (ahead parser (b :: rest)) = ending s' (ahead parser' rest)

theorem lineByte_advances {parser : SseParser lim} {s : EventSource} {ud : σ} {b : Byte}
    {r : SseParser lim × σ} (hSkip : parser.pendingLfSkip = false) (hTracks : Tracks parser s)
    (h : lineByte cb parser ud b = .ok r) : ∃ s', Advances parser r.1 s s' b := by
  have hUnread : ∀ rest, unread parser (b :: rest) = normalizeNewlines (b :: rest) := by
    intro rest
    simp [unread, hSkip]
  by_cases hTerm : b = cr ∨ b = lf
  · rw [lineByte_terminator parser ud hTerm] at h
    cases hLine : processLine cb parser ud parser.carry.data with
    | mk parser' result =>
      obtain ⟨ud', err⟩ := result
      rw [hLine] at h
      cases err with
      | some err => cases h
      | none =>
        cases h
        have hFrame := processLine_frame hLine
        have hData := processLine_data hTracks.data hLine
        refine ⟨(interpretLine s parser.carry.data).1, ⟨⟨?_, ?_, List.not_mem_nil⟩, ?_, ?_⟩⟩
        · exact hFrame.state.trans hTracks.state
        · exact hData
        · exact hFrame.bomMatched
        · intro rest
          have hNorm : normalizeNewlines (b :: rest) =
              lf :: (if b = cr then afterCr rest else normalizeNewlines rest) := by
            by_cases hCr : b = cr
            · rw [if_pos hCr, hCr, normalize_cr]
            · rw [if_neg hCr, normalize_other hCr, hTerm.resolve_left hCr]
          rw [ahead, hUnread, hNorm, splitOn_lf_append hTracks.carry,
            ending_cons _ _ (List.splitOn_ne_nil _ _), ahead, unread]
          by_cases hCr : b = cr <;> simp [hCr]
  · have hText := not_or.mp hTerm
    rw [lineByte_text parser ud hText] at h
    split at h
    · cases h
    · rename_i carry hAppend
      cases h
      have hCarry : carry.data = parser.carry.data ++ [b] := bufAppend_eq_some.mp hAppend
      refine ⟨s, ⟨⟨hTracks.state, hTracks.data, ?_⟩, rfl, ?_⟩⟩
      · rw [hCarry]
        simpa [hTracks.carry] using fun h => hText.2 h.symm
      · intro rest
        have hRest : unread { parser with carry := carry } rest = normalizeNewlines rest := by
          simp [unread, hSkip]
        rw [ahead, hUnread, normalize_other hText.1, ahead, hRest, hCarry, List.append_assoc,
          List.singleton_append]

theorem byteStep_advances {parser : SseParser lim} {s : EventSource} {ud : σ} {b : Byte}
    {r : SseParser lim × σ} (hTracks : Tracks parser s)
    (h : byteStep cb (parser, ud) b = .ok r) : ∃ s', Advances parser r.1 s s' b := by
  cases hSkip : parser.pendingLfSkip with
  | false =>
    rw [byteStep_line hTracks.state hSkip] at h
    exact lineByte_advances hSkip hTracks h
  | true =>
    rw [byteStep] at h
    dsimp only at h
    rw [if_pos hSkip] at h
    by_cases hLf : b = lf
    · -- the LF of a CRLF: the line it ends was ended by the CR
      rw [if_pos hLf] at h
      cases h
      refine ⟨s, ⟨⟨hTracks.state, hTracks.data, hTracks.carry⟩, rfl, ?_⟩⟩
      intro rest
      rw [ahead, ahead, unread, if_pos hSkip, hLf]
      rfl
    · rw [if_neg hLf, textByte, if_neg (by simp [hTracks.state])] at h
      have hSame : Tracks { parser with pendingLfSkip := false } s :=
        ⟨hTracks.state, hTracks.data, hTracks.carry⟩
      obtain ⟨s', hAdvances⟩ := lineByte_advances rfl hSame h
      refine ⟨s', ⟨hAdvances.tracks, hAdvances.bomMatched, fun rest => ?_⟩⟩
      rw [← hAdvances.ending rest, ahead, ahead, unread, if_pos hSkip, afterCr,
        if_neg (by simpa using hLf)]
      rfl

theorem consume_ending {parser : SseParser lim} {s : EventSource} {ud : σ} {stream : Bytes}
    {r : SseParser lim × σ} (hTracks : Tracks parser s)
    (h : consume (byteStep cb) (parser, ud) stream = .ok r) :
    r.1.state = .line ∧ r.1.bomMatched = parser.bomMatched ∧
      r.1.data.data = dataBuffer (ending s (ahead parser stream)).1 ∧
      r.1.carry.data = (ending s (ahead parser stream)).2 := by
  induction stream generalizing parser s ud with
  | nil =>
    cases h
    have hUnread : unread parser [] = [] := by
      unfold unread
      split <;> rfl
    rw [ahead, hUnread, List.append_nil, List.splitOn_eq_singleton hTracks.carry]
    exact ⟨hTracks.state, rfl, hTracks.data, rfl⟩
  | cons b rest ih =>
    rw [consume] at h
    cases hByte : byteStep cb (parser, ud) b with
    | error e =>
      rw [hByte] at h
      cases h
    | ok mid =>
      rw [hByte] at h
      obtain ⟨s', hAdvances⟩ := byteStep_advances hTracks hByte
      obtain ⟨hState, hBom, hData, hCarry⟩ := ih hAdvances.tracks h
      rw [hAdvances.ending rest]
      exact ⟨hState, hBom.trans hAdvances.bomMatched, hData, hCarry⟩

theorem pending_of_bom {stream : Bytes} (h : stream <+: bomBytes.take 2) :
    Pending stream ↔ stream.length ≠ 0 := by
  obtain rfl | ⟨rest, rfl, hRest⟩ := List.prefix_cons_iff.mp h
  · decide
  · obtain rfl | ⟨rest', rfl, hNil⟩ := List.prefix_cons_iff.mp hRest
    · decide
    · rw [List.prefix_nil.mp hNil]
      decide

theorem finish_of_line {parser : SseParser lim} (hState : parser.state = .line) :
    sseParserFinish parser = .clean ↔
      parser.carry.data = [] ∧ parser.data.data = [] ∧ parser.bomMatched = 0 := by
  have hLive : ¬(parser.state = .failed ∨ parser.state = .aborted) := by simp [hState]
  rw [sseParserFinish, if_neg hLive]
  split
  · rename_i hLeft
    constructor
    · intro hClean
      cases hClean
    · rintro ⟨hCarry, hData, hBom⟩
      rw [hCarry, hData, hBom] at hLeft
      exact absurd hLeft (by decide)
  · rename_i hNone
    simp only [not_or, not_not, Nat.not_lt, Nat.le_zero] at hNone
    exact ⟨fun _ => hNone, fun _ => rfl⟩

/-- A stream that was read is closed cleanly when nothing is pending and no BOM began it. -/
theorem finish_clean_iff {limits : SseLimits} {ud : σ} {stream : Bytes}
    {r : SseParser limits.resolve × σ}
    (h : consume (byteStep cb) (sseParserNew limits, ud) stream = .ok r) :
    sseParserFinish r.1 = .clean ↔ ¬Pending stream ∧ ¬bomBytes <+: stream := by
  obtain ⟨hRun, hPrefix⟩ | hRun := consume_stripBom cb limits ud stream
  · rw [hRun] at h
    cases h
    have hShort : ¬bomBytes <+: stream := by
      intro hBom
      have hLe := (hBom.trans hPrefix).length_le
      exact absurd hLe (by decide)
    rw [pending_of_bom hPrefix, not_not]
    unfold sseParserFinish
    simp only [sseParserNew, bufInit, reduceCtorEq, or_self, if_false, ne_eq, not_true_eq_false,
      false_or]
    constructor
    · intro hClean
      split at hClean
      · cases hClean
      · rename_i hZero
        exact ⟨Nat.eq_zero_of_not_pos hZero, hShort⟩
    · rintro ⟨hZero, -⟩
      rw [if_neg (Nat.not_lt.mpr hZero.le)]
  · rw [hRun] at h
    have hTracks : Tracks ({ sseParserNew limits with
        bomMatched := if bomBytes <+: stream then 3 else 0
        state := .line } : SseParser limits.resolve) .fresh := ⟨rfl, rfl, List.not_mem_nil⟩
    obtain ⟨hState, hBom, hData, hCarry⟩ := consume_ending hTracks h
    rw [finish_of_line hState, hBom, hData, hCarry, dataBuffer_eq_nil]
    show (atEnd stream).2 = [] ∧ (atEnd stream).1.dataLines = [] ∧
      (if bomBytes <+: stream then 3 else 0) = 0 ↔ _
    unfold Pending
    split <;> simp_all

/-- For a stream fed without failure, in whatever chunks: the verdict says what is pending exactly
when something is, or the stream does not begin with a BOM. A BOM put in front of it leaves the
verdict alone exactly when that was `truncated` already. -/
theorem sseParserFinish_iff {limits : SseLimits} {ud ud' : σ} {chunks : List Bytes}
    {parser : SseParser limits.resolve}
    (h : feedChunks cb (sseParserNew limits) ud chunks = (parser, ud', none)) :
    ((sseParserFinish parser = .clean ↔ ¬Pending chunks.flatten) ↔
        Pending chunks.flatten ∨ ¬bomBytes <+: chunks.flatten) ∧
      ∀ {chunks' : List Bytes} {parser' : SseParser limits.resolve} {ud'' : σ},
        chunks'.flatten = bomBytes ++ chunks.flatten →
        feedChunks cb (sseParserNew limits) ud chunks' = (parser', ud'', none) →
        (sseParserFinish parser' = sseParserFinish parser ↔
          Pending chunks.flatten ∨ bomBytes <+: chunks.flatten) := by
  have hRun : ∀ {chunks : List Bytes} {parser : SseParser limits.resolve} {ud' : σ},
      feedChunks cb (sseParserNew limits) ud chunks = (parser, ud', none) →
      (sseParserFinish parser = .clean ↔ ¬Pending chunks.flatten ∧ ¬bomBytes <+: chunks.flatten) := by
    intro chunks parser ud' hFeed
    have hConsume := feedChunks_consume cb (live_new limits) ud chunks
    rw [hFeed] at hConsume
    exact finish_clean_iff hConsume.symm
  have hClean := hRun h
  refine ⟨by tauto, ?_⟩
  intro chunks' parser' ud'' hFlatten hFeed
  have hTruncated : sseParserFinish parser' = .truncated := by
    have hBom := hRun hFeed
    rw [hFlatten] at hBom
    cases hFinish : sseParserFinish parser' with
    | clean => exact absurd (List.prefix_append _ _) (hBom.mp hFinish).2
    | truncated => rfl
  rw [hTruncated]
  cases hFinish : sseParserFinish parser with
  | clean =>
    have hBoth := hClean.mp hFinish
    simp [hBoth]
  | truncated =>
    have hNot : ¬(¬Pending chunks.flatten ∧ ¬bomBytes <+: chunks.flatten) := by
      intro hBoth
      rw [hClean.mpr hBoth] at hFinish
      cases hFinish
    tauto

def sampleStream : Bytes := ascii "data: hi\n\n"

theorem sseParserFinish_iff_sample :
    ∃ parser ud, feedChunks (recordEvents always) (sseParserNew ⟨0, 0, 0, 0⟩) [] [sampleStream] =
        (parser, ud, none) ∧ sseParserFinish parser = .clean := by
  have hRun : ∃ r, consume (byteStep (recordEvents always)) (sseParserNew ⟨0, 0, 0, 0⟩, [])
      [sampleStream].flatten = .ok r := ⟨_, rfl⟩
  obtain ⟨r, hRun⟩ := hRun
  have hFeed := feedChunks_consume (recordEvents always) (live_new ⟨0, 0, 0, 0⟩) [] [sampleStream]
  rw [hRun] at hFeed
  cases hReply : feedChunks (recordEvents always) (sseParserNew ⟨0, 0, 0, 0⟩) [] [sampleStream] with
  | mk parser result =>
    obtain ⟨ud, err⟩ := result
    cases err with
    | some err =>
      rw [hReply] at hFeed
      cases hFeed
    | none =>
      refine ⟨parser, ud, rfl, ?_⟩
      have hVerdict := (sseParserFinish_iff hReply).1.mpr (by decide)
      exact hVerdict.mpr (by decide)

/-- The same stream with a BOM in front is called truncated, and nothing is pending. -/
theorem sseParserFinish_bom :
    (transcript ⟨0, 0, 0, 0⟩ always [bomBytes ++ sampleStream]).err = none ∧
      ¬Pending (bomBytes ++ sampleStream) ∧
      (transcript ⟨0, 0, 0, 0⟩ always [bomBytes ++ sampleStream]).eof = .truncated ∧
      (transcript ⟨0, 0, 0, 0⟩ always [sampleStream]).eof = .clean := by
  rw [transcript_eq_bytes, transcript_eq_bytes]
  exact ⟨rfl, by decide, rfl, rfl⟩

end Mua.Sse
