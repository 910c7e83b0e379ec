import Mua.Sse
import Mua.Lib.Incremental

/-! # Chunking does not matter to the SSE decoder

`byteStep` is the decoder one byte at a time: every byte of a line goes through
the carry, and a CR always waits for its LF. `sseParserFeed` does on a chunk what
`byteStep` does on its bytes, although it scans whole lines, bypasses the carry
and looks one byte ahead; the transcript of a stream is then that of its bytes.
-/

namespace Mua.Sse

open Incremental

variable {lim : SseLimits} {σ : Type}

abbrev Halt (σ : Type) := σ × Error

def lineError : Error := sseError .validation (ascii "line exceeds limit")

/-- The verdict of a call: the live parser, or what it had delivered when it failed. -/
def outcome : SseParser lim × σ × Option Error → Except (Halt σ) (SseParser lim × σ)
  | (parser, ud, none) => .ok (parser, ud)
  | (_, ud, some err) => .error (ud, err)

def lineByte (cb : SseEventCb σ) (parser : SseParser lim) (ud : σ) (b : Byte) :
    Except (Halt σ) (SseParser lim × σ) :=
  if b = cr ∨ b = lf then
    match processLine cb parser ud parser.carry.data with
    | (_, ud', some err) => .error (ud', err)
    | (parser', ud', none) =>
      .ok ({ parser' with carry := bufReset parser'.carry, pendingLfSkip := decide (b = cr) }, ud')
  else
    match bufAppend parser.carry [b] with
    | none => .error (ud, lineError)
    | some carry => .ok ({ parser with carry := carry }, ud)

def textByte (cb : SseEventCb σ) (parser : SseParser lim) (ud : σ) (b : Byte) :
    Except (Halt σ) (SseParser lim × σ) :=
  if parser.state = .bom then
    if bomBytes[parser.bomMatched]? = some b then
      .ok ({ parser with
        bomMatched := parser.bomMatched + 1
        state := if parser.bomMatched + 1 = 3 then .line else .bom }, ud)
    else
      match bufAppend parser.carry (bomBytes.take parser.bomMatched) with
      | none => .error (ud, lineError)
      | some carry => lineByte cb { parser with carry := carry, bomMatched := 0, state := .line } ud b
  else lineByte cb parser ud b

def byteStep (cb : SseEventCb σ) (s : SseParser lim × σ) (b : Byte) :
    Except (Halt σ) (SseParser lim × σ) :=
  if s.1.pendingLfSkip then
    if b = lf then .ok ({ s.1 with pendingLfSkip := false }, s.2)
    else textByte cb { s.1 with pendingLfSkip := false } s.2 b
  else textByte cb s.1 s.2 b

/-- A parser that has not failed; only a finished line leaves a LF to skip. -/
structure Live (parser : SseParser lim) : Prop where
  state : parser.state = .bom ∨ parser.state = .line
  skip : parser.pendingLfSkip = true → parser.state = .line

theorem Live.not_halted {parser : SseParser lim} (h : Live parser) :
    ¬(parser.state = .failed ∨ parser.state = .aborted) := by
  rcases h.state with h | h <;> simp [h]

theorem live_new (limits : SseLimits) : Live (sseParserNew limits) := ⟨.inl rfl, nofun⟩

structure SameScan (parser' parser : SseParser lim) : Prop where
  state : parser'.state = parser.state
  bomMatched : parser'.bomMatched = parser.bomMatched
  pendingLfSkip : parser'.pendingLfSkip = parser.pendingLfSkip
  carry : parser'.carry = parser.carry

theorem processField_frame {parser parser' : SseParser lim} {name value : Bytes}
    (h : processField parser name value = (parser', none)) :
    SameScan parser' parser := by
  unfold processField at h
  split at h
  · split at h
    · cases h
    · split at h
      · cases h
      · cases h
        exact ⟨rfl, rfl, rfl, rfl⟩
  · split at h
    · split at h
      · cases h
      · cases h
        exact ⟨rfl, rfl, rfl, rfl⟩
    · split at h
      · split at h
        · cases h
          exact ⟨rfl, rfl, rfl, rfl⟩
        · split at h
          · cases h
          · cases h
            exact ⟨rfl, rfl, rfl, rfl⟩
      · cases h
        exact ⟨rfl, rfl, rfl, rfl⟩

theorem dispatchEvent_frame {cb : SseEventCb σ} {parser parser' : SseParser lim} {ud ud' : σ}
    (h : dispatchEvent cb parser ud = (parser', ud', true)) :
    SameScan parser' parser := by
  unfold dispatchEvent at h
  split at h
  · cases h
    exact ⟨rfl, rfl, rfl, rfl⟩
  · dsimp only at h
    split at h
    · cases h
      exact ⟨rfl, rfl, rfl, rfl⟩
    · cases h

theorem processLine_frame {cb : SseEventCb σ} {parser parser' : SseParser lim} {ud ud' : σ}
    {line : Bytes} (h : processLine cb parser ud line = (parser', ud', none)) :
    SameScan parser' parser := by
  unfold processLine at h
  split at h
  · split at h
    · rename_i hDispatch
      cases h
      exact dispatchEvent_frame hDispatch
    · cases h
  · split at h
    · cases h
      exact ⟨rfl, rfl, rfl, rfl⟩
    · cases hField : processField parser (fieldName line) (fieldValue line) with
      | mk parser'' err =>
        rw [hField] at h
        cases h
        exact processField_frame hField

/-- A line is processed in the same way whatever the carry holds. -/
theorem processLine_carry (cb : SseEventCb σ) (parser : SseParser lim) (ud : σ) (line : Bytes)
    (carry : Buf lim.maxLine) :
    processLine cb { parser with carry := carry } ud line =
      ({ (processLine cb parser ud line).1 with carry := carry },
        (processLine cb parser ud line).2) := by
  have hField : ∀ name value, processField { parser with carry := carry } name value =
      ({ (processField parser name value).1 with carry := carry },
        (processField parser name value).2) := by
    intro name value
    unfold processField fail
    split_ifs
    · dsimp only
      cases bufAppend parser.data value with
      | none => rfl
      | some data =>
        dsimp only
        cases bufAppend data [lf] <;> rfl
    · dsimp only
      cases bufAppend (bufReset parser.eventType) value <;> rfl
    · rfl
    · dsimp only
      cases bufAppend (bufReset parser.id) value <;> rfl
    · rfl
  have hDispatch : dispatchEvent cb { parser with carry := carry } ud =
      ({ (dispatchEvent cb parser ud).1 with carry := carry }, (dispatchEvent cb parser ud).2) := by
    unfold dispatchEvent
    split_ifs
    · rfl
    · have hEvent : pendingEvent { parser with carry := carry } = pendingEvent parser := rfl
      dsimp only
      rw [hEvent]
      cases cb ud (pendingEvent parser) with
      | mk ud' keepGoing => cases keepGoing <;> rfl
  unfold processLine
  split_ifs
  · rw [hDispatch]
    cases hResult : dispatchEvent cb parser ud with
    | mk parser' rest =>
      obtain ⟨ud', keepGoing⟩ := rest
      cases keepGoing <;> rfl
  · rfl
  · rw [hField]

def IsText (bytes : Bytes) : Prop := ∀ b ∈ bytes, b ≠ cr ∧ b ≠ lf

theorem findTerminator_none {bytes : Bytes} (h : findTerminator bytes = none) : IsText bytes := by
  unfold findTerminator memchr at h
  split at h
  · rename_i hCr
    intro b hb
    have hCr := List.findIdx?_eq_none_iff.mp hCr b hb
    have hLf := List.findIdx?_eq_none_iff.mp h b hb
    exact ⟨by simpa using hCr, by simpa using hLf⟩
  · cases h
  · split at h <;> cases h

theorem findTerminator_some {bytes : Bytes} {pos : Nat} (h : findTerminator bytes = some pos) :
    ∃ term rest, bytes = bytes.take pos ++ term :: rest ∧ bytes.getD pos 0 = term ∧
      bytes.drop (pos + 1) = rest ∧ (term = cr ∨ term = lf) ∧ IsText (bytes.take pos) := by
  have hKey : ∃ hPos : pos < bytes.length, (bytes[pos] = cr ∨ bytes[pos] = lf) ∧
      ∀ j (hj : j < pos), bytes.get ⟨j, hj.trans hPos⟩ ≠ cr ∧ bytes.get ⟨j, hj.trans hPos⟩ ≠ lf := by
    unfold findTerminator memchr at h
    split at h
    · rename_i hCr
      obtain ⟨hPos, hTerm, hBefore⟩ := List.findIdx?_eq_some_iff_getElem.mp h
      refine ⟨hPos, .inr (by simpa using hTerm), fun j hj => ⟨?_, by simpa using hBefore j hj⟩⟩
      simpa using List.findIdx?_eq_none_iff.mp hCr _ (List.getElem_mem (hj.trans hPos))
    · rename_i hCr hLf
      cases h
      obtain ⟨hPos, hTerm, hBefore⟩ := List.findIdx?_eq_some_iff_getElem.mp hCr
      refine ⟨hPos, .inl (by simpa using hTerm), fun j hj => ⟨by simpa using hBefore j hj, ?_⟩⟩
      simpa using List.findIdx?_eq_none_iff.mp hLf _ (List.getElem_mem (hj.trans hPos))
    · rename_i crPos lfPos hCr hLf
      obtain ⟨hCrPos, hCrTerm, hCrBefore⟩ := List.findIdx?_eq_some_iff_getElem.mp hCr
      obtain ⟨hLfPos, hLfTerm, hLfBefore⟩ := List.findIdx?_eq_some_iff_getElem.mp hLf
      split at h
      · rename_i hLt
        cases h
        exact ⟨hCrPos, .inl (by simpa using hCrTerm), fun j hj =>
          ⟨by simpa using hCrBefore j hj, by simpa using hLfBefore j (hj.trans hLt)⟩⟩
      · rename_i hLe
        cases h
        exact ⟨hLfPos, .inr (by simpa using hLfTerm), fun j hj =>
          ⟨by simpa using hCrBefore j (hj.trans_le (Nat.le_of_not_lt hLe)),
            by simpa using hLfBefore j hj⟩⟩
  obtain ⟨hPos, hTerm, hBefore⟩ := hKey
  refine ⟨bytes[pos], bytes.drop (pos + 1), ?_, by simp [hPos], rfl, hTerm, ?_⟩
  · rw [← List.drop_eq_getElem_cons hPos, List.take_append_drop]
  · intro b hb
    obtain ⟨j, hj, rfl⟩ := List.getElem_of_mem hb
    rw [List.length_take] at hj
    rw [List.getElem_take]
    exact hBefore j (lt_of_lt_of_le hj (min_le_left _ _))

theorem byteStep_line {cb : SseEventCb σ} {p : SseParser lim} (hState : p.state = .line)
    (hSkip : p.pendingLfSkip = false) (ud : σ) (b : Byte) :
    byteStep cb (p, ud) b = lineByte cb p ud b := by
  rw [byteStep, if_neg (by simp [hSkip]), textByte, if_neg (by simp [hState])]

theorem lineByte_text {cb : SseEventCb σ} (parser : SseParser lim) (ud : σ) {b : Byte}
    (hText : b ≠ cr ∧ b ≠ lf) :
    lineByte cb parser ud b =
      match bufAppend parser.carry [b] with
      | none => .error (ud, lineError)
      | some carry => .ok ({ parser with carry := carry }, ud) := by
  rw [lineByte, if_neg (not_or.mpr hText)]

theorem consume_text (cb : SseEventCb σ) {p : SseParser lim} (hState : p.state = .line)
    (hSkip : p.pendingLfSkip = false) (ud : σ) {text : Bytes} (hText : IsText text) :
    consume (byteStep cb) (p, ud) text =
      match bufAppend p.carry text with
      | none => .error (ud, lineError)
      | some carry => .ok ({ p with carry := carry }, ud) := by
  induction text generalizing p with
  | nil => rw [bufAppend_nil]; rfl
  | cons b text ih =>
    have hb := hText b List.mem_cons_self
    have hRest : IsText text := fun c hc => hText c (List.mem_cons_of_mem _ hc)
    have hAppend : bufAppend p.carry (b :: text) =
        (bufAppend p.carry [b]).bind fun carry => bufAppend carry text :=
      bufAppend_append p.carry [b] text
    rw [consume, byteStep_line hState hSkip, lineByte_text p ud hb, hAppend]
    cases bufAppend p.carry [b] with
    | none => rfl
    | some carry => exact ih (p := { p with carry := carry }) hState hSkip hRest

theorem lineByte_terminator {cb : SseEventCb σ} (parser : SseParser lim) (ud : σ) {term : Byte}
    (hTerm : term = cr ∨ term = lf) :
    lineByte cb parser ud term =
      match processLine cb parser ud parser.carry.data with
      | (_, ud', some err) => .error (ud', err)
      | (parser', ud', none) =>
        .ok ({ parser' with
          carry := bufReset parser'.carry, pendingLfSkip := decide (term = cr) }, ud') := by
  rw [lineByte, if_pos hTerm]

theorem consume_skip {cb : SseEventCb σ} (parser : SseParser lim) (ud : σ) (b : Byte) (rest : Bytes) :
    consume (byteStep cb) ({ parser with pendingLfSkip := true }, ud) (b :: rest) =
      consume (byteStep cb) ({ parser with pendingLfSkip := false }, ud)
        (if b = lf then rest else b :: rest) := by
  by_cases hb : b = lf
  · rw [if_pos hb, consume, byteStep, if_pos rfl, if_pos hb]
  · rw [if_neg hb, consume, consume, byteStep, if_pos rfl, if_neg hb, byteStep]
    rfl

theorem consume_skipTerminator {cb : SseEventCb σ} {parser : SseParser lim}
    (hSkip : parser.pendingLfSkip = false) (ud : σ) {term : Byte} (rest : Bytes) :
    consume (byteStep cb) ({ parser with
        carry := bufReset parser.carry, pendingLfSkip := decide (term = cr) }, ud) rest =
      consume (byteStep cb) ((skipTerminator parser term rest).1, ud)
        (skipTerminator parser term rest).2 := by
  have hKeep : ({ parser with carry := bufReset parser.carry, pendingLfSkip := false } :
      SseParser lim) = { parser with carry := bufReset parser.carry } := by
    rw [← hSkip]
  unfold skipTerminator
  by_cases hTerm : term = cr
  · simp only [hTerm, decide_true, if_true]
    cases rest with
    | nil => rfl
    | cons b rest =>
      rw [consume_skip { parser with carry := bufReset parser.carry } ud b rest]
      by_cases hb : b = lf
      · simp only [if_pos hb]
        exact congrArg (fun p => consume (byteStep cb) (p, ud) rest) hKeep
      · simp only [if_neg hb]
        exact congrArg (fun p => consume (byteStep cb) (p, ud) (b :: rest)) hKeep
  · simp only [hTerm, decide_false, if_false]
    exact congrArg (fun p => consume (byteStep cb) (p, ud) rest) hKeep

theorem skipTerminator_skip {parser : SseParser lim} (hSkip : parser.pendingLfSkip = false)
    (term : Byte) (rest : Bytes) (h : (skipTerminator parser term rest).1.pendingLfSkip = true) :
    (skipTerminator parser term rest).2 = [] := by
  unfold skipTerminator at h ⊢
  split_ifs at h ⊢
  · cases rest with
    | nil => rfl
    | cons b rest =>
      dsimp only at h
      split_ifs at h <;> simp [hSkip] at h
  · simp [hSkip] at h

theorem skipTerminator_state (parser : SseParser lim) (term : Byte) (rest : Bytes) :
    (skipTerminator parser term rest).1.state = parser.state := by
  unfold skipTerminator
  split_ifs
  · cases rest with
    | nil => rfl
    | cons b rest =>
      dsimp only
      split_ifs <;> rfl
  · rfl

theorem consume_line {cb : SseEventCb σ} {parser : SseParser lim} (hState : parser.state = .line)
    (hSkip : parser.pendingLfSkip = false) (ud : σ) {term : Byte} (hTerm : term = cr ∨ term = lf)
    (rest : Bytes) :
    consume (byteStep cb) (parser, ud) (term :: rest) =
      match processLine cb parser ud parser.carry.data with
      | (_, ud', some err) => .error (ud', err)
      | (parser', ud', none) =>
        consume (byteStep cb) ((skipTerminator parser' term rest).1, ud')
          (skipTerminator parser' term rest).2 := by
  rw [consume, byteStep_line hState hSkip, lineByte_terminator parser ud hTerm]
  cases hLine : processLine cb parser ud parser.carry.data with
  | mk parser' result =>
    obtain ⟨ud', err⟩ := result
    cases err with
    | some err => rfl
    | none =>
      have hSkip' : parser'.pendingLfSkip = false :=
        (processLine_frame hLine).pendingLfSkip.trans hSkip
      exact consume_skipTerminator hSkip' ud' rest

/-- What one pass of the scan loop does to the run of the byte machine. -/
def continuesWith (cb : SseEventCb σ) :
    SseParser lim × σ × Bytes × Option Error → Except (Halt σ) (SseParser lim × σ)
  | (parser', ud', rest, none) => consume (byteStep cb) (parser', ud') rest
  | (_, ud', _, some err) => .error (ud', err)

theorem finishLine_consume {cb : SseEventCb σ} {p : SseParser lim}
    (hState : p.state = .line) (hSkip : p.pendingLfSkip = false) (ud : σ) {term : Byte}
    (hTerm : term = cr ∨ term = lf) (rest : Bytes) :
    consume (byteStep cb) (p, ud) (term :: rest) =
      continuesWith cb (finishLine cb p ud p.carry.data term rest) := by
  rw [consume_line hState hSkip ud hTerm rest, finishLine]
  cases processLine cb p ud p.carry.data with
  | mk parser' result =>
    obtain ⟨ud', err⟩ := result
    cases err <;> rfl

theorem finishLine_carry (cb : SseEventCb σ) (parser : SseParser lim) (ud : σ) (line : Bytes)
    (term : Byte) (rest : Bytes) (carry : Buf lim.maxLine) :
    continuesWith cb (finishLine cb { parser with carry := carry } ud line term rest) =
      continuesWith cb (finishLine cb parser ud line term rest) := by
  rw [finishLine, finishLine, processLine_carry]
  cases processLine cb parser ud line with
  | mk parser' result =>
    obtain ⟨ud', err⟩ := result
    cases err <;> rfl

theorem scanLine_consume {cb : SseEventCb σ} {parser : SseParser lim}
    (hState : parser.state = .line) (hSkip : parser.pendingLfSkip = false) (ud : σ) (span : Bytes) :
    consume (byteStep cb) (parser, ud) span = continuesWith cb (scanLine cb parser ud span) := by
  unfold scanLine
  cases hFind : findTerminator span with
  | none =>
    rw [consume_text cb hState hSkip ud (findTerminator_none hFind)]
    dsimp only
    cases bufAppend parser.carry span <;> rfl
  | some pos =>
    obtain ⟨term, rest, hSpan, hTermAt, hRest, hTerm, hText⟩ := findTerminator_some hFind
    have hRun := consume_text cb hState hSkip ud hText
    dsimp only
    rw [hTermAt, hRest]
    have hWord : consume (byteStep cb) (parser, ud) span =
        consume (byteStep cb) (parser, ud) (span.take pos ++ term :: rest) :=
      congrArg _ hSpan
    rw [hWord]
    by_cases hCarry : parser.carry.data = []
    · rw [if_neg (not_not.mpr hCarry)]
      by_cases hLong : (span.take pos).length > lim.maxLine
      · have hNone : bufAppend parser.carry (span.take pos) = none := by
          rw [bufAppend_eq_none, hCarry]
          simpa using hLong
        rw [hNone] at hRun
        rw [if_pos hLong, consume_append_error hRun]
        rfl
      · obtain ⟨carry, hSome⟩ : ∃ carry, bufAppend parser.carry (span.take pos) = some carry :=
          ⟨⟨span.take pos, Nat.le_of_not_lt hLong⟩, by rw [bufAppend_eq_some, hCarry]; rfl⟩
        have hData : carry.data = span.take pos := by
          rw [bufAppend_eq_some] at hSome
          simpa [hCarry] using hSome
        rw [hSome] at hRun
        rw [if_neg hLong, consume_append_ok hRun,
          finishLine_consume (p := { parser with carry := carry }) hState hSkip ud hTerm rest,
          finishLine_carry, hData]
    · rw [if_pos hCarry]
      cases hAppend : bufAppend parser.carry (span.take pos) with
      | none =>
        rw [hAppend] at hRun
        rw [consume_append_error hRun]
        rfl
      | some carry =>
        rw [hAppend] at hRun
        rw [consume_append_ok hRun,
          finishLine_consume (p := { parser with carry := carry }) hState hSkip ud hTerm rest]

theorem finishLine_live {cb : SseEventCb σ} {parser parser' : SseParser lim} {ud ud' : σ}
    {line rest rest' : Bytes} {term : Byte} (hState : parser.state = .line)
    (hSkip : parser.pendingLfSkip = false)
    (h : finishLine cb parser ud line term rest = (parser', ud', rest', none)) :
    parser'.state = .line ∧ (parser'.pendingLfSkip = true → rest' = []) := by
  unfold finishLine at h
  split at h
  · cases h
  · rename_i hLine
    cases h
    have hFrame := processLine_frame hLine
    exact ⟨(skipTerminator_state _ term rest).trans (hFrame.state.trans hState),
      skipTerminator_skip (hFrame.pendingLfSkip.trans hSkip) term rest⟩

theorem scanLine_live {cb : SseEventCb σ} {parser parser' : SseParser lim} {ud ud' : σ}
    {span rest : Bytes} (hState : parser.state = .line) (hSkip : parser.pendingLfSkip = false)
    (h : scanLine cb parser ud span = (parser', ud', rest, none)) :
    parser'.state = .line ∧ (parser'.pendingLfSkip = true → rest = []) := by
  unfold scanLine at h
  split at h
  · split at h
    · cases h
    · cases h
      exact ⟨hState, fun _ => rfl⟩
  · dsimp only at h
    split at h
    · split at h
      · cases h
      · refine finishLine_live ?_ ?_ h
        · exact hState
        · exact hSkip
    · split at h
      · cases h
      · exact finishLine_live hState hSkip h

theorem live_matched {parser : SseParser lim} (hSkip : parser.pendingLfSkip = false) (matched : Nat) :
    Live { parser with
      bomMatched := matched, state := if matched = 3 then .line else .bom } := by
  refine ⟨?_, fun h => absurd (hSkip.symm.trans h) nofun⟩
  by_cases h : matched = 3 <;> simp [h]

theorem bomStep_consume {cb : SseEventCb σ} {parser : SseParser lim} (hLive : Live parser)
    (hSkip : parser.pendingLfSkip = false) (ud : σ) (bytes : Bytes) :
    consume (byteStep cb) (parser, ud) bytes =
      match bomStep parser bytes with
      | (_, _, some err) => .error (ud, err)
      | (parser', bytes', none) => consume (byteStep cb) (parser', ud) bytes' := by
  induction bytes generalizing parser with
  | nil => rfl
  | cons b rest ih =>
    rw [bomStep]
    by_cases hState : parser.state = .bom
    · rw [if_pos hState]
      have hByte : byteStep cb (parser, ud) b = textByte cb parser ud b := by
        rw [byteStep, if_neg (by simp [hSkip])]
      by_cases hMatch : bomBytes[parser.bomMatched]? = some b
      · rw [if_pos hMatch]
        rw [textByte, if_pos hState, if_pos hMatch] at hByte
        rw [consume_cons_ok hByte]
        exact ih (live_matched hSkip _) hSkip
      · rw [if_neg hMatch]
        rw [textByte, if_pos hState, if_neg hMatch] at hByte
        cases hAppend : bufAppend parser.carry (bomBytes.take parser.bomMatched) with
        | none =>
          rw [hAppend] at hByte
          rw [consume_cons_error hByte]
          rfl
        | some carry =>
          rw [hAppend] at hByte
          dsimp only at hByte ⊢
          rw [consume, consume, hByte,
            byteStep_line (p := { parser with carry := carry, bomMatched := 0, state := .line })
              rfl hSkip]
    · rw [if_neg hState]

theorem bomStep_live {parser parser' : SseParser lim} {bytes bytes' : Bytes} (hLive : Live parser)
    (hSkip : parser.pendingLfSkip = false) (h : bomStep parser bytes = (parser', bytes', none)) :
    Live parser' ∧ parser'.pendingLfSkip = false := by
  induction bytes generalizing parser with
  | nil =>
    cases h
    exact ⟨hLive, hSkip⟩
  | cons b rest ih =>
    rw [bomStep] at h
    split at h
    · split at h
      · exact ih (live_matched hSkip _) hSkip h
      · split at h
        · cases h
        · cases h
          exact ⟨⟨.inr rfl, fun _ => rfl⟩, hSkip⟩
    · cases h
      exact ⟨hLive, hSkip⟩

theorem skip_of_cons {parser : SseParser lim} {b : Byte} {rest : Bytes}
    (h : parser.pendingLfSkip = true → b :: rest = []) : parser.pendingLfSkip = false :=
  Bool.eq_false_iff.mpr fun hSkip => List.cons_ne_nil b rest (h hSkip)

theorem feedLoop_consume (cb : SseEventCb σ) (parser : SseParser lim) (ud : σ) (bytes : Bytes)
    (hLive : Live parser) (hSkip : parser.pendingLfSkip = true → bytes = []) :
    outcome (feedLoop cb parser ud bytes) = consume (byteStep cb) (parser, ud) bytes := by
  fun_induction feedLoop cb parser ud bytes with
  | case1 => rfl
  | case2 parser ud b rest hState parser' _ err hStep =>
    have hSkip := skip_of_cons hSkip
    rw [bomStep_consume hLive hSkip, hStep]
    rfl
  | case3 parser ud b rest hState parser' bytes' hStep ih =>
    have hSkip := skip_of_cons hSkip
    obtain ⟨hLive', hSkip'⟩ := bomStep_live hLive hSkip hStep
    rw [bomStep_consume hLive hSkip, hStep]
    exact ih hLive' fun h => absurd (hSkip'.symm.trans h) nofun
  | case4 parser ud b rest hState parser' ud' _ err hStep =>
    have hSkip := skip_of_cons hSkip
    have hLine := hLive.state.resolve_left hState
    rw [scanLine_consume hLine hSkip, hStep]
    rfl
  | case5 parser ud b rest hState parser' ud' bytes' hStep ih =>
    have hSkip := skip_of_cons hSkip
    have hLine := hLive.state.resolve_left hState
    obtain ⟨hLine', hSkip'⟩ := scanLine_live hLine hSkip hStep
    rw [scanLine_consume hLine hSkip, hStep]
    exact ih ⟨.inr hLine', fun _ => hLine'⟩ hSkip'

theorem sseParserFeed_consume (cb : SseEventCb σ) {parser : SseParser lim} (hLive : Live parser)
    (ud : σ) (bytes : Bytes) :
    outcome (sseParserFeed cb parser ud bytes) = consume (byteStep cb) (parser, ud) bytes := by
  unfold sseParserFeed
  rw [if_neg hLive.not_halted]
  cases hSkip : parser.pendingLfSkip with
  | false =>
    rw [if_neg (by simp)]
    exact feedLoop_consume cb parser ud bytes hLive fun h => absurd (hSkip.symm.trans h) nofun
  | true =>
    rw [if_pos rfl]
    cases bytes with
    | nil => rfl
    | cons b rest =>
      have hLine := hLive.skip hSkip
      have hLoop := fun word => feedLoop_consume cb { parser with pendingLfSkip := false } ud word
        ⟨.inr hLine, fun _ => hLine⟩ nofun
      have hParser : parser = { parser with pendingLfSkip := true } := by rw [← hSkip]
      have hWord : consume (byteStep cb) (parser, ud) (b :: rest) =
          consume (byteStep cb) ({ parser with pendingLfSkip := false }, ud)
            (if b = lf then rest else b :: rest) := by
        conv_lhs => rw [hParser]
        exact consume_skip parser ud b rest
      rw [hWord]
      dsimp only
      split <;> exact hLoop _

theorem lineByte_state {cb : SseEventCb σ} {parser : SseParser lim} {ud : σ} {b : Byte}
    {s' : SseParser lim × σ} (hState : parser.state = .line)
    (h : lineByte cb parser ud b = .ok s') : s'.1.state = .line := by
  unfold lineByte at h
  split at h
  · split at h
    · cases h
    · rename_i hLine
      cases h
      exact (processLine_frame hLine).state.trans hState
  · split at h
    · cases h
    · cases h
      exact hState

theorem textByte_live {cb : SseEventCb σ} {p : SseParser lim} {ud : σ} {b : Byte}
    {s' : SseParser lim × σ} (hState : p.state = .bom ∨ p.state = .line)
    (hSkip : p.pendingLfSkip = false) (h : textByte cb p ud b = .ok s') : Live s'.1 := by
  unfold textByte at h
  split at h
  · split at h
    · cases h
      exact live_matched hSkip _
    · split at h
      · cases h
      · have hLine := lineByte_state rfl h
        exact ⟨.inr hLine, fun _ => hLine⟩
  · rename_i hBom
    have hLine := lineByte_state (hState.resolve_left hBom) h
    exact ⟨.inr hLine, fun _ => hLine⟩

theorem byteStep_live (cb : SseEventCb σ) (s : SseParser lim × σ) (b : Byte)
    (s' : SseParser lim × σ) (hLive : Live s.1) (h : byteStep cb s b = .ok s') : Live s'.1 := by
  unfold byteStep at h
  split at h
  · rename_i hSkip
    have hLine := hLive.skip hSkip
    split at h
    · cases h
      exact ⟨.inr hLine, fun _ => hLine⟩
    · exact textByte_live (p := { s.1 with pendingLfSkip := false }) (.inr hLine) rfl h
  · rename_i hSkip
    exact textByte_live hLive.state (Bool.eq_false_iff.mpr hSkip) h

theorem feedChunks_consume (cb : SseEventCb σ) {parser : SseParser lim} (hLive : Live parser)
    (ud : σ) (chunks : List Bytes) :
    outcome (feedChunks cb parser ud chunks) =
      consume (byteStep cb) (parser, ud) chunks.flatten := by
  have hChunks : ∀ (parser : SseParser lim) (ud : σ),
      outcome (feedChunks cb parser ud chunks) =
        consumeChunks (fun s chunk => outcome (sseParserFeed cb s.1 s.2 chunk)) (parser, ud)
          chunks := by
    induction chunks with
    | nil => exact fun _ _ => rfl
    | cons chunk chunks ih =>
      intro parser ud
      rw [feedChunks, consumeChunks]
      dsimp only
      cases sseParserFeed cb parser ud chunk with
      | mk parser' result =>
        obtain ⟨ud', err⟩ := result
        cases err with
        | none => exact ih parser' ud'
        | some err => rfl
  rw [hChunks]
  exact consumeChunks_eq_consume (I := fun s => Live s.1) (byteStep_live cb)
    (fun s word hs => sseParserFeed_consume cb hs s.2 word) hLive chunks

theorem processField_halted {parser parser' : SseParser lim} {name value : Bytes} {err : Error}
    (h : processField parser name value = (parser', some err)) : parser'.state = .failed := by
  unfold processField fail at h
  split_ifs at h
  · split at h
    · cases h
      rfl
    · split at h
      · cases h
        rfl
      · cases h
  · split at h
    · cases h
      rfl
    · cases h
  · cases h
  · split at h
    · cases h
      rfl
    · cases h
  · cases h

theorem dispatchEvent_halted {cb : SseEventCb σ} {parser parser' : SseParser lim} {ud ud' : σ}
    (h : dispatchEvent cb parser ud = (parser', ud', false)) : parser'.state = .aborted := by
  unfold dispatchEvent at h
  split at h
  · cases h
  · dsimp only at h
    split at h
    · cases h
    · cases h
      rfl

theorem processLine_halted {cb : SseEventCb σ} {parser parser' : SseParser lim} {ud ud' : σ}
    {line : Bytes} {err : Error} (h : processLine cb parser ud line = (parser', ud', some err)) :
    parser'.state = .failed ∨ parser'.state = .aborted := by
  unfold processLine at h
  split at h
  · split at h
    · cases h
    · rename_i hDispatch
      cases h
      have hAborted := dispatchEvent_halted hDispatch
      exact .inr hAborted
  · split at h
    · cases h
    · cases hField : processField parser (fieldName line) (fieldValue line) with
      | mk parser'' err' =>
        rw [hField] at h
        cases h
        exact .inl (processField_halted hField)

theorem bomStep_halted {parser parser' : SseParser lim} {bytes bytes' : Bytes} {err : Error}
    (h : bomStep parser bytes = (parser', bytes', some err)) : parser'.state = .failed := by
  induction bytes generalizing parser with
  | nil => cases h
  | cons b rest ih =>
    rw [bomStep] at h
    split at h
    · split at h
      · exact ih h
      · split at h
        · cases h
          rfl
        · cases h
    · cases h

theorem finishLine_halted {cb : SseEventCb σ} {parser parser' : SseParser lim} {ud ud' : σ}
    {line rest rest' : Bytes} {term : Byte} {err : Error}
    (h : finishLine cb parser ud line term rest = (parser', ud', rest', some err)) :
    parser'.state = .failed ∨ parser'.state = .aborted := by
  unfold finishLine at h
  split at h
  · rename_i hLine
    cases h
    exact processLine_halted hLine
  · cases h

theorem scanLine_halted {cb : SseEventCb σ} {parser parser' : SseParser lim} {ud ud' : σ}
    {span rest : Bytes} {err : Error} (h : scanLine cb parser ud span = (parser', ud', rest, some err)) :
    parser'.state = .failed ∨ parser'.state = .aborted := by
  unfold scanLine at h
  split at h
  · split at h
    · cases h
      exact .inl rfl
    · cases h
  · dsimp only at h
    split at h
    · split at h
      · cases h
        exact .inl rfl
      · exact finishLine_halted h
    · split at h
      · cases h
        exact .inl rfl
      · exact finishLine_halted h

theorem feedLoop_halted {cb : SseEventCb σ} {parser parser' : SseParser lim} {ud ud' : σ}
    {bytes : Bytes} {err : Error} (h : feedLoop cb parser ud bytes = (parser', ud', some err)) :
    parser'.state = .failed ∨ parser'.state = .aborted := by
  fun_induction feedLoop cb parser ud bytes with
  | case1 => cases h
  | case2 parser ud b rest hState parser'' _ err' hStep =>
    cases h
    exact .inl (bomStep_halted hStep)
  | case3 parser ud b rest hState parser'' bytes' hStep ih => exact ih h
  | case4 parser ud b rest hState parser'' ud'' _ err' hStep =>
    cases h
    exact scanLine_halted hStep
  | case5 parser ud b rest hState parser'' ud'' bytes' hStep ih => exact ih h

theorem sseParserFeed_halted {cb : SseEventCb σ} {parser parser' : SseParser lim} {ud ud' : σ}
    {bytes : Bytes} {err : Error} (h : sseParserFeed cb parser ud bytes = (parser', ud', some err)) :
    parser'.state = .failed ∨ parser'.state = .aborted := by
  unfold sseParserFeed at h
  split at h
  · rename_i hHalted
    cases h
    exact hHalted
  · split at h
    · split at h
      · cases h
      · dsimp only at h
        split at h <;> exact feedLoop_halted h
    · exact feedLoop_halted h

theorem feedChunks_halted {cb : SseEventCb σ} {parser parser' : SseParser lim} {ud ud' : σ}
    {chunks : List Bytes} {err : Error}
    (h : feedChunks cb parser ud chunks = (parser', ud', some err)) :
    sseParserFinish parser' = .truncated := by
  induction chunks generalizing parser ud with
  | nil => cases h
  | cons chunk chunks ih =>
    rw [feedChunks] at h
    split at h
    · exact ih h
    · rename_i hFeed
      cases h
      rw [sseParserFinish, if_pos (sseParserFeed_halted hFeed)]

/-- What a client sees of a stream: the events, the error if a feed failed, and the verdict
at the end. -/
structure Transcript where
  events : List SseEvent
  err : Option Error
  eof : SseEof
  deriving DecidableEq, Repr

def recordEvents (answer : List SseEvent → Bool) : SseEventCb (List SseEvent) :=
  fun events event => (events ++ [event], answer (events ++ [event]))

def transcript (limits : SseLimits) (answer : List SseEvent → Bool) (chunks : List Bytes) :
    Transcript :=
  match feedChunks (recordEvents answer) (sseParserNew limits) [] chunks with
  | (parser, events, err) => ⟨events, err, sseParserFinish parser⟩

def byteTranscript : Except (Halt (List SseEvent)) (SseParser lim × List SseEvent) → Transcript
  | .ok (parser, events) => ⟨events, none, sseParserFinish parser⟩
  | .error (events, err) => ⟨events, some err, .truncated⟩

theorem transcript_eq_bytes (limits : SseLimits) (answer : List SseEvent → Bool)
    (chunks : List Bytes) :
    transcript limits answer chunks =
      byteTranscript (consume (byteStep (recordEvents answer)) (sseParserNew limits, [])
        chunks.flatten) := by
  rw [← feedChunks_consume (recordEvents answer) (live_new limits), transcript]
  cases hFeed : feedChunks (recordEvents answer) (sseParserNew limits) [] chunks with
  | mk parser result =>
    obtain ⟨events, err⟩ := result
    cases err with
    | none => rfl
    | some err =>
      rw [outcome, byteTranscript]
      dsimp only
      rw [feedChunks_halted hFeed]

/-- Two ways of cutting one stream give the same events, error and verdict. -/
theorem transcript_cut_invariant (limits : SseLimits) (answer : List SseEvent → Bool)
    (chunks₁ chunks₂ : List Bytes) (h : chunks₁.flatten = chunks₂.flatten) :
    transcript limits answer chunks₁ = transcript limits answer chunks₂ := by
  rw [transcript_eq_bytes, transcript_eq_bytes, h]

/-- A BOM, a CRLF and a field, each cut in two. -/
theorem transcript_cut_invariant_sample :
    transcript ⟨0, 0, 0, 0⟩ (fun _ => true)
        [[0xef], [0xbb, 0xbf, 100, 97], [], [116, 97, 58, 32, 104, 105, 13], [10, 13], [10]] =
      transcript ⟨0, 0, 0, 0⟩ (fun _ => true)
        [[0xef, 0xbb, 0xbf, 100, 97, 116, 97, 58, 32, 104, 105, 13, 10, 13, 10]] :=
  transcript_cut_invariant _ _ _ _ rfl

end Mua.Sse
