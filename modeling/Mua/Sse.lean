import Mua.Memory

/-! # The incremental SSE decoder

The parser of sse.c, function by function. The unread part of a chunk is the
list still to be consumed, so the source's `cursor` becomes the remaining
suffix. The event callback is a state-passing function over its user data.
A call returns the parser, the user data and the error it reported, if any.
-/

namespace Mua.Sse

structure SseLimits where
  maxLine : Nat
  maxEventData : Nat
  maxEventType : Nat
  maxId : Nat
  deriving DecidableEq, Repr

def SseLimits.resolve (limits : SseLimits) : SseLimits where
  maxLine := if limits.maxLine = 0 then 256 * 1024 else limits.maxLine
  maxEventData := if limits.maxEventData = 0 then 1024 * 1024 else limits.maxEventData
  maxEventType := if limits.maxEventType = 0 then 1024 else limits.maxEventType
  maxId := if limits.maxId = 0 then 1024 else limits.maxId

inductive SseState
  | bom
  | line
  | failed
  | aborted
  deriving DecidableEq, Repr

structure SseEvent where
  eventType : Bytes
  data : Bytes
  id : Bytes
  deriving DecidableEq, Repr

structure SseParser (lim : SseLimits) where
  state : SseState
  bomMatched : Nat
  pendingLfSkip : Bool
  carry : Buf lim.maxLine
  data : Buf lim.maxEventData
  eventType : Buf lim.maxEventType
  id : Buf lim.maxId
  failMsg : Option Bytes
  failType : Option ErrorType

abbrev SseEventCb (σ : Type) := σ → SseEvent → σ × Bool

def cr : Byte := 13
def lf : Byte := 10
def colon : Byte := 58
def space : Byte := 32
def bomBytes : Bytes := [0xef, 0xbb, 0xbf]

variable {lim : SseLimits} {σ : Type}

def sseError (type : ErrorType) (msg : Bytes) : Error := ⟨type, ascii "sse: " ++ msg⟩

def fail (parser : SseParser lim) (type : ErrorType) (msg : Bytes) : SseParser lim × Option Error :=
  ({ parser with state := .failed, failMsg := some msg, failType := some type },
    some (sseError type msg))

/-- The accumulated event of a blank line; its last data line left a trailing LF. -/
def pendingEvent (parser : SseParser lim) : SseEvent where
  eventType := if parser.eventType.data = [] then ascii "message" else parser.eventType.data
  data := parser.data.data.dropLast
  id := parser.id.data

def dispatchEvent (cb : SseEventCb σ) (parser : SseParser lim) (ud : σ) :
    SseParser lim × σ × Bool :=
  if parser.data.data = [] then
    ({ parser with eventType := bufReset parser.eventType }, ud, true)
  else
    let cleared : SseParser lim :=
      { parser with data := bufReset parser.data, eventType := bufReset parser.eventType }
    match cb ud (pendingEvent parser) with
    | (ud', true) => (cleared, ud', true)
    | (ud', false) => ({ cleared with state := .aborted }, ud', false)

def processField (parser : SseParser lim) (name value : Bytes) : SseParser lim × Option Error :=
  if name = ascii "data" then
    match bufAppend parser.data value with
    | none => fail parser .validation (ascii "event data exceeds limit")
    | some data =>
      match bufAppend data [lf] with
      | none => fail { parser with data := data } .validation (ascii "event data exceeds limit")
      | some data => ({ parser with data := data }, none)
  else if name = ascii "event" then
    match bufAppend (bufReset parser.eventType) value with
    | none =>
      fail { parser with eventType := bufReset parser.eventType } .validation
        (ascii "event type exceeds limit")
    | some eventType => ({ parser with eventType := eventType }, none)
  else if name = ascii "id" then
    -- an id with a NUL in it is ignored
    if (0 : Byte) ∈ value then (parser, none)
    else
      match bufAppend (bufReset parser.id) value with
      | none =>
        fail { parser with id := bufReset parser.id } .validation (ascii "event id exceeds limit")
      | some id => ({ parser with id := id }, none)
  else (parser, none)

/-- The value of a field line: what follows the first colon, less one leading space. -/
def fieldValue (line : Bytes) : Bytes :=
  match line.dropWhile (· ≠ colon) with
  | [] => []
  | _ :: value => if value.head? = some space then value.tail else value

def fieldName (line : Bytes) : Bytes := line.takeWhile (· ≠ colon)

def processLine (cb : SseEventCb σ) (parser : SseParser lim) (ud : σ) (line : Bytes) :
    SseParser lim × σ × Option Error :=
  if line = [] then
    match dispatchEvent cb parser ud with
    | (parser', ud', true) => (parser', ud', none)
    | (parser', ud', false) =>
      ({ parser' with
          failMsg := some (ascii "aborted by event callback"), failType := some .exception },
        ud', some (sseError .exception (ascii "aborted by event callback")))
  else if line.head? = some colon then (parser, ud, none)
  else
    let (parser', err) := processField parser (fieldName line) (fieldValue line)
    (parser', ud, err)

/-- Consumes BOM-prefix bytes; on a mismatch the matched prefix becomes line content. -/
def bomStep (parser : SseParser lim) : Bytes → SseParser lim × Bytes × Option Error
  | [] => (parser, [], none)
  | b :: rest =>
    if parser.state = .bom then
      if bomBytes[parser.bomMatched]? = some b then
        let matched := parser.bomMatched + 1
        bomStep { parser with
          bomMatched := matched, state := if matched = 3 then .line else .bom } rest
      else
        match bufAppend parser.carry (bomBytes.take parser.bomMatched) with
        | none =>
          let (parser', err) := fail parser .validation (ascii "line exceeds limit")
          (parser', b :: rest, err)
        | some carry =>
          ({ parser with carry := carry, bomMatched := 0, state := .line }, b :: rest, none)
    else (parser, b :: rest, none)

def memchr (bytes : Bytes) (c : Byte) : Option Nat := bytes.findIdx? (· = c)

def findTerminator (bytes : Bytes) : Option Nat :=
  match memchr bytes cr, memchr bytes lf with
  | none, lfPos => lfPos
  | some crPos, none => some crPos
  | some crPos, some lfPos => if crPos < lfPos then some crPos else some lfPos

/-- After a processed line: drop it, and with a CR the LF that belongs to it. At the end of
the chunk that LF may still come with the next one. -/
def skipTerminator (parser : SseParser lim) (term : Byte) (rest : Bytes) : SseParser lim × Bytes :=
  let parser := { parser with carry := bufReset parser.carry }
  if term = cr then
    match rest with
    | [] => ({ parser with pendingLfSkip := true }, [])
    | b :: rest' => if b = lf then (parser, rest') else (parser, b :: rest')
  else (parser, rest)

/-- The end of a scan: the line is processed, then its terminator skipped. -/
def finishLine (cb : SseEventCb σ) (parser : SseParser lim) (ud : σ) (line : Bytes) (term : Byte)
    (rest : Bytes) : SseParser lim × σ × Bytes × Option Error :=
  match processLine cb parser ud line with
  | (parser', ud', some err) => (parser', ud', rest, some err)
  | (parser', ud', none) =>
    let (parser'', rest') := skipTerminator parser' term rest
    (parser'', ud', rest', none)

/-- Consumes one line, or the unterminated tail of the chunk, and returns what is left. -/
def scanLine (cb : SseEventCb σ) (parser : SseParser lim) (ud : σ) (span : Bytes) :
    SseParser lim × σ × Bytes × Option Error :=
  match findTerminator span with
  | none =>
    match bufAppend parser.carry span with
    | none =>
      let (parser', err) := fail parser .validation (ascii "line exceeds limit")
      (parser', ud, span, err)
    | some carry => ({ parser with carry := carry }, ud, [], none)
  | some pos =>
    let term := span.getD pos 0
    let rest := span.drop (pos + 1)
    if parser.carry.data ≠ [] then
      match bufAppend parser.carry (span.take pos) with
      | none =>
        let (parser', err) := fail parser .validation (ascii "line exceeds limit")
        (parser', ud, span, err)
      | some carry => finishLine cb { parser with carry := carry } ud carry.data term rest
    else if (span.take pos).length > lim.maxLine then
      -- the zero-copy path enforces the cap the carry path would
      let (parser', err) := fail parser .validation (ascii "line exceeds limit")
      (parser', ud, span, err)
    else finishLine cb parser ud (span.take pos) term rest

def sseParserNew (limits : SseLimits) : SseParser limits.resolve where
  state := .bom
  bomMatched := 0
  pendingLfSkip := false
  carry := bufInit _
  data := bufInit _
  eventType := bufInit _
  id := bufInit _
  failMsg := none
  failType := none

def sseParserReset (parser : SseParser lim) : SseParser lim where
  state := .bom
  bomMatched := 0
  pendingLfSkip := false
  carry := bufReset parser.carry
  data := bufReset parser.data
  eventType := bufReset parser.eventType
  id := bufReset parser.id
  failMsg := none
  failType := none

theorem bomStep_length (parser : SseParser lim) (bytes : Bytes) :
    (bomStep parser bytes).2.1.length ≤ bytes.length := by
  induction bytes generalizing parser with
  | nil => exact le_rfl
  | cons b rest ih =>
    rw [bomStep]
    split
    · split
      · exact (ih _).trans (Nat.le_succ _)
      · split <;> exact le_rfl
    · exact le_rfl

theorem bomStep_progress {parser parser' : SseParser lim} {b : Byte} {rest bytes' : Bytes}
    (hState : parser.state = .bom) (h : bomStep parser (b :: rest) = (parser', bytes', none)) :
    bytes'.length < rest.length + 1 ∨ (bytes'.length = rest.length + 1 ∧ parser'.state ≠ .bom) := by
  rw [bomStep, if_pos hState] at h
  split at h
  · have hLe := bomStep_length ({ parser with
      bomMatched := parser.bomMatched + 1
      state := if parser.bomMatched + 1 = 3 then .line else .bom } : SseParser lim) rest
    rw [h] at hLe
    exact .inl (Nat.lt_succ_of_le hLe)
  · split at h
    · cases h
    · cases h
      exact .inr ⟨rfl, by simp⟩

theorem skipTerminator_length (parser : SseParser lim) (term : Byte) (rest : Bytes) :
    (skipTerminator parser term rest).2.length ≤ rest.length := by
  unfold skipTerminator
  split
  · split
    · exact le_rfl
    · split
      · exact Nat.le_succ _
      · exact le_rfl
  · exact le_rfl

theorem finishLine_length {cb : SseEventCb σ} {parser parser' : SseParser lim} {ud ud' : σ}
    {line rest rest' : Bytes} {term : Byte}
    (h : finishLine cb parser ud line term rest = (parser', ud', rest', none)) :
    rest'.length ≤ rest.length := by
  unfold finishLine at h
  split at h
  · cases h
  · cases h
    exact skipTerminator_length _ _ _

theorem scanLine_progress {cb : SseEventCb σ} {parser parser' : SseParser lim} {ud ud' : σ}
    {b : Byte} {span rest : Bytes}
    (h : scanLine cb parser ud (b :: span) = (parser', ud', rest, none)) :
    rest.length < span.length + 1 := by
  unfold scanLine at h
  split at h
  · split at h
    · cases h
    · cases h
      exact Nat.succ_pos _
  · rename_i pos _
    have hDrop : ((b :: span).drop (pos + 1)).length ≤ span.length := by
      rw [List.drop_succ_cons, List.length_drop]
      exact Nat.sub_le _ _
    dsimp only at h
    split at h
    · split at h
      · cases h
      · exact Nat.lt_succ_of_le ((finishLine_length h).trans hDrop)
    · split at h
      · cases h
      · exact Nat.lt_succ_of_le ((finishLine_length h).trans hDrop)

/-- The loop of `sse_parser_feed` over the rest of the chunk. -/
def feedLoop (cb : SseEventCb σ) (parser : SseParser lim) (ud : σ) (bytes : Bytes) :
    SseParser lim × σ × Option Error :=
  match bytes with
  | [] => (parser, ud, none)
  | b :: rest =>
    if _hState : parser.state = .bom then
      match _hStep : bomStep parser (b :: rest) with
      | (parser', _, some err) => (parser', ud, some err)
      | (parser', bytes', none) => feedLoop cb parser' ud bytes'
    else
      match _hStep : scanLine cb parser ud (b :: rest) with
      | (parser', ud', _, some err) => (parser', ud', some err)
      | (parser', ud', bytes', none) => feedLoop cb parser' ud' bytes'
termination_by (bytes.length, if parser.state = .bom then 1 else 0)
decreasing_by
  · rcases bomStep_progress _hState _hStep with hLt | ⟨hEq, hLeft⟩
    · exact Prod.Lex.left _ _ hLt
    · rw [List.length_cons, hEq, if_neg hLeft, if_pos _hState]
      exact Prod.Lex.right _ Nat.one_pos
  · exact Prod.Lex.left _ _ (scanLine_progress _hStep)

def sseParserFeed (cb : SseEventCb σ) (parser : SseParser lim) (ud : σ) (bytes : Bytes) :
    SseParser lim × σ × Option Error :=
  if parser.state = .failed ∨ parser.state = .aborted then
    (parser, ud, some (sseError (parser.failType.getD .exception) (parser.failMsg.getD [])))
  else if parser.pendingLfSkip then
    match bytes with
    | [] => (parser, ud, none)
    | b :: rest =>
      let parser := { parser with pendingLfSkip := false }
      if b = lf then feedLoop cb parser ud rest else feedLoop cb parser ud (b :: rest)
  else feedLoop cb parser ud bytes

inductive SseEof
  | clean
  | truncated
  deriving DecidableEq, Repr

def sseParserFinish (parser : SseParser lim) : SseEof :=
  if parser.state = .failed ∨ parser.state = .aborted then .truncated
  else if parser.carry.data ≠ [] ∨ parser.data.data ≠ [] ∨ parser.bomMatched > 0 then .truncated
  else .clean

/-- Feeds chunks in order until a feed fails or the chunks run out. -/
def feedChunks (cb : SseEventCb σ) (parser : SseParser lim) (ud : σ) :
    List Bytes → SseParser lim × σ × Option Error
  | [] => (parser, ud, none)
  | chunk :: chunks =>
    match sseParserFeed cb parser ud chunk with
    | (parser', ud', none) => feedChunks cb parser' ud' chunks
    | (parser', ud', some err) => (parser', ud', some err)

end Mua.Sse
