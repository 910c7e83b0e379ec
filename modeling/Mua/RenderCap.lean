import Mua.Agent
import Mua.Render

/-! # The styled output and its cap

The text of a response goes through the renderer into a buffer of 4 MiB that is emptied
after each feed. A refused append is taken for a lost stdout and cancels the turn. What a
feed puts out is the sum over the lines it completes, and a long line is put out at once.
-/

namespace Mua.Render

open Agent

def kRenderOutMax : Nat := 4 * 2 ^ 20

structure TurnCtx where
  renderOn : Bool
  failedWrite : Bool := false
  wroteAny : Bool := false
  lastWasNewline : Bool := false
  canceled : Bool := false
  rndr : Renderer := renderInit
  out : Buf kRenderOutMax := bufInit kRenderOutMax
  stdout : Bytes := []

def drainOut (works : Bool) (ctx : TurnCtx) : Bool × TurnCtx :=
  if ctx.out.data = [] then (true, ctx)
  else if works then
    (true, { ctx with
      wroteAny := true
      stdout := ctx.stdout ++ ctx.out.data
      out := bufReset ctx.out })
  else (false, ctx)

def failText (ctx : TurnCtx) : TurnCtx := { ctx with failedWrite := true, canceled := true }

def onText (works : Bool) (ctx : TurnCtx) (text : Bytes) : TurnCtx :=
  if ctx.failedWrite ∨ text = [] then ctx
  else if ctx.renderOn then
    match renderFeed ctx.rndr text ctx.out with
    | none => failText ctx
    | some (rndr, out) =>
      match drainOut works { ctx with rndr, out } with
      | (true, ctx) => ctx
      | (false, ctx) => failText ctx
  else if works then
    { ctx with
      wroteAny := true
      lastWasNewline := text.getLast? = some newline
      stdout := ctx.stdout ++ text }
  else failText ctx

def finishText (works : Bool) (ctx : TurnCtx) : TurnCtx :=
  if ctx.renderOn ∧ ¬ctx.failedWrite then
    match renderFlush ctx.rndr ctx.out with
    | none => { ctx with failedWrite := true }
    | some (rndr, out) =>
      match drainOut works { ctx with rndr, out } with
      | (true, ctx) => ctx
      | (false, ctx) => { ctx with failedWrite := true }
  else ctx

def onFinish (works : Bool) (ctx : TurnCtx) (outcome : TurnOutcome) : TurnCtx :=
  let ctx := finishText works ctx
  let endedNewline := if ctx.renderOn then ctx.rndr.endedNewline else ctx.lastWasNewline
  if outcome = .done ∧ ctx.wroteAny ∧ ¬endedNewline ∧ ¬ctx.failedWrite then
    { ctx with stdout := ctx.stdout ++ [newline] }
  else ctx

def respond (ctx : TurnCtx) (deltas : List Bytes) (outcome : TurnOutcome) : TurnCtx :=
  onFinish true (deltas.foldl (onText true) ctx) outcome

/-- The renderer alone, over a buffer that is reset after each feed; none stands for a call that
returns false. -/
def drained (r : Renderer) : List Bytes → Option Renderer
  | [] => (renderFlush r (bufInit kRenderOutMax)).map Prod.fst
  | delta :: deltas =>
    (renderFeed r delta (bufInit kRenderOutMax)).bind fun fed => drained fed.1 deltas

/-- A stretch of a line: as it is, in code, or in bold or italic. -/
inductive Span
  | text (n : Nat)
  | code (n : Nat)
  | emph (n : Nat)
  deriving DecidableEq, Repr

def Span.cost : Span → Nat
  | .text n => n
  | .code n => n + 10
  | .emph n => n + 9

def emphSpan (p : Bytes) : Span × Bytes :=
  let run := if p[1]? = some star then 2 else 1
  match findClose run (p.drop run) with
  | none => (.text (p.take run).length, p.drop run)
  | some close => (.emph ((p.drop run).take close).length, (p.drop run).drop (close + run))

theorem emphSpan_spec (p : Bytes) :
    (emphSpan p).2 = (emphasis p).2 ∧ (emphSpan p).1.cost = (emphasis p).1.flatten.length := by
  rw [emphSpan, emphasis]
  have hRun : (if p[1]? = some star then 2 else 1) = 1 ∨
      (if p[1]? = some star then 2 else 1) = 2 := by
    split
    · exact .inr rfl
    · exact .inl rfl
  generalize (if p[1]? = some star then 2 else 1) = run at hRun ⊢
  cases findClose run (p.drop run) with
  | none => exact ⟨rfl, by simp [Span.cost]⟩
  | some close =>
    have hItalic : sgrItalicOn.length = 4 ∧ sgrItalicOff.length = 5 := ⟨rfl, rfl⟩
    have hBold : sgrBoldOn.length = 4 ∧ sgrBoldOff.length = 5 := ⟨rfl, rfl⟩
    refine ⟨rfl, ?_⟩
    rcases hRun with rfl | rfl
    · simp [Span.cost, hItalic]
      omega
    · simp [Span.cost, hBold]
      omega

theorem emphSpan_lt (c : Byte) (rest : Bytes) :
    (emphSpan (c :: rest)).2.length < (c :: rest).length := by
  rw [(emphSpan_spec _).1]
  exact emphasis_lt c rest

def spans : Bytes → List Span
  | [] => []
  | c :: rest =>
    if c = backslash ∧ rest ≠ [] then .text 1 :: spans (rest.drop 1)
    else if c = backtick then
      match rest.idxOf? backtick with
      | some j => .code j :: spans (rest.drop (j + 1))
      | none => .text 1 :: spans rest
    else if c = star then (emphSpan (c :: rest)).1 :: spans (emphSpan (c :: rest)).2
    else .text 1 :: spans rest
termination_by p => p.length
decreasing_by
  · rw [List.length_drop, List.length_cons]
    omega
  · rw [List.length_drop, List.length_cons]
    omega
  · exact Nat.lt_succ_self _
  · exact emphSpan_lt c rest
  · exact Nat.lt_succ_self _

def spansCost (p : Bytes) : Nat := ((spans p).map Span.cost).sum

section

variable {c : Byte} {rest : Bytes}

theorem spansCost_nil : spansCost [] = 0 := by
  rw [spansCost, spans]
  rfl

theorem spansCost_escape (h : c = backslash ∧ rest ≠ []) :
    spansCost (c :: rest) = 1 + spansCost (rest.drop 1) := by
  rw [spansCost, spans, if_pos h]
  rfl

theorem spansCost_code {j : Nat} (h : rest.idxOf? backtick = some j) :
    spansCost (backtick :: rest) = j + 10 + spansCost (rest.drop (j + 1)) := by
  have hEscape : ¬(backtick = backslash ∧ rest ≠ []) := fun hBoth => absurd hBoth.1 (by decide)
  rw [spansCost, spans, if_neg hEscape, if_pos rfl, h]
  rfl

theorem spansCost_tick (h : rest.idxOf? backtick = none) :
    spansCost (backtick :: rest) = 1 + spansCost rest := by
  have hEscape : ¬(backtick = backslash ∧ rest ≠ []) := fun hBoth => absurd hBoth.1 (by decide)
  rw [spansCost, spans, if_neg hEscape, if_pos rfl, h]
  rfl

theorem spansCost_star :
    spansCost (star :: rest) =
      (emphSpan (star :: rest)).1.cost + spansCost (emphSpan (star :: rest)).2 := by
  have hEscape : ¬(star = backslash ∧ rest ≠ []) := fun hBoth => absurd hBoth.1 (by decide)
  rw [spansCost, spans, if_neg hEscape, if_neg (by decide), if_pos rfl]
  rfl

theorem spansCost_text (hEscape : ¬(c = backslash ∧ rest ≠ [])) (hTick : c ≠ backtick)
    (hStar : c ≠ star) : spansCost (c :: rest) = 1 + spansCost rest := by
  rw [spansCost, spans, if_neg hEscape, if_neg hTick, if_neg hStar]
  rfl

end

theorem inlinePass_length (p : Bytes) : (inlinePass p).flatten.length = spansCost p := by
  fun_induction inlinePass p with
  | case1 => exact spansCost_nil.symm
  | case2 c rest hEscape ih =>
    obtain ⟨b, rest, rfl⟩ := List.exists_cons_of_ne_nil hEscape.2
    rw [spansCost_escape hEscape, ← ih, List.flatten_cons, List.length_append]
    rfl
  | case3 rest j hClose hEscape ih =>
    obtain ⟨hj, -, -⟩ := List.idxOf?_eq_some_iff.mp hClose
    have hCodes : sgrCodeOn.length = 5 ∧ sgrCodeOff.length = 5 := ⟨rfl, rfl⟩
    have hTake : (rest.take j).length = j := List.length_take_of_le hj.le
    rw [spansCost_code hClose, ← ih, List.flatten_append, List.length_append]
    simp only [List.flatten_cons, List.flatten_nil, List.length_append, List.length_nil, hCodes,
      hTake]
    omega
  | case4 rest hNone hEscape ih =>
    rw [spansCost_tick hNone, ← ih, List.flatten_cons, List.length_append]
    rfl
  | case5 rest hEscape hTick ih =>
    rw [spansCost_star, (emphSpan_spec _).1, (emphSpan_spec _).2, ← ih, List.flatten_append,
      List.length_append]
  | case6 c rest hEscape hTick hStar ih =>
    rw [spansCost_text hEscape hTick hStar, ← ih, List.flatten_cons, List.length_append]
    rfl

def headingStart (p : Bytes) : Option Nat :=
  let i := ((p.take 3).takeWhile fun b => b == space).length
  let hashes := (((p.drop i).take 6).takeWhile fun b => b == hash).length
  if 0 < hashes ∧ (i + hashes = p.length ∨ p[i + hashes]? = some space) then
    some (if p[i + hashes]? = some space then i + hashes + 1 else i + hashes)
  else none

def lineCost (inFence : Bool) (l : Bytes) : Nat :=
  if isFence l then l.length + 9
  else if inFence then l.length + 10
  else
    match headingStart l with
    | some start => (l.drop start).length + 9
    | none => (l.take (blockPrefix l)).length + spansCost (l.drop (blockPrefix l))

theorem normalLine_eq (p : Bytes) :
    normalLine p = match headingStart p with
      | some start => [sgrBoldOn, p.drop start, sgrBoldOff]
      | none => (if 0 < blockPrefix p then [p.take (blockPrefix p)] else []) ++
          inlinePass (p.drop (blockPrefix p)) := by
  rw [normalLine, headingStart]
  dsimp only
  split <;> rfl

theorem styleLine_length (inFence : Bool) (l : Bytes) :
    (styleLine inFence l).1.flatten.length = lineCost inFence l := by
  rw [styleLine, lineCost]
  split
  · have hOn : sgrDimOn.length = 4 := rfl
    have hOff : sgrDimOff.length = 5 := rfl
    simp [hOn, hOff]
    omega
  split
  · have hOn : sgrCodeOn.length = 5 := rfl
    have hOff : sgrCodeOff.length = 5 := rfl
    simp [hOn, hOff]
    omega
  rw [normalLine_eq]
  cases headingStart l with
  | some start =>
    have hOn : sgrBoldOn.length = 4 := rfl
    have hOff : sgrBoldOff.length = 5 := rfl
    simp [hOn, hOff]
    omega
  | none =>
    dsimp only
    rw [List.flatten_append, List.length_append, inlinePass_length]
    split
    · simp
    · rename_i hFront
      simp [Nat.eq_zero_of_not_pos hFront]

def fenceBehind (inFence : Bool) (l : Bytes) : Bool := if isFence l then !inFence else inFence

theorem styleLine_fence (inFence : Bool) (l : Bytes) :
    (styleLine inFence l).2 = fenceBehind inFence l := by
  rw [styleLine, fenceBehind]
  split
  · rfl
  split <;> rfl

structure OpenLine where
  inFence : Bool
  l : Bytes

def OpenLine.after (o : OpenLine) : Bytes → OpenLine
  | [] => o
  | c :: s =>
    if c = newline then OpenLine.after ⟨fenceBehind o.inFence o.l, []⟩ s
    else OpenLine.after ⟨o.inFence, o.l ++ [c]⟩ s

def OpenLine.cost (o : OpenLine) : Bytes → Nat
  | [] => 0
  | c :: s =>
    if c = newline then
      lineCost o.inFence o.l + 1 + OpenLine.cost ⟨fenceBehind o.inFence o.l, []⟩ s
    else OpenLine.cost ⟨o.inFence, o.l ++ [c]⟩ s

/-- The lines that each delta completes fit into the buffer, and so does the line at the end. -/
def FitsFrom (o : OpenLine) : List Bytes → Prop
  | [] => o.l ≠ [] → lineCost o.inFence o.l ≤ kRenderOutMax
  | delta :: deltas => o.cost delta ≤ kRenderOutMax ∧ FitsFrom (o.after delta) deltas

theorem emphSpan_cost_le (c : Byte) (rest : Bytes) :
    (emphSpan (c :: rest)).1.cost + 5 * (emphSpan (c :: rest)).2.length ≤
      5 * (c :: rest).length := by
  have hRun : 0 < if (c :: rest)[1]? = some star then 2 else 1 := by split <;> decide
  rw [emphSpan]
  generalize (if (c :: rest)[1]? = some star then 2 else 1) = run at hRun
  have hBody : (((c :: rest).take run).length + ((c :: rest).drop run).length) =
      (c :: rest).length := by
    rw [← List.length_append, List.take_append_drop]
  have hTaken : 0 < ((c :: rest).take run).length := by
    rw [List.length_take, List.length_cons]
    omega
  cases hClose : findClose run ((c :: rest).drop run) with
  | none =>
    dsimp only [Span.cost]
    omega
  | some close =>
    have hSplit := congrArg List.length (findClose_some hClose)
    rw [List.length_append, List.length_append, List.length_replicate] at hSplit
    dsimp only [Span.cost]
    omega

theorem spansCost_le (p : Bytes) : spansCost p ≤ 5 * p.length := by
  fun_induction spans p with
  | case1 => rw [spansCost_nil]; exact Nat.zero_le _
  | case2 c rest hEscape ih =>
    have hPos := List.length_pos_of_ne_nil hEscape.2
    rw [List.length_drop] at ih
    rw [spansCost_escape hEscape, List.length_cons]
    omega
  | case3 rest j hClose hEscape ih =>
    obtain ⟨hj, -, -⟩ := List.idxOf?_eq_some_iff.mp hClose
    rw [List.length_drop] at ih
    rw [spansCost_code hClose, List.length_cons]
    omega
  | case4 rest hNone hEscape ih =>
    rw [spansCost_tick hNone, List.length_cons]
    omega
  | case5 rest hEscape hTick ih =>
    have hEmph := emphSpan_cost_le star rest
    rw [spansCost_star]
    omega
  | case6 c rest hEscape hTick hStar ih =>
    rw [spansCost_text hEscape hTick hStar, List.length_cons]
    omega

theorem lineCost_le (inFence : Bool) (l : Bytes) : lineCost inFence l ≤ 5 * l.length + 10 := by
  rw [lineCost]
  split
  · omega
  split
  · omega
  split
  · rw [List.length_drop]
    omega
  · have hSpans := spansCost_le (l.drop (blockPrefix l))
    have hBoth : (l.take (blockPrefix l)).length + (l.drop (blockPrefix l)).length = l.length := by
      rw [← List.length_append, List.take_append_drop]
    omega

theorem OpenLine.cost_le (o : OpenLine) (text : Bytes) :
    o.cost text + 5 * (o.after text).l.length ≤ 5 * o.l.length + 11 * text.length := by
  induction text generalizing o with
  | nil => simp [OpenLine.cost, OpenLine.after]
  | cons c s ih =>
    rw [OpenLine.cost, OpenLine.after, List.length_cons]
    split
    · have hLine := lineCost_le o.inFence o.l
      have hRest := ih ⟨fenceBehind o.inFence o.l, []⟩
      rw [List.length_nil] at hRest
      omega
    · have hRest := ih ⟨o.inFence, o.l ++ [c]⟩
      rw [List.length_append, List.length_singleton] at hRest
      omega

theorem fitsFrom_of_short {o : OpenLine} {deltas : List Bytes}
    (h : 5 * o.l.length + 11 * deltas.flatten.length + 10 ≤ kRenderOutMax) :
    FitsFrom o deltas := by
  induction deltas generalizing o with
  | nil =>
    have hLine := lineCost_le o.inFence o.l
    exact fun _ => by omega
  | cons delta deltas ih =>
    have hDelta := o.cost_le delta
    rw [List.flatten_cons, List.length_append] at h
    exact ⟨by omega, ih (by omega)⟩

theorem fitsFrom_part {o : OpenLine} {deltas : List Bytes} (h : newline ∉ deltas.flatten) :
    FitsFrom o deltas ↔ FitsFrom ⟨o.inFence, o.l ++ deltas.flatten⟩ [] := by
  have hPart : ∀ {text : Bytes} (o : OpenLine), newline ∉ text →
      o.cost text = 0 ∧ o.after text = ⟨o.inFence, o.l ++ text⟩ := by
    intro text
    induction text with
    | nil => exact fun o _ => ⟨rfl, by rw [List.append_nil]; rfl⟩
    | cons c s ih =>
      intro o hFree
      rw [List.mem_cons, not_or] at hFree
      have hRest := ih ⟨o.inFence, o.l ++ [c]⟩ hFree.2
      rw [OpenLine.cost, OpenLine.after, if_neg (Ne.symm hFree.1), if_neg (Ne.symm hFree.1)]
      simpa using hRest
  induction deltas generalizing o with
  | nil => rw [List.flatten_nil, List.append_nil]
  | cons delta deltas ih =>
    rw [List.flatten_cons, List.mem_append, not_or] at h
    obtain ⟨hCost, hAfter⟩ := hPart o h.1
    have hCons : FitsFrom o (delta :: deltas) ↔
        o.cost delta ≤ kRenderOutMax ∧ FitsFrom (o.after delta) deltas := Iff.rfl
    have hRest := ih h.2 (o := ⟨o.inFence, o.l ++ delta⟩)
    rw [List.append_assoc] at hRest
    rw [hCons, hCost, hAfter, and_iff_right (Nat.zero_le _), List.flatten_cons]
    exact hRest

def OpenLine.At (o : OpenLine) (r : Renderer) : Prop :=
  r.line.data = o.l ∧ r.inFence = o.inFence ∧ r.lineOverflowed = false

variable {o : OpenLine} {r : Renderer} {text : Bytes} {c : Byte} {deltas : List Bytes}

theorem feedByte_at (h : o.At r) (hRoom : o.l.length < kRenderLineMax) :
    (o.after [c]).At (feedByte r c).2 ∧ (feedByte r c).1.flatten.length = o.cost [c] := by
  obtain ⟨line, inFence, lineOverflowed, endedNewline⟩ := r
  obtain ⟨hLine, rfl, rfl⟩ := h
  rw [OpenLine.after, OpenLine.cost, feedByte]
  by_cases hc : c = newline
  · rw [if_pos hc, if_pos hc, if_pos hc, if_neg Bool.false_ne_true]
    dsimp only at hLine ⊢
    rw [hLine]
    refine ⟨⟨rfl, styleLine_fence o.inFence o.l, rfl⟩, ?_⟩
    rw [List.flatten_append, List.length_append, styleLine_length]
    rfl
  · rw [if_neg hc, if_neg hc, if_neg hc, if_neg Bool.false_ne_true]
    have hAppend : bufAppend line [c] = some ⟨line.data ++ [c], by
        rw [List.length_append, hLine]; exact hRoom⟩ := bufAppend_eq_some.mpr rfl
    dsimp only
    rw [hAppend]
    exact ⟨⟨congrArg (· ++ [c]) hLine, rfl, rfl⟩, rfl⟩

theorem OpenLine.after_length (o : OpenLine) (c : Byte) :
    (o.after [c]).l.length ≤ o.l.length + 1 := by
  rw [OpenLine.after]
  split
  · exact Nat.zero_le _
  · exact (List.length_append ..).le

theorem OpenLine.after_cons (o : OpenLine) (c : Byte) (s : Bytes) :
    o.after (c :: s) = (o.after [c]).after s := by
  rw [OpenLine.after, OpenLine.after]
  split <;> rfl

theorem OpenLine.cost_cons (o : OpenLine) (c : Byte) (s : Bytes) :
    o.cost (c :: s) = o.cost [c] + (o.after [c]).cost s := by
  rw [OpenLine.cost, OpenLine.cost, OpenLine.after]
  split
  · rfl
  · exact (Nat.zero_add _).symm

theorem feedBytes_at (h : o.At r) (hRoom : o.l.length + text.length ≤ kRenderLineMax) :
    (o.after text).At (feedBytes r text).2 ∧ (o.after text).l.length ≤ o.l.length + text.length ∧
      (feedBytes r text).1.flatten.length = o.cost text := by
  induction text generalizing o r with
  | nil => exact ⟨h, Nat.le_refl _, rfl⟩
  | cons c s ih =>
    rw [List.length_cons] at hRoom ⊢
    obtain ⟨hAt, hCost⟩ := feedByte_at (c := c) h (by omega)
    have hLength := o.after_length c
    obtain ⟨hAt, hLength', hCost'⟩ := ih hAt (by omega)
    rw [feedBytes, o.after_cons, o.cost_cons]
    refine ⟨hAt, by omega, ?_⟩
    rw [List.flatten_append, List.length_append, hCost, hCost']

theorem flushLine_at (h : o.At r) :
    (flushLine r).1.flatten.length = if o.l = [] then 0 else lineCost o.inFence o.l := by
  obtain ⟨hLine, hFence, hOverflowed⟩ := h
  rw [flushLine, hLine, hFence, hOverflowed]
  by_cases hNil : o.l = []
  · simp [hNil]
  · simp [hNil, ← styleLine_length]

theorem appendAll_empty {out : Buf kRenderOutMax} (hOut : out.data = []) (appends : Appends) :
    (∃ out', appendAll out appends = some out') ↔ appends.flatten.length ≤ kRenderOutMax := by
  constructor
  · rintro ⟨out', h⟩
    have hData := appendAll_eq_some.mp h
    rw [hOut, List.nil_append] at hData
    rw [← hData]
    exact out'.fits
  · intro hFits
    exact ⟨⟨appends.flatten, hFits⟩, appendAll_eq_some.mpr (by rw [hOut, List.nil_append])⟩

theorem drained_iff (h : o.At r)
    (hRoom : o.l.length + deltas.flatten.length ≤ kRenderLineMax) :
    (drained r deltas).isSome ↔ FitsFrom o deltas := by
  induction deltas generalizing o r with
  | nil =>
    have hFlush := appendAll_empty (rfl : (bufInit kRenderOutMax).data = []) (flushLine r).1
    rw [flushLine_at h] at hFlush
    rw [drained, FitsFrom, renderFlush, Option.isSome_map, Option.isSome_map,
      Option.isSome_iff_exists, hFlush]
    split
    · simp [*]
    · simp [*]
  | cons delta deltas ih =>
    rw [List.flatten_cons, List.length_append] at hRoom
    have hDelta : o.l.length + delta.length ≤ kRenderLineMax := by omega
    obtain ⟨hAt, hLength, hCost⟩ := feedBytes_at h hDelta
    have hFeed := appendAll_empty (rfl : (bufInit kRenderOutMax).data = []) (feedBytes r delta).1
    rw [hCost] at hFeed
    rw [drained, FitsFrom, ← ih hAt (by omega), renderFeed, ← hFeed]
    cases appendAll (bufInit kRenderOutMax) (feedBytes r delta).1 with
    | none => simp
    | some out => simp

structure OpenLine.In (o : OpenLine) (ctx : TurnCtx) : Prop where
  renderOn : ctx.renderOn = true
  failedWrite : ctx.failedWrite = false
  canceled : ctx.canceled = false
  out : ctx.out.data = []
  rndr : o.At ctx.rndr

def TurnCtx.Unharmed (ctx : TurnCtx) : Prop := ctx.canceled = false ∧ ctx.failedWrite = false

variable {ctx : TurnCtx} {outcome : TurnOutcome}

theorem drainOut_works (ctx : TurnCtx) :
    (drainOut true ctx).1 = true ∧ (drainOut true ctx).2.renderOn = ctx.renderOn ∧
      (drainOut true ctx).2.failedWrite = ctx.failedWrite ∧
      (drainOut true ctx).2.canceled = ctx.canceled ∧
      (drainOut true ctx).2.out.data = [] ∧ (drainOut true ctx).2.rndr = ctx.rndr := by
  rw [drainOut]
  split
  · exact ⟨rfl, rfl, rfl, rfl, ‹_›, rfl⟩
  · exact ⟨rfl, rfl, rfl, rfl, rfl, rfl⟩

theorem onText_fits (h : o.In ctx) (hRoom : o.l.length + text.length ≤ kRenderLineMax)
    (hFits : o.cost text ≤ kRenderOutMax) : (o.after text).In (onText true ctx text) := by
  rw [onText]
  split
  · rename_i hSkip
    rcases hSkip with hFailed | rfl
    · rw [h.failedWrite] at hFailed
      cases hFailed
    · exact h
  · obtain ⟨hAt, -, hCost⟩ := feedBytes_at h.rndr hRoom
    obtain ⟨out, hOut⟩ := (appendAll_empty h.out (feedBytes ctx.rndr text).1).mpr (by omega)
    obtain ⟨hTrue, hOn, hFailed, hCanceled, hEmpty, hRndr⟩ :=
      drainOut_works { ctx with rndr := (feedBytes ctx.rndr text).2, out }
    rw [if_pos h.renderOn, renderFeed, hOut]
    dsimp only [Option.map_some]
    generalize drainOut true { ctx with rndr := (feedBytes ctx.rndr text).2, out } = drained
      at hTrue hOn hFailed hCanceled hEmpty hRndr
    obtain ⟨taken, ctx'⟩ := drained
    obtain rfl : taken = true := hTrue
    exact ⟨hOn.trans h.renderOn, hFailed.trans h.failedWrite, hCanceled.trans h.canceled, hEmpty,
      (congrArg _ hRndr).mpr hAt⟩

theorem onText_over (h : o.In ctx) (hRoom : o.l.length + text.length ≤ kRenderLineMax)
    (hOver : kRenderOutMax < o.cost text) : (onText true ctx text).failedWrite = true := by
  have hNe : text ≠ [] := by
    rintro rfl
    cases hOver
  have hNone : appendAll ctx.out (feedBytes ctx.rndr text).1 = none := by
    rw [Option.eq_none_iff_forall_ne_some]
    intro out hOut
    have hFits := (appendAll_empty h.out _).mp ⟨out, hOut⟩
    rw [(feedBytes_at h.rndr hRoom).2.2] at hFits
    omega
  rw [onText, if_neg (by simp [h.failedWrite, hNe]), if_pos h.renderOn, renderFeed, hNone]
  rfl

theorem foldl_onText_failed (h : ctx.failedWrite = true) :
    deltas.foldl (onText true) ctx = ctx := by
  induction deltas with
  | nil => rfl
  | cons delta deltas ih => rw [List.foldl_cons, onText, if_pos (.inl h), ih]

theorem onFinish_failedWrite (works : Bool) (ctx : TurnCtx) (outcome : TurnOutcome) :
    (onFinish works ctx outcome).failedWrite = (finishText works ctx).failedWrite ∧
      (onFinish works ctx outcome).canceled = (finishText works ctx).canceled := by
  rw [onFinish]
  split <;> split <;> exact ⟨rfl, rfl⟩

theorem finishText_unharmed (h : o.In ctx) :
    (finishText true ctx).Unharmed ↔ FitsFrom o [] := by
  have hFlush := appendAll_empty h.out (flushLine ctx.rndr).1
  rw [flushLine_at h.rndr] at hFlush
  have hFits : FitsFrom o [] ↔ ∃ out, appendAll ctx.out (flushLine ctx.rndr).1 = some out := by
    rw [FitsFrom, hFlush]
    split
    · simp [*]
    · simp [*]
  rw [hFits, finishText, if_pos ⟨h.renderOn, by simp [h.failedWrite]⟩, renderFlush]
  cases hOut : appendAll ctx.out (flushLine ctx.rndr).1 with
  | none => simp [TurnCtx.Unharmed]
  | some out =>
    obtain ⟨hTrue, -, hFailed, hCanceled, -, -⟩ :=
      drainOut_works { ctx with rndr := (flushLine ctx.rndr).2, out }
    dsimp only [Option.map_some]
    generalize drainOut true { ctx with rndr := (flushLine ctx.rndr).2, out } = drained
      at hTrue hFailed hCanceled
    obtain ⟨taken, ctx'⟩ := drained
    obtain rfl : taken = true := hTrue
    exact iff_of_true ⟨hCanceled.trans h.canceled, hFailed.trans h.failedWrite⟩ ⟨out, rfl⟩

theorem respond_unharmed (h : o.In ctx)
    (hRoom : o.l.length + deltas.flatten.length ≤ kRenderLineMax) :
    (respond ctx deltas outcome).Unharmed ↔ FitsFrom o deltas := by
  induction deltas generalizing o ctx with
  | nil =>
    rw [← finishText_unharmed h, respond, List.foldl_nil, TurnCtx.Unharmed,
      (onFinish_failedWrite ..).1, (onFinish_failedWrite ..).2]
    rfl
  | cons delta deltas ih =>
    rw [List.flatten_cons, List.length_append] at hRoom
    have hDelta : o.l.length + delta.length ≤ kRenderLineMax := by omega
    have hLength := (feedBytes_at h.rndr hDelta).2.1
    by_cases hFits : o.cost delta ≤ kRenderOutMax
    · rw [FitsFrom, ← ih (onText_fits h hDelta hFits) (by omega)]
      exact (and_iff_right hFits).symm
    · have hFailed := onText_over h hDelta (Nat.lt_of_not_le hFits)
      refine iff_of_false (fun hUnharmed => ?_) (fun hFrom => hFits hFrom.1)
      have hOk := hUnharmed.2
      rw [respond, List.foldl_cons, foldl_onText_failed hFailed, (onFinish_failedWrite ..).1,
        finishText, if_neg (by simp [hFailed]), hFailed] at hOk
      cases hOk

theorem at_init : OpenLine.At ⟨false, []⟩ renderInit := ⟨rfl, rfl, rfl⟩

theorem in_init : OpenLine.In ⟨false, []⟩ { renderOn := true } :=
  ⟨rfl, rfl, rfl, rfl, at_init⟩

theorem response_room (h : deltas.flatten.length ≤ Openrouter.kOrContentCap) :
    ([] : Bytes).length + deltas.flatten.length ≤ kRenderLineMax := by
  rw [List.length_nil, Nat.zero_add]
  exact h

/-- The renderer takes a response of at most 1 MiB without returning false, and the turn goes on
with a working stdout, if and only if what each delta completes fits into the buffer with its
codes. -/
theorem renderOut_sound_iff (deltas : List Bytes) (outcome : TurnOutcome)
    (hCap : deltas.flatten.length ≤ Openrouter.kOrContentCap) :
    ((drained renderInit deltas).isSome ∧
      (respond { renderOn := true } deltas outcome).Unharmed) ↔ FitsFrom ⟨false, []⟩ deltas := by
  have hRoom := response_room hCap
  rw [drained_iff at_init hRoom, respond_unharmed in_init hRoom, and_self_iff]

/-- A fence, its newline and a line in it, in two deltas. -/
theorem renderOut_sound_sample :
    FitsFrom ⟨false, []⟩ [ascii "```", ascii "\nq"] ∧
      (drained renderInit [ascii "```", ascii "\nq"]).isSome := by
  have hFits : FitsFrom ⟨false, []⟩ [ascii "```", ascii "\nq"] := by
    apply fitsFrom_of_short
    decide +kernel
  exact ⟨hFits, ((renderOut_sound_iff _ .done (by decide +kernel)).mpr hFits).1⟩

/-- Pairs of backticks behind a letter: an empty code span each. -/
def ticks (n : Nat) : List Bytes := [97] :: List.replicate n [backtick, backtick]

theorem ticks_flatten (n : Nat) : (ticks n).flatten = 97 :: List.replicate (2 * n) backtick := by
  have hPairs := List.flatten_replicate_replicate (n := n) (m := 2) (a := backtick)
  rw [Nat.mul_comm, ← hPairs]
  rfl

theorem spansCost_ticks (n : Nat) : spansCost (List.replicate (2 * n) backtick) = 10 * n := by
  induction n with
  | zero => rw [spansCost, Nat.mul_zero, List.replicate_zero, spans]; rfl
  | succ n ih =>
    have hPair : List.replicate (2 * (n + 1)) backtick =
        backtick :: backtick :: List.replicate (2 * n) backtick := rfl
    have hNext : (backtick :: List.replicate (2 * n) backtick).idxOf? backtick = some 0 := by
      simp [List.idxOf?_cons]
    rw [hPair, spansCost_code hNext, Nat.zero_add, List.drop_succ_cons, List.drop_zero, ih]
    omega

theorem lineCost_ticks (n : Nat) :
    lineCost false (97 :: List.replicate (2 * n) backtick) = 10 * n + 1 := by
  have hFence : isFence (97 :: List.replicate (2 * n) backtick) = false := rfl
  have hHeading : headingStart (97 :: List.replicate (2 * n) backtick) = none := rfl
  have hBlock : blockPrefix (97 :: List.replicate (2 * n) backtick) = 0 := rfl
  have hEscape : ¬((97 : Byte) = backslash ∧ List.replicate (2 * n) backtick ≠ []) :=
    fun hBoth => absurd hBoth.1 (by decide)
  rw [lineCost, hFence, hHeading, if_neg Bool.false_ne_true, if_neg Bool.false_ne_true]
  dsimp only
  rw [hBlock, List.take_zero, List.drop_zero, spansCost_text hEscape (by decide) (by decide),
    spansCost_ticks, List.length_nil]
  omega

theorem ticks_fits_iff (n : Nat) :
    FitsFrom ⟨false, []⟩ (ticks n) ↔ 10 * n + 1 ≤ kRenderOutMax := by
  have hFree : newline ∉ (ticks n).flatten := by
    rw [ticks_flatten, List.mem_cons, List.mem_replicate, not_or]
    exact ⟨by decide, fun hMem => absurd hMem.2 (by decide)⟩
  rw [fitsFrom_part hFree, ticks_flatten, FitsFrom, List.nil_append, lineCost_ticks]
  exact forall_prop_of_true (List.cons_ne_nil _ _)

theorem ticks_over {n : Nat} (hCap : (ticks n).flatten.length ≤ Openrouter.kOrContentCap)
    (hOver : kRenderOutMax < 10 * n + 1) :
    drained renderInit (ticks n) = none ∧
      ¬(respond { renderOn := true } (ticks n) .done).Unharmed := by
  have hRoom := response_room hCap
  have hFits : ¬FitsFrom ⟨false, []⟩ (ticks n) := by
    rw [ticks_fits_iff]
    exact Nat.not_le.mpr hOver
  constructor
  · rw [← Option.not_isSome_iff_eq_none, drained_iff at_init hRoom]
    exact hFits
  · rw [respond_unharmed in_init hRoom]
    exact hFits

/-- A response one byte under its cap, and a turn with a working stdout that records a failed
write. -/
theorem renderOut_ticks :
    (ticks (2 ^ 19 - 1)).flatten.length + 1 = Openrouter.kOrContentCap ∧
      drained renderInit (ticks (2 ^ 19 - 1)) = none ∧
      ¬(respond { renderOn := true } (ticks (2 ^ 19 - 1)) .done).Unharmed := by
  have hLength : (ticks (2 ^ 19 - 1)).flatten.length + 1 = Openrouter.kOrContentCap := by
    rw [ticks_flatten, List.length_cons, List.length_replicate]
    decide
  have hCap : (ticks (2 ^ 19 - 1)).flatten.length ≤ Openrouter.kOrContentCap := by omega
  exact ⟨hLength, ticks_over hCap (by decide)⟩

end Mua.Render
