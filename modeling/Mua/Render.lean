import Mua.Memory
import Mua.Lib.Lines
import Mua.Lib.Markup

/-! # The markdown renderer

`render_feed` takes the text in byte by byte and styles a line when its newline has come.
The styling functions never look at what they append to, so each gives the appends it
makes, in their order; `appendAll` makes them until one is refused. What a refused append
leaves of the renderer is left out: its caller does not use it any more.
-/

namespace Mua.Render

open Lines Markup

def kRenderLineMax : Nat := 2 ^ 20

def newline : Byte := 10
def space : Byte := 32
def tab : Byte := 9
def star : Byte := 42
def hash : Byte := 35
def backtick : Byte := 96
def backslash : Byte := 92
def tilde : Byte := 126

def sgrBoldOn : Bytes := ascii "\x1b[1m"
def sgrBoldOff : Bytes := ascii "\x1b[22m"
def sgrItalicOn : Bytes := ascii "\x1b[3m"
def sgrItalicOff : Bytes := ascii "\x1b[23m"
def sgrCodeOn : Bytes := ascii "\x1b[36m"
def sgrCodeOff : Bytes := ascii "\x1b[39m"
def sgrDimOn : Bytes := ascii "\x1b[2m"
def sgrDimOff : Bytes := ascii "\x1b[22m"

abbrev Appends := List Bytes

/-- Where the closing run of at least `run` stars begins. -/
def findClose (run : Nat) : Bytes → Option Nat
  | [] => none
  | c :: rest =>
    if c = star then
      let more := (rest.takeWhile fun b => b == star).length
      if run ≤ more + 1 then some 0
      -- insufficient run; skip it
      else (findClose run (rest.drop more)).map (· + (more + 1))
    else (findClose run rest).map (· + 1)
termination_by s => s.length
decreasing_by
  · rw [List.length_drop, List.length_cons]
    omega
  · exact Nat.lt_succ_self _

/-- One emphasis run, at a star: its appends, and what follows. -/
def emphasis (p : Bytes) : Appends × Bytes :=
  let run := if p[1]? = some star then 2 else 1
  let body := p.drop run
  match findClose run body with
  -- unmatched: the opener is literal
  | none => ([p.take run], body)
  | some close =>
    ([if run = 2 then sgrBoldOn else sgrItalicOn, body.take close,
      if run = 2 then sgrBoldOff else sgrItalicOff], body.drop (close + run))

theorem emphasis_lt (c : Byte) (rest : Bytes) :
    (emphasis (c :: rest)).2.length < (c :: rest).length := by
  have hBody : ∀ run, 0 < run → ((c :: rest).drop run).length < (c :: rest).length := by
    intro run hRun
    rw [List.length_drop, List.length_cons]
    omega
  have hRun : 0 < if (c :: rest)[1]? = some star then 2 else 1 := by split <;> decide
  rw [emphasis]
  generalize (if (c :: rest)[1]? = some star then 2 else 1) = run at hRun
  split
  · exact hBody run hRun
  · refine lt_of_le_of_lt ?_ (hBody run hRun)
    rw [List.length_drop]
    exact Nat.sub_le _ _

def inlinePass : Bytes → Appends
  | [] => []
  | c :: rest =>
    if c = backslash ∧ rest ≠ [] then rest.take 1 :: inlinePass (rest.drop 1)
    else if c = backtick then
      match rest.idxOf? backtick with
      | some j => [sgrCodeOn, rest.take j, sgrCodeOff] ++ inlinePass (rest.drop (j + 1))
      | none => [c] :: inlinePass rest
    else if c = star then (emphasis (c :: rest)).1 ++ inlinePass (emphasis (c :: rest)).2
    else [c] :: inlinePass rest
termination_by p => p.length
decreasing_by
  · rw [List.length_drop, List.length_cons]
    omega
  · rw [List.length_drop, List.length_cons]
    omega
  · exact Nat.lt_succ_self _
  · exact emphasis_lt c rest
  · exact Nat.lt_succ_self _

def isFence (p : Bytes) : Bool :=
  let s := p.dropWhile fun b => b == space
  s.take 3 == [backtick, backtick, backtick] || s.take 3 == [tilde, tilde, tilde]

def isDigit (b : Byte) : Bool := 48 ≤ b && b ≤ 57

def blockPrefix (p : Bytes) : Nat :=
  let i := (p.takeWhile fun b => b == space || b == tab).length
  match p.drop i with
  | [] => 0
  | c :: rest =>
    if c = 62 then if rest.head? = some space then i + 2 else i + 1
    else if (c = 45 ∨ c = star ∨ c = 43) ∧ rest.head? = some space then i + 2
    else
      let j := i + ((c :: rest).takeWhile isDigit).length
      if i < j ∧ (p[j]? = some 46 ∨ p[j]? = some 41) ∧ p[j + 1]? = some space then j + 2 else 0

def normalLine (p : Bytes) : Appends :=
  let i := ((p.take 3).takeWhile fun b => b == space).length
  let hashes := (((p.drop i).take 6).takeWhile fun b => b == hash).length
  if 0 < hashes ∧ (i + hashes = p.length ∨ p[i + hashes]? = some space) then
    let start := if p[i + hashes]? = some space then i + hashes + 1 else i + hashes
    [sgrBoldOn, p.drop start, sgrBoldOff]
  else
    let front := blockPrefix p
    (if 0 < front then [p.take front] else []) ++ inlinePass (p.drop front)

/-- The appends for a line, and whether a fence is open after it. -/
def styleLine (inFence : Bool) (p : Bytes) : Appends × Bool :=
  if isFence p then ([sgrDimOn, p, sgrDimOff], !inFence)
  else if inFence then ([sgrCodeOn, p, sgrCodeOff], inFence)
  else (normalLine p, inFence)

structure Renderer where
  line : Buf kRenderLineMax
  inFence : Bool
  lineOverflowed : Bool
  endedNewline : Bool

def renderInit : Renderer := ⟨bufInit kRenderLineMax, false, false, true⟩

/-- One turn of the loop of `render_feed`. -/
def feedByte (r : Renderer) (c : Byte) : Appends × Renderer :=
  if c = newline then
    let (styled, inFence) :=
      if r.lineOverflowed then ([], r.inFence) else styleLine r.inFence r.line.data
    (styled ++ [[newline]], ⟨bufReset r.line, inFence, false, true⟩)
  -- styling abandoned for this monster line
  else if r.lineOverflowed then ([[c]], { r with endedNewline := false })
  else
    match bufAppend r.line [c] with
    | none =>
      ([r.line.data, [c]],
        { r with line := bufReset r.line, lineOverflowed := true, endedNewline := false })
    | some line => ([], { r with line })

def feedBytes (r : Renderer) : Bytes → Appends × Renderer
  | [] => ([], r)
  | c :: rest =>
    let next := feedByte r c
    let more := feedBytes next.2 rest
    (next.1 ++ more.1, more.2)

def flushLine (r : Renderer) : Appends × Renderer :=
  let (styled, endedNewline) :=
    if ¬r.lineOverflowed ∧ r.line.data ≠ [] then ((styleLine r.inFence r.line.data).1, false)
    else ([], r.endedNewline)
  (styled, ⟨bufReset r.line, false, false, endedNewline⟩)

section

variable {max : Nat}

def appendAll (out : Buf max) : Appends → Option (Buf max)
  | [] => some out
  | s :: rest => (bufAppend out s).bind fun out => appendAll out rest

def renderFeed (r : Renderer) (text : Bytes) (out : Buf max) : Option (Renderer × Buf max) :=
  (appendAll out (feedBytes r text).1).map fun out => ((feedBytes r text).2, out)

def renderFlush (r : Renderer) (out : Buf max) : Option (Renderer × Buf max) :=
  (appendAll out (flushLine r).1).map fun out => ((flushLine r).2, out)

def renderChunks (r : Renderer) (out : Buf max) : List Bytes → Option (Renderer × Buf max)
  | [] => renderFlush r out
  | chunk :: chunks =>
    (renderFeed r chunk out).bind fun (r, out) => renderChunks r out chunks

end

inductive Attr
  | bold
  | italic
  | code
  | dim
  deriving DecidableEq, Repr

def esc : Byte := 27

def sgrFin : Byte := 109

/-- The codes of the attributes; bold and faint are turned off by the same one. -/
def sgr : Style Byte Attr where
  on
    | .bold => ascii "[1"
    | .italic => ascii "[3"
    | .code => ascii "[36"
    | .dim => ascii "[2"
  off
    | .bold => ascii "[22"
    | .italic => ascii "[23"
    | .code => ascii "[39"
    | .dim => ascii "[22"

def spanOf (attr : Attr) (body : Bytes) : Bytes :=
  code esc sgrFin (sgr.on attr) ++ (body ++ code esc sgrFin (sgr.off attr))

theorem bold_eq (body : Bytes) : [sgrBoldOn, body, sgrBoldOff].flatten = spanOf .bold body := by
  have hOn : sgrBoldOn = code esc sgrFin (sgr.on .bold) := (rfl)
  have hOff : sgrBoldOff = code esc sgrFin (sgr.off .bold) := (rfl)
  simp [spanOf, hOn, hOff]

theorem italic_eq (body : Bytes) :
    [sgrItalicOn, body, sgrItalicOff].flatten = spanOf .italic body := by
  have hOn : sgrItalicOn = code esc sgrFin (sgr.on .italic) := (rfl)
  have hOff : sgrItalicOff = code esc sgrFin (sgr.off .italic) := (rfl)
  simp [spanOf, hOn, hOff]

theorem code_eq (body : Bytes) : [sgrCodeOn, body, sgrCodeOff].flatten = spanOf .code body := by
  have hOn : sgrCodeOn = code esc sgrFin (sgr.on .code) := (rfl)
  have hOff : sgrCodeOff = code esc sgrFin (sgr.off .code) := (rfl)
  simp [spanOf, hOn, hOff]

theorem dim_eq (body : Bytes) : [sgrDimOn, body, sgrDimOff].flatten = spanOf .dim body := by
  have hOn : sgrDimOn = code esc sgrFin (sgr.on .dim) := (rfl)
  have hOff : sgrDimOff = code esc sgrFin (sgr.off .dim) := (rfl)
  simp [spanOf, hOn, hOff]

def Mark (b : Byte) : Prop := b = backslash ∨ b = backtick ∨ b = star

abbrev StyledLine : Bytes → Bytes → Prop := Styled esc sgrFin sgr Mark

variable {p s t line : Bytes} {run close : Nat}

theorem StyledLine.spanOf (h : StyledLine s t) (attr : Attr) {opened closed : Bytes}
    (body : Bytes) (hOpened : ∀ a ∈ opened, Mark a) (hClosed : ∀ a ∈ closed, Mark a) :
    StyledLine (opened ++ (body ++ (closed ++ s))) (Render.spanOf attr body ++ t) := by
  have hStyled := Styled.span attr body hOpened hClosed h
  rwa [Render.spanOf, List.append_assoc, List.append_assoc]

theorem take_stars {rest : Bytes} (h : run ≤ (rest.takeWhile fun b => b == star).length + 1) :
    (star :: rest).take run = List.replicate run star := by
  rw [List.eq_replicate_iff]
  constructor
  · have hLe := (List.takeWhile_prefix (fun b => b == star) (l := rest)).length_le
    rw [List.length_take, List.length_cons]
    omega
  · intro b hb
    cases run with
    | zero => simp at hb
    | succ run =>
      rw [List.take_succ_cons] at hb
      rcases List.mem_cons.mp hb with rfl | hRest
      · rfl
      · have hTake : rest.take run <+: rest.takeWhile fun b => b == star :=
          List.prefix_of_prefix_length_le (List.take_prefix run rest)
            (List.takeWhile_prefix _) (by rw [List.length_take]; omega)
        have hb := List.mem_takeWhile_imp (hTake.subset hRest)
        exact eq_of_beq hb

theorem findClose_some (h : findClose run s = some close) :
    s = s.take close ++ (List.replicate run star ++ s.drop (close + run)) := by
  fun_induction findClose run s generalizing close with
  | case1 => cases h
  | case2 rest more =>
    rename_i hEnough
    obtain rfl := Option.some.inj h
    rw [← take_stars hEnough, List.take_zero, List.nil_append, Nat.zero_add,
      List.take_append_drop]
  | case3 rest more =>
    rename_i hShort ih
    obtain ⟨k, hk, rfl⟩ := Option.map_eq_some_iff.mp h
    have hTake : (star :: rest).take (k + (more + 1)) =
        star :: (rest.take more ++ (rest.drop more).take k) := by
      rw [← Nat.add_assoc, List.take_succ_cons, Nat.add_comm k more, List.take_add]
    have hDrop : (star :: rest).drop (k + (more + 1) + run) = (rest.drop more).drop (k + run) := by
      rw [show k + (more + 1) + run = more + (k + run) + 1 by omega, List.drop_succ_cons,
        List.drop_drop]
    rw [hTake, hDrop, List.cons_append, List.append_assoc, ← ih hk, List.take_append_drop]
  | case4 c rest hStar ih =>
    obtain ⟨k, hk, rfl⟩ := Option.map_eq_some_iff.mp h
    rw [List.take_succ_cons, List.cons_append, show k + 1 + run = k + run + 1 by omega,
      List.drop_succ_cons, ← ih hk]

theorem mark_star (n : Nat) : ∀ b ∈ List.replicate n star, Mark b := by
  intro b hb
  rw [List.eq_of_mem_replicate hb]
  exact .inr (.inr rfl)

theorem emphasis_opener (rest : Bytes) :
    ∃ run, (if (star :: rest)[1]? = some star then 2 else 1) = run ∧
      (run = 1 ∨ run = 2) ∧ (star :: rest).take run = List.replicate run star := by
  refine ⟨_, rfl, ?_, ?_⟩
  · split
    · exact .inr rfl
    · exact .inl rfl
  · split
    · rename_i hNext
      cases rest with
      | nil => cases hNext
      | cons b rest =>
        obtain rfl : b = star := Option.some.inj hNext
        rfl
    · rfl

theorem emphasis_styled {rest : Bytes} (h : StyledLine (emphasis (star :: rest)).2 t) :
    StyledLine (star :: rest) ((emphasis (star :: rest)).1.flatten ++ t) := by
  obtain ⟨run, hEq, hOneTwo, hOpened⟩ := emphasis_opener rest
  have hSplit : star :: rest = List.replicate run star ++ (star :: rest).drop run := by
    rw [← hOpened, List.take_append_drop]
  rw [emphasis, hEq] at h ⊢
  cases hClose : findClose run ((star :: rest).drop run) with
  | none =>
    rw [hClose] at h
    have hAppend := h.append_left ((star :: rest).take run)
    rw [List.take_append_drop] at hAppend
    simpa using hAppend
  | some close =>
    rw [hClose] at h
    have hBody := findClose_some hClose
    have hSpan : ∀ attr, StyledLine (star :: rest)
        (spanOf attr (((star :: rest).drop run).take close) ++ t) := by
      intro attr
      have hStyled := h.spanOf attr (((star :: rest).drop run).take close) (mark_star run)
        (mark_star run)
      rwa [← hBody, ← hSplit] at hStyled
    rcases hOneTwo with rfl | rfl
    · have hItalic := hSpan .italic
      rw [← italic_eq] at hItalic
      exact hItalic
    · have hBold := hSpan .bold
      rw [← bold_eq] at hBold
      exact hBold

theorem idxOf_split {rest : Bytes} {b : Byte} {j : Nat} (h : rest.idxOf? b = some j) :
    rest = rest.take j ++ ([b] ++ rest.drop (j + 1)) := by
  obtain ⟨hj, hAt, -⟩ := List.idxOf?_eq_some_iff.mp h
  rw [← hAt, List.singleton_append, List.getElem_cons_drop, List.take_append_drop]

theorem inlinePass_styled (p : Bytes) : StyledLine p (inlinePass p).flatten := by
  fun_induction inlinePass p with
  | case1 => exact .nil
  | case2 c rest hEscape ih =>
    have hRest := ih.append_left (rest.take 1)
    rw [List.take_append_drop] at hRest
    exact .shed (.inl hEscape.1) hRest
  | case3 rest j hClose hEscape ih =>
    have hTick : ∀ b ∈ [backtick], Mark b := by
      intro b hb
      exact .inr (.inl (List.mem_singleton.mp hb))
    have hSpan := StyledLine.spanOf ih .code (rest.take j) hTick hTick
    rw [← idxOf_split hClose, ← code_eq] at hSpan
    rw [List.flatten_append]
    exact hSpan
  | case4 rest hNone hEscape ih => exact .keep backtick ih
  | case5 rest hEscape hTick ih =>
    rw [List.flatten_append]
    exact emphasis_styled ih
  | case6 c rest hEscape hTick hStar ih => exact .keep c ih

/-- What goes with the hashes of a heading: up to three spaces before them, and one behind. -/
def HeadingMark (lead : Bytes) : Prop :=
  ∃ before hashes behind, before ≤ 3 ∧ 0 < hashes ∧ hashes ≤ 6 ∧ behind ≤ 1 ∧
    lead = List.replicate before space ++ (List.replicate hashes hash ++
      List.replicate behind space)

/-- A line as it is put out: styled behind its heading mark, if it has one. -/
def LineOut (line out : Bytes) : Prop :=
  ∃ lead content, line = lead ++ content ∧ (lead = [] ∨ HeadingMark lead) ∧ StyledLine content out

theorem StyledLine.lineOut (h : StyledLine s t) : LineOut s t := ⟨[], s, rfl, .inl rfl, h⟩

theorem spanOf_styled (attr : Attr) (s : Bytes) : StyledLine s (spanOf attr s) := Styled.whole attr s

theorem take_front {q : Byte → Bool} {b : Byte} (n : Nat) (hq : ∀ a, q a = true → a = b) :
    p.take ((p.take n).takeWhile q).length =
      List.replicate ((p.take n).takeWhile q).length b := by
  have hPrefix : (p.take n).takeWhile q <+: p :=
    (List.takeWhile_prefix q).trans (List.take_prefix n p)
  rw [← List.prefix_iff_eq_take.mp hPrefix, List.eq_replicate_iff]
  exact ⟨rfl, fun a ha => hq a (List.mem_takeWhile_imp ha)⟩

theorem length_front_le (q : Byte → Bool) (n : Nat) : ((p.take n).takeWhile q).length ≤ n :=
  (List.takeWhile_prefix q).length_le.trans (List.length_take_le n p)

theorem drop_of_getElem {b : Byte} {n : Nat} (h : p[n]? = some b) :
    p.drop n = b :: p.drop (n + 1) := by
  obtain ⟨hn, rfl⟩ := List.getElem?_eq_some_iff.mp h
  exact (List.getElem_cons_drop hn).symm

theorem normalLine_out (p : Bytes) : LineOut p (normalLine p).flatten := by
  rw [normalLine]
  dsimp only
  split
  · rename_i hHeading
    have hSpaces := take_front (p := p) (b := space) 3 fun a => eq_of_beq
    have hHashes := fun i => take_front (p := p.drop i) (b := hash) 6 fun a => eq_of_beq
    have hBefore := length_front_le (p := p) (fun b => b == space) 3
    have hSix := fun i => length_front_le (p := p.drop i) (fun b => b == hash) 6
    rw [bold_eq]
    generalize ((p.take 3).takeWhile fun b => b == space).length = i at *
    replace hHashes := hHashes i
    replace hSix := hSix i
    generalize (((p.drop i).take 6).takeWhile fun b => b == hash).length = hashes at *
    have hFront : p = List.replicate i space ++ (List.replicate hashes hash ++
        p.drop (i + hashes)) := by
      rw [← hSpaces, ← hHashes, ← List.drop_drop, List.take_append_drop, List.take_append_drop]
    let lead := List.replicate i space ++ (List.replicate hashes hash ++
      List.replicate (if p[i + hashes]? = some space then 1 else 0) space)
    refine ⟨lead, _, ?_, .inr ?_, spanOf_styled .bold _⟩
    · dsimp only [lead]
      split
      · rename_i hSpace
        rw [List.append_assoc, List.append_assoc, List.replicate_one, List.singleton_append,
          ← drop_of_getElem hSpace]
        exact hFront
      · rw [List.replicate_zero, List.append_nil, List.append_assoc]
        exact hFront
    · refine ⟨i, hashes, _, hBefore, hHeading.1, hSix, ?_, rfl⟩
      split
      · decide
      · decide
  · have hInline := (inlinePass_styled (p.drop (blockPrefix p))).append_left (p.take (blockPrefix p))
    rw [List.take_append_drop] at hInline
    apply StyledLine.lineOut
    rw [List.flatten_append]
    split
    · simpa using hInline
    · rename_i hZero
      rw [Nat.eq_zero_of_not_pos hZero] at hInline ⊢
      exact hInline

theorem styleLine_out (inFence : Bool) (p : Bytes) :
    LineOut p (styleLine inFence p).1.flatten := by
  rw [styleLine]
  split
  · rw [dim_eq]
    exact (spanOf_styled .dim p).lineOut
  split
  · rw [code_eq]
    exact (spanOf_styled .code p).lineOut
  · exact normalLine_out p

theorem emphasis_ne_nil (p : Bytes) (hNe : p ≠ []) : (emphasis p).1.flatten ≠ [] := by
  have hOn : sgrItalicOn ≠ [] ∧ sgrBoldOn ≠ [] := by decide +kernel
  obtain ⟨c, rest, rfl⟩ := List.exists_cons_of_ne_nil hNe
  rw [emphasis]
  split
  · split
    · simp
    · simp
  · split
    · simp [hOn.2]
    · simp [hOn.1]

theorem inlinePass_ne_nil (hNe : p ≠ []) : (inlinePass p).flatten ≠ [] := by
  have hOn : sgrCodeOn ≠ [] := by decide +kernel
  fun_cases inlinePass p with
  | case1 => exact absurd rfl hNe
  | case2 c rest hEscape => simp [hEscape.2]
  | case3 rest j hClose hEscape => simp [hOn]
  | case4 rest hNone hEscape => simp
  | case5 rest hEscape hTick =>
    rw [List.flatten_append]
    exact List.append_ne_nil_of_left_ne_nil (emphasis_ne_nil _ (List.cons_ne_nil _ _)) _
  | case6 c rest hEscape hTick hStar => simp

theorem styleLine_ne_nil (inFence : Bool) (hNe : p ≠ []) :
    (styleLine inFence p).1.flatten ≠ [] := by
  have hOn : sgrDimOn ≠ [] ∧ sgrCodeOn ≠ [] ∧ sgrBoldOn ≠ [] := by decide +kernel
  rw [styleLine]
  split
  · simp [hOn.1]
  split
  · simp [hOn.2.1]
  rw [normalLine]
  dsimp only
  split
  · simp [hOn.2.2]
  · rw [List.flatten_append]
    split
    · rename_i hFront
      apply List.append_ne_nil_of_left_ne_nil
      simp [hNe, Nat.ne_of_gt hFront]
    · rename_i hFront
      rw [Nat.eq_zero_of_not_pos hFront]
      exact inlinePass_ne_nil hNe

/-- What is put out for a line without its newline; a line over the cap is left as it is. -/
def lineText (inFence : Bool) (l : Bytes) : Bytes :=
  if l.length ≤ kRenderLineMax then (styleLine inFence l).1.flatten else l

def fenceAfter (inFence : Bool) (l : Bytes) : Bool :=
  if l.length ≤ kRenderLineMax then (styleLine inFence l).2 else inFence

/-- The renderer in a line it has so much of, and what it has put out for it. -/
inductive Pending (inFence ended : Bool) (l : Bytes) : Renderer → Bytes → Prop
  | buffered (hFits : l.length ≤ kRenderLineMax) :
    Pending inFence ended l ⟨⟨l, hFits⟩, inFence, false, ended⟩ []
  | overflowed (hOver : kRenderLineMax < l.length) :
    Pending inFence ended l ⟨bufInit kRenderLineMax, inFence, true, false⟩ l

variable {inFence ended : Bool} {l e text : Bytes} {r r' : Renderer} {c : Byte}

theorem Pending.feedByte (h : Pending inFence ended l r e) (hc : c ≠ newline) :
    Pending inFence ended (l ++ [c]) (feedByte r c).2 (e ++ (feedByte r c).1.flatten) := by
  cases h with
  | buffered hFits =>
    rw [Render.feedByte, if_neg hc]
    dsimp only
    rw [if_neg Bool.false_ne_true]
    cases hAppend : bufAppend (⟨l, hFits⟩ : Buf kRenderLineMax) [c] with
    | none =>
      have hOver := bufAppend_eq_none.mp hAppend
      have hOver : kRenderLineMax < (l ++ [c]).length := by
        rw [List.length_append]
        exact hOver
      have hPending : Pending inFence ended (l ++ [c]) _ _ := .overflowed hOver
      simpa [bufReset_eq_init] using hPending
    | some line =>
      obtain ⟨data, hData⟩ := line
      obtain rfl : data = l ++ [c] := bufAppend_eq_some.mp hAppend
      exact .buffered hData
  | overflowed hOver =>
    rw [Render.feedByte, if_neg hc]
    have hLonger : kRenderLineMax < (l ++ [c]).length := by
      rw [List.length_append]
      exact Nat.lt_add_right _ hOver
    exact .overflowed hLonger

theorem feedBytes_append (r : Renderer) (s t : Bytes) :
    feedBytes r (s ++ t) =
      ((feedBytes r s).1 ++ (feedBytes (feedBytes r s).2 t).1,
        (feedBytes (feedBytes r s).2 t).2) := by
  induction s generalizing r with
  | nil => rfl
  | cons c s ih =>
    rw [List.cons_append, feedBytes, feedBytes]
    dsimp only
    rw [ih, List.append_assoc]

theorem feedBytes_part (h : Pending inFence ended l r e) {s : Bytes} (hs : newline ∉ s) :
    Pending inFence ended (l ++ s) (feedBytes r s).2 (e ++ (feedBytes r s).1.flatten) := by
  induction s generalizing l r e with
  | nil => simpa [feedBytes] using h
  | cons c s ih =>
    rw [List.mem_cons, not_or] at hs
    have hRest := ih (h.feedByte (Ne.symm hs.1)) hs.2
    rw [feedBytes]
    simpa using hRest

def atStart (inFence ended : Bool) : Renderer := ⟨bufInit kRenderLineMax, inFence, false, ended⟩

theorem pending_start (inFence ended : Bool) : Pending inFence ended [] (atStart inFence ended) [] :=
  .buffered (l := []) (Nat.zero_le kRenderLineMax)

theorem Pending.newline (h : Pending inFence ended l r e) :
    e ++ (Render.feedByte r newline).1.flatten = lineText inFence l ++ [newline] ∧
      (Render.feedByte r newline).2 = atStart (fenceAfter inFence l) true := by
  rw [Render.feedByte, if_pos rfl]
  cases h with
  | buffered hFits =>
    rw [lineText, fenceAfter, if_pos hFits, if_pos hFits]
    simp [atStart, bufReset, bufInit]
  | overflowed hOver =>
    rw [lineText, fenceAfter, if_neg (Nat.not_le.mpr hOver), if_neg (Nat.not_le.mpr hOver)]
    simp [atStart, bufReset, bufInit]

theorem Pending.flush (h : Pending inFence ended l r e) :
    e ++ (flushLine r).1.flatten = (if l = [] then [] else lineText inFence l) ∧
      (flushLine r).2 = atStart false (if l = [] then ended else false) := by
  cases h with
  | buffered hFits =>
    rw [flushLine, lineText, if_pos hFits]
    by_cases hNil : l = []
    · simp [hNil, atStart, bufReset, bufInit]
    · simp [hNil, atStart, bufReset, bufInit]
  | overflowed hOver =>
    have hNil : l ≠ [] := List.ne_nil_of_length_pos (Nat.zero_lt_of_lt hOver)
    rw [flushLine, lineText, if_neg (Nat.not_le.mpr hOver)]
    simp [hNil, atStart, bufReset, bufInit]

def output (r : Renderer) (text : Bytes) : Bytes :=
  (feedBytes r text).1.flatten ++ (flushLine (feedBytes r text).2).1.flatten

def finished (r : Renderer) (text : Bytes) : Renderer := (flushLine (feedBytes r text).2).2

theorem output_part (inFence ended : Bool) (hl : newline ∉ l) :
    output (atStart inFence ended) l = (if l = [] then [] else lineText inFence l) ∧
      finished (atStart inFence ended) l = atStart false (if l = [] then ended else false) := by
  have hPending := feedBytes_part (pending_start inFence ended) hl
  exact hPending.flush

theorem output_line (inFence ended : Bool) (hl : newline ∉ l) (rest : Bytes) :
    output (atStart inFence ended) (l ++ newline :: rest) =
        lineText inFence l ++ newline :: output (atStart (fenceAfter inFence l) true) rest ∧
      finished (atStart inFence ended) (l ++ newline :: rest) =
        finished (atStart (fenceAfter inFence l) true) rest := by
  have hPending := feedBytes_part (pending_start inFence ended) hl
  have hFeed := feedBytes_append (atStart inFence ended) l (newline :: rest)
  rw [List.nil_append] at hPending
  generalize feedBytes (atStart inFence ended) l = fed at hPending hFeed
  obtain ⟨hText, hState⟩ := hPending.newline
  have hNext : feedBytes fed.2 (newline :: rest) =
      ((feedByte fed.2 newline).1 ++ (feedBytes (atStart (fenceAfter inFence l) true) rest).1,
        (feedBytes (atStart (fenceAfter inFence l) true) rest).2) := by
    rw [← hState]
    rfl
  rw [hNext] at hFeed
  rw [output, finished, hFeed]
  dsimp only
  constructor
  · rw [List.flatten_append, List.flatten_append, ← List.append_assoc, output]
    rw [List.nil_append] at hText
    rw [hText]
    simp
  · rfl

theorem lineText_out (inFence : Bool) (l : Bytes) : LineOut l (lineText inFence l) := by
  rw [lineText]
  split
  · exact styleLine_out inFence l
  · exact StyledLine.lineOut (Styled.refl l)

theorem lineText_ne_nil (inFence : Bool) (hNe : l ≠ []) : lineText inFence l ≠ [] := by
  rw [lineText]
  split
  · exact styleLine_ne_nil inFence hNe
  · exact hNe

theorem LineOut.newline_notMem {line out : Bytes} (h : LineOut line out) (hl : newline ∉ line) :
    newline ∉ out := by
  obtain ⟨lead, content, rfl, -, hStyled⟩ := h
  intro hMem
  have hCodes : ∀ attr, newline ∉ code esc sgrFin (sgr.on attr) ∧
      newline ∉ code esc sgrFin (sgr.off attr) := by
    intro attr
    cases attr <;> decide +kernel
  rcases hStyled.mem_of_mem hMem with hContent | ⟨attr, hOn | hOff⟩
  · exact hl (List.mem_append_right _ hContent)
  · exact (hCodes attr).1 hOn
  · exact (hCodes attr).2 hOff

theorem LineOut.snoc {line out : Bytes} (h : LineOut line out) (b : Byte) :
    LineOut (line ++ [b]) (out ++ [b]) := by
  obtain ⟨lead, content, rfl, hLead, hStyled⟩ := h
  exact ⟨lead, content ++ [b], List.append_assoc .., hLead, hStyled.append (Styled.refl [b])⟩

theorem sgrFin_notMem : ∀ attr, sgrFin ∉ sgr.on attr ∧ sgrFin ∉ sgr.off attr := by
  intro attr
  cases attr <;> decide +kernel

/-- The codes of a line are pairs that open and close an attribute, one after the other; without
them the line is the source without marks, behind its heading mark if it has one. -/
structure LineRendered (line out : Bytes) : Prop where
  closed : ∃ attrs : List Attr,
    codes esc sgrFin out = attrs.flatMap fun attr => [sgr.on attr, sgr.off attr]
  sheds : ∃ lead content, line = lead ++ content ∧ (lead = [] ∨ HeadingMark lead) ∧
    Sheds Mark content (plain esc sgrFin out)

theorem LineOut.rendered {line out : Bytes} (h : LineOut line out) (hEsc : esc ∉ line) :
    LineRendered line out := by
  obtain ⟨lead, content, rfl, hLead, hStyled⟩ := h
  rw [List.mem_append, not_or] at hEsc
  have hOn := fun attr => (sgrFin_notMem attr).1
  have hOff := fun attr => (sgrFin_notMem attr).2
  exact ⟨hStyled.codes_eq hEsc.2 hOn hOff,
    lead, content, rfl, hLead, hStyled.plain_sheds hEsc.2 hOn hOff⟩

def Loose (b : Byte) : Prop := Mark b ∨ b = hash ∨ b = space

theorem HeadingMark.loose {lead : Bytes} (h : lead = [] ∨ HeadingMark lead) :
    ∀ b ∈ lead, Loose b := by
  intro b hb
  rcases h with rfl | ⟨before, hashes, behind, -, -, -, -, rfl⟩
  · cases hb
  · simp only [List.mem_append] at hb
    rcases hb with hb | hb | hb
    · exact .inr (.inr (List.eq_of_mem_replicate hb))
    · exact .inr (.inl (List.eq_of_mem_replicate hb))
    · exact .inr (.inr (List.eq_of_mem_replicate hb))

theorem LineOut.plain {line out : Bytes} (h : LineOut line out) (hEsc : esc ∉ line) (u : Bytes) :
    ∃ kept, Sheds Loose line kept ∧
      Markup.plain esc sgrFin (out ++ u) = kept ++ Markup.plain esc sgrFin u := by
  obtain ⟨lead, content, rfl, hLead, hStyled⟩ := h
  rw [List.mem_append, not_or] at hEsc
  have hOn := fun attr => (sgrFin_notMem attr).1
  have hOff := fun attr => (sgrFin_notMem attr).2
  refine ⟨_, ?_, hStyled.plain_append hEsc.2 hOn hOff u⟩
  have hContent := (hStyled.plain_sheds hEsc.2 hOn hOff).mono (Q := Loose) fun _ => .inl
  exact (Sheds.all (HeadingMark.loose hLead)).append hContent

/-- What is put out for a text, with a renderer that has or has not ended on a newline. -/
structure Rendered (ended : Bool) (text out : Bytes) (endedAfter : Bool) : Prop where
  byLine : List.Forall₂ LineRendered (lines newline text) (lines newline out)
  newlines : out.count newline = text.count newline
  sheds : Sheds Loose text (Markup.plain esc sgrFin out)
  empty : out = [] → endedAfter = ended
  ends : out ≠ [] → (endedAfter = true ↔ out.getLast? = some newline)

theorem output_rendered (text : Bytes) (hEsc : esc ∉ text) (inFence ended : Bool) :
    Rendered ended text (output (atStart inFence ended) text)
      (finished (atStart inFence ended) text).endedNewline := by
  induction text using line_induction newline generalizing inFence ended with
  | part l hl =>
    obtain ⟨hOutput, hFinished⟩ := output_part inFence ended hl
    rw [hOutput, hFinished]
    by_cases hNil : l = []
    · subst hNil
      refine ⟨.nil, rfl, ?_, fun _ => rfl, fun hNe => absurd rfl hNe⟩
      rw [if_pos rfl, plain_nil]
      exact .nil
    · have hOut := lineText_out inFence l
      have hFree := hOut.newline_notMem hl
      have hNe := lineText_ne_nil inFence hNil
      obtain ⟨kept, hKept, hPlain⟩ := hOut.plain hEsc []
      rw [List.append_nil, plain_nil, List.append_nil] at hPlain
      rw [if_neg hNil, if_neg hNil]
      constructor
      · rw [lines_part hl hNil, lines_part hFree hNe]
        exact .cons (hOut.rendered hEsc) .nil
      · rw [List.count_eq_zero_of_not_mem hl, List.count_eq_zero_of_not_mem hFree]
      · rw [hPlain]
        exact hKept
      · exact fun hEmpty => absurd hEmpty hNe
      · exact fun _ => iff_of_false Bool.false_ne_true fun hLast =>
          hFree (List.mem_of_getLast? hLast)
  | step l rest hl ih =>
    obtain ⟨hOutput, hFinished⟩ := output_line inFence ended hl rest
    rw [hOutput, hFinished]
    rw [List.mem_append, List.mem_cons, not_or, not_or] at hEsc
    have hRest := ih hEsc.2.2 (fenceAfter inFence l) true
    have hOut := lineText_out inFence l
    have hFree := hOut.newline_notMem hl
    have hLineEsc : esc ∉ l ++ [newline] := by
      rw [List.mem_append, List.mem_singleton, not_or]
      exact ⟨hEsc.1, hEsc.2.1⟩
    generalize output (atStart (fenceAfter inFence l) true) rest = u at hRest
    constructor
    · rw [lines_line hl, lines_line hFree]
      exact .cons ((hOut.snoc newline).rendered hLineEsc) hRest.byLine
    · rw [List.count_append, List.count_append, List.count_cons_self, List.count_cons_self,
        hRest.newlines, List.count_eq_zero_of_not_mem hl, List.count_eq_zero_of_not_mem hFree]
    · obtain ⟨kept, hKept, hPlain⟩ := (hOut.snoc newline).plain hLineEsc u
      have hSheds := hKept.append hRest.sheds
      rw [← hPlain] at hSheds
      simpa using hSheds
    · exact fun hEmpty => absurd hEmpty (by simp)
    · intro _
      cases u with
      | nil => exact iff_of_true (hRest.empty rfl) (by simp)
      | cons b u =>
        rw [hRest.ends (List.cons_ne_nil b u), List.getLast?_append_cons, List.getLast?_cons_cons]

section

variable {max : Nat} {out out' : Buf max}

theorem appendAll_eq_some {appends : Appends} :
    appendAll out appends = some out' ↔ out'.data = out.data ++ appends.flatten := by
  induction appends generalizing out with
  | nil =>
    rw [appendAll, List.flatten_nil, List.append_nil, Option.some.injEq, eq_comm, Buf.ext_iff]
  | cons s rest ih =>
    rw [appendAll, Option.bind_eq_some_iff, List.flatten_cons, ← List.append_assoc]
    constructor
    · rintro ⟨mid, hMid, hRest⟩
      rw [ih.mp hRest, bufAppend_eq_some.mp hMid]
    · intro hData
      have hFits := out'.fits
      rw [hData, List.length_append] at hFits
      have hMid : (out.data ++ s).length ≤ max := Nat.le_of_add_right_le hFits
      refine ⟨⟨out.data ++ s, hMid⟩, bufAppend_eq_some.mpr rfl, ih.mpr hData⟩

theorem renderChunks_eq {r : Renderer} {chunks : List Bytes}
    (h : renderChunks r out chunks = some (r', out')) :
    out'.data = out.data ++ output r chunks.flatten ∧ r' = finished r chunks.flatten := by
  induction chunks generalizing r out with
  | nil =>
    obtain ⟨flushed, hFlush, hEq⟩ := Option.map_eq_some_iff.mp h
    obtain ⟨rfl, rfl⟩ := Prod.mk.inj hEq
    exact ⟨appendAll_eq_some.mp hFlush, rfl⟩
  | cons chunk chunks ih =>
    obtain ⟨⟨r₁, out₁⟩, hFeed, hRest⟩ := Option.bind_eq_some_iff.mp h
    obtain ⟨fed, hFed, hEq⟩ := Option.map_eq_some_iff.mp hFeed
    obtain ⟨rfl, rfl⟩ := Prod.mk.inj hEq
    obtain ⟨hData, hState⟩ := ih hRest
    have hAppend := feedBytes_append r chunk chunks.flatten
    rw [List.flatten_cons, output, finished, hAppend]
    refine ⟨?_, hState⟩
    rw [hData, appendAll_eq_some.mp hFed, output, List.flatten_append, List.append_assoc,
      List.append_assoc]

end

/-- A text without ESC, in whatever chunks it comes, is put out the same: with as many newlines,
with the codes of each line in closed pairs, and with nothing left out but marks; and the renderer
knows whether it ended on a newline. -/
theorem render_sound {max : Nat} {chunks : List Bytes} {r : Renderer} {out : Buf max}
    (hEsc : esc ∉ chunks.flatten)
    (hRun : renderChunks renderInit (bufInit max) chunks = some (r, out)) :
    (∀ max' chunks' r' (out' : Buf max'), chunks'.flatten = chunks.flatten →
      renderChunks renderInit (bufInit max') chunks' = some (r', out') → out'.data = out.data) ∧
    out.data.count newline = chunks.flatten.count newline ∧
    List.Forall₂ LineRendered (lines newline chunks.flatten) (lines newline out.data) ∧
    Sheds Loose chunks.flatten (Markup.plain esc sgrFin out.data) ∧
    (out.data ≠ [] → (r.endedNewline = true ↔ out.data.getLast? = some newline)) := by
  obtain ⟨hData, hState⟩ := renderChunks_eq hRun
  rw [bufInit_data, List.nil_append] at hData
  have hRendered := output_rendered chunks.flatten hEsc false true
  change Rendered true _ (output renderInit chunks.flatten)
    (finished renderInit chunks.flatten).endedNewline at hRendered
  rw [← hData, ← hState] at hRendered
  refine ⟨fun max' chunks' r' out' hSame hRun' => ?_, hRendered.newlines, hRendered.byLine,
    hRendered.sheds, hRendered.ends⟩
  have hData' := (renderChunks_eq hRun').1
  rw [bufInit_data, List.nil_append, hSame] at hData'
  rw [hData', hData]

/-- A fence with an empty line and one more in it, in two chunks. -/
def fencedChunks : List Bytes := [ascii "``", ascii "`\n\nq"]

def fencedOut : Bytes := ascii "\x1b[2m```\x1b[22m\n\x1b[36m\x1b[39m\n\x1b[36mq\x1b[39m"

theorem render_sound_sample :
    ∃ r, ∃ out : Buf 100,
      renderChunks renderInit (bufInit 100) fencedChunks = some (r, out) ∧ out.data = fencedOut ∧
        out.data.count newline = fencedChunks.flatten.count newline ∧ ¬r.endedNewline = true := by
  have hOut : (renderChunks renderInit (bufInit 100) fencedChunks).map (fun p => p.2.data) =
      some fencedOut := by decide +kernel
  obtain ⟨⟨r, out⟩, hRun, hData⟩ := Option.map_eq_some_iff.mp hOut
  have hSound := render_sound (by decide +kernel) hRun
  have hData : out.data = fencedOut := hData
  refine ⟨r, out, hRun, hData, hSound.2.1, ?_⟩
  rw [hSound.2.2.2.2 (by rw [hData]; decide +kernel), hData]
  decide +kernel

end Mua.Render
