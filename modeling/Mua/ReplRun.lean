import Mua.Repl

/-! # The turns of the prompt loop

The loop over the buffer is the loop over the lines of the input, which the prompt and the gate of
its turns share. A turn runs with the window of its own model once the catalog is there, but for one
case: the window of the start stands until the model changes, also where the SessionStart hooks have
changed it before the loop began.
-/

namespace Mua.Repl

open Models Prompt Tools Lines Session

inductive Tail : Bytes → Prop
  | end' : Tail []
  | newline (rest : Bytes) : Tail (newline :: rest)

variable {content tail input rest : Bytes}

theorem fgetsLine_eq (hTail : Tail tail) (hContent : newline ∉ content) (room : Nat) :
    fgetsLine room (content ++ tail) =
      if content.length < room then (content ++ tail.take 1, tail.drop 1)
      else (content.take room, content.drop room ++ tail) := by
  induction content generalizing room with
  | nil =>
    cases room with
    | zero => rfl
    | succ room =>
      cases hTail with
      | end' => rfl
      | newline rest =>
        rw [List.nil_append, fgetsLine, if_pos rfl]
        simp
  | cons b content ih =>
    rw [List.mem_cons, not_or] at hContent
    cases room with
    | zero => rfl
    | succ room =>
      rw [List.cons_append, fgetsLine, if_neg (Ne.symm hContent.1), ih hContent.2]
      simp only [List.length_cons, Nat.add_lt_add_iff_right]
      split <;> rfl

theorem drainLine_eq (hTail : Tail tail) (hContent : newline ∉ content) (left : Nat) :
    drainLine left (content ++ tail) =
      if content.length < left then tail.drop 1 else content.drop left ++ tail := by
  induction content generalizing left with
  | nil =>
    cases left with
    | zero => rfl
    | succ left =>
      cases hTail with
      | end' => rfl
      | newline rest =>
        rw [List.nil_append, drainLine, if_pos rfl]
        simp
  | cons b content ih =>
    rw [List.mem_cons, not_or] at hContent
    cases left with
    | zero => rfl
    | succ left =>
      rw [List.cons_append, drainLine, if_neg (Ne.symm hContent.1), ih hContent.2]
      simp only [List.length_cons, Nat.add_lt_add_iff_right, List.drop_succ_cons]

theorem front_eq (hContent : newline ∉ content) (hTail : Tail tail) :
    front newline (content ++ tail) = content := by
  have hAll : ∀ b ∈ content, (b != newline) = true := by
    intro b hb
    rw [bne_iff_ne]
    rintro rfl
    exact hContent hb
  rw [front, List.takeWhile_append_of_pos hAll]
  cases hTail with
  | end' => simp
  | newline rest => simp

theorem promptLines_cons (hTail : Tail tail) (hContent : newline ∉ content) :
    promptLines (content ++ tail) =
      (texts content).filter (· ≠ []) ++ promptLines (tail.drop 1) := by
  have hEmpty : (texts []).filter (· ≠ []) = [] := by
    rw [texts, if_pos (by decide)]
    rfl
  cases hTail with
  | end' =>
    rw [List.append_nil]
    rcases eq_or_ne content [] with rfl | hNe
    · rw [hEmpty]
      rfl
    · have hFront := front_eq hContent .end'
      rw [List.append_nil] at hFront
      rw [promptLines, lines_part hContent hNe, List.flatMap_singleton, hFront]
      exact (List.append_nil _).symm
  | newline rest =>
    have hFront := front_eq hContent (.newline [])
    rw [promptLines, lines_line hContent, List.flatMap_cons, List.filter_append, hFront]
    rfl

theorem filter_given (text : Bytes) :
    [text].filter (· ≠ []) = (if text = [] then none else some text : Option Bytes).toList := by
  split
  · rename_i hNil
    subst hNil
    rfl
  · rename_i hNe
    simp [hNe]

theorem getLast_ne {text : Bytes} (h : newline ∉ text) : text.getLast? ≠ some newline :=
  fun hLast => h (List.mem_of_getLast? hLast)

theorem cstr_append_of_mem {text : Bytes} (h : (0 : Byte) ∈ text) (more : Bytes) :
    cstr (text ++ more) = cstr text := by
  obtain ⟨before, after, rfl⟩ := List.append_of_mem h
  rw [List.append_assoc, List.cons_append]
  induction before with
  | nil => rfl
  | cons b before ih =>
    by_cases hb : b = 0
    · subst hb
      rfl
    · rw [List.cons_append, List.cons_append, cstr_cons hb, cstr_cons hb]
      congr 1
      exact ih (List.mem_append_right _ List.mem_cons_self)

theorem cstr_lt {text : Bytes} (h : (0 : Byte) ∈ text) : (cstr text).length < text.length := by
  have hLe : (cstr text).length ≤ text.length := (List.takeWhile_sublist _).length_le
  refine Nat.lt_of_le_of_ne hLe fun hEq => ?_
  have hWhole : cstr text = text := (List.takeWhile_sublist _).eq_of_length hEq
  exact nulFree_cstr text (hWhole.symm ▸ h)

theorem newline_notMem_cstr (h : newline ∉ content) : newline ∉ cstr content :=
  fun hMem => h (List.takeWhile_subset _ hMem)

theorem texts_short (h : content.length < kReplLine - 1) : texts content = [cstr content] := by
  rw [texts, if_pos h]

theorem split_line (input : Bytes) :
    ∃ content tail, input = content ++ tail ∧ newline ∉ content ∧ Tail tail := by
  refine ⟨front newline input, input.drop (front newline input).length,
    (front_append_drop input).symm, notMem_front input, ?_⟩
  cases hRest : input.drop (front newline input).length with
  | nil => exact .end'
  | cons b rest =>
    obtain ⟨rfl, -⟩ := front_of_drop_cons hRest
    exact .newline rest

theorem readLine_short (hInput : content ++ tail ≠ []) (hTail : Tail tail)
    (hContent : newline ∉ content) (hShort : content.length < kReplLine - 1) :
    readLine (content ++ tail) =
      some (if cstr content = [] then none else some (cstr content), tail.drop 1) := by
  rw [readLine, if_neg hInput, fgetsLine_eq hTail hContent, if_pos hShort]
  dsimp only
  by_cases hNul : (0 : Byte) ∈ content
  · -- the newline is behind a NUL, and stays in the buffer
    have hLt := cstr_lt hNul
    rw [cstr_append_of_mem hNul, if_neg (getLast_ne (newline_notMem_cstr hContent)),
      if_neg (by omega)]
  · cases hTail with
    | end' =>
      rw [List.take_nil, List.append_nil, cstr_of_nulFree hNul, if_neg (getLast_ne hContent),
        if_neg (by omega)]
    | newline rest =>
      have hFree : NulFree (content ++ [newline]) := by
        rw [nulFree_append]
        exact ⟨hNul, by decide⟩
      have hTake : (newline :: rest).take 1 = [newline] := rfl
      rw [hTake, cstr_of_nulFree hFree, if_pos List.getLast?_concat, List.dropLast_concat,
        cstr_of_nulFree hNul]

/-- One reading takes the next text off the lines. -/
theorem readLine_takes (hInput : input ≠ []) :
    ∃ line rest, readLine input = some (line, rest) ∧
      promptLines input = line.toList ++ promptLines rest := by
  obtain ⟨content, tail, rfl, hContent, hTail⟩ := split_line input
  rw [promptLines_cons hTail hContent]
  by_cases hShort : content.length < kReplLine - 1
  · rw [readLine_short hInput hTail hContent hShort, texts_short hShort, filter_given]
    exact ⟨_, _, rfl, rfl⟩
  · have hLong : kReplLine - 1 ≤ content.length := Nat.le_of_not_lt hShort
    have hLength : (content.take (kReplLine - 1)).length = kReplLine - 1 :=
      List.length_take_of_le hLong
    have hFront : newline ∉ content.take (kReplLine - 1) :=
      fun hMem => hContent (List.mem_of_mem_take hMem)
    have hBack : newline ∉ content.drop (kReplLine - 1) :=
      fun hMem => hContent (List.mem_of_mem_drop hMem)
    rw [readLine, if_neg hInput, fgetsLine_eq hTail hContent, if_neg hShort]
    dsimp only
    rw [texts, if_neg hShort]
    by_cases hNul : (0 : Byte) ∈ content.take (kReplLine - 1)
    · -- the buffer was full, but does not look so: the rest of the line is a line of its own
      have hLt := cstr_lt hNul
      have hCstr : cstr content = cstr (content.take (kReplLine - 1)) := by
        conv_lhs => rw [← List.take_append_drop (kReplLine - 1) content]
        exact cstr_append_of_mem hNul _
      rw [if_neg (getLast_ne (newline_notMem_cstr hFront)), if_neg (by omega), if_pos hNul]
      refine ⟨_, _, rfl, ?_⟩
      rw [promptLines_cons hTail hBack, ← filter_given, ← hCstr, ← List.append_assoc,
        ← List.filter_append, List.singleton_append]
    · rw [cstr_of_nulFree hNul, if_neg (getLast_ne hFront), if_pos hLength, if_neg hNul,
        drainLine_eq hTail hBack]
      refine ⟨none, _, rfl, ?_⟩
      rw [Option.toList_none, List.nil_append, ← List.drop_drop]
      split
      · rename_i hDrained
        have hEmpty : (texts []).filter (· ≠ []) = [] := by
          rw [texts_short (by decide)]
          rfl
        rw [List.drop_of_length_le (Nat.le_of_lt hDrained), hEmpty, List.nil_append]
      · have hRest : newline ∉ (content.drop (kReplLine - 1)).drop kReplDrainMax :=
          fun hMem => hBack (List.mem_of_mem_drop hMem)
        rw [promptLines_cons hTail hRest]

theorem readLine_none (h : readLine input = none) : input = [] := by
  by_contra hInput
  obtain ⟨line, rest, hSome, -⟩ := readLine_takes hInput
  cases h.symm.trans hSome

theorem promptLines_next {line : Option Bytes} (hLine : readLine input = some (line, rest)) :
    promptLines input = line.toList ++ promptLines rest := by
  have hInput : input ≠ [] := by
    rintro rfl
    cases hLine
  obtain ⟨line', rest', hLine', hPrompts⟩ := readLine_takes hInput
  cases hLine.symm.trans hLine'
  exact hPrompts

theorem promptLines_ne {line : Bytes} (h : line ∈ promptLines input) : line ≠ [] :=
  of_decide_eq_true (List.mem_filter.mp h).2

def ReplWorld.Silent (w : ReplWorld) : Prop := ∀ k options, ∃ e, w.turn k options = .ended e

variable {w : ReplWorld} {cliModel : Option Bytes} {locked : Bool} {r r' : ReplState}

theorem replPrompt_turn {line : Bytes} {turn : TurnRun}
    (h : replPrompt w cliModel locked r line = (r', some turn)) :
    ∃ k options, turn = w.turn k options := by
  rw [replPrompt] at h
  dsimp only at h
  split at h
  · cases h
  · cases h
    exact ⟨_, _, rfl⟩

/-- Lines that stand for the input: the prompt and the gate of a turn take them off as they read. -/
structure Follows (w : ReplWorld) (Stand : Bytes → List Bytes → Prop) : Prop where
  ends : ∀ {given}, Stand [] given → given = []
  passes : ∀ {input rest given}, Stand input given → readLine input = some (none, rest) →
    Stand rest given ∨ ∃ more, given = [] :: more ∧ Stand rest more
  gives : ∀ {input rest line given}, Stand input given → readLine input = some (some line, rest) →
    line ≠ [] ∧ ∃ more, given = line :: more ∧ Stand rest more
  answers : ∀ k options {rest given}, Stand rest given →
    ((w.turn k options).run rest).1 = ((w.turn k options).answered given).1 ∧
      Stand ((w.turn k options).run rest).2 ((w.turn k options).answered given).2

/-- The loop over the buffer is the loop over lines that stand for its input. -/
theorem Follows.run {Stand : Bytes → List Bytes → Prop} (hFollows : Follows w Stand)
    {given : List Bytes} (h : Stand input given) (r : ReplState) :
    runRepl w cliModel locked r input = replLines w cliModel locked r given := by
  fun_induction runRepl w cliModel locked r input generalizing given with
  | case1 r input hLine =>
    obtain rfl := readLine_none hLine
    rw [hFollows.ends h, replLines.eq_def]
  | case2 r input rest hLine ih =>
    rcases hFollows.passes h hLine with hRest | ⟨more, rfl, hRest⟩
    · exact ih hRest
    · rw [replLines, if_pos rfl]
      exact ih hRest
  | case3 r input line rest hLine hQuits =>
    obtain ⟨hNe, more, rfl, -⟩ := hFollows.gives h hLine
    rw [replLines, if_neg hNe, if_pos hQuits]
  | case4 r input line rest hLine hQuits r' hPrompt ih =>
    obtain ⟨hNe, more, rfl, hRest⟩ := hFollows.gives h hLine
    rw [replLines, if_neg hNe, if_neg hQuits, hPrompt]
    exact ih hRest
  | case5 r input line rest hLine hQuits r' turn hPrompt next =>
    rename_i hStop
    obtain ⟨hNe, more, rfl, hRest⟩ := hFollows.gives h hLine
    obtain ⟨k, options, rfl⟩ := replPrompt_turn hPrompt
    obtain ⟨hEnd, -⟩ := hFollows.answers k options hRest
    rw [hEnd] at hStop
    rw [replLines, if_neg hNe, if_neg hQuits, hPrompt]
    refine Eq.trans ?_ (if_pos hStop).symm
    rw [← hEnd]
  | case6 r input line rest hLine hQuits r' turn hPrompt next =>
    rename_i hStop ih
    obtain ⟨hNe, more, rfl, hRest⟩ := hFollows.gives h hLine
    obtain ⟨k, options, rfl⟩ := replPrompt_turn hPrompt
    obtain ⟨hEnd, hLeft⟩ := hFollows.answers k options hRest
    rw [hEnd] at hStop
    rw [ih hLeft, replLines, if_neg hNe, if_neg hQuits, hPrompt]
    refine Eq.trans ?_ (if_neg hStop).symm
    rw [← hEnd]

/-- Without a gate the texts of the prompt's buffer stand for the input, however long its lines. -/
theorem follows_promptLines (hSilent : w.Silent) :
    Follows w fun input given => given = promptLines input where
  ends h := h.trans (by decide)
  passes h hLine := .inl (h.trans (promptLines_next hLine))
  gives := by
    intro input rest line given h hLine
    have hLines : promptLines input = line :: promptLines rest := promptLines_next hLine
    exact ⟨promptLines_ne (hLines ▸ List.mem_cons_self), _, h.trans hLines, rfl⟩
  answers := by
    intro k options rest given h
    obtain ⟨e, hEnd⟩ := hSilent k options
    rw [hEnd]
    exact ⟨rfl, h⟩

def Plain (input : Bytes) : Prop :=
  ∀ line ∈ lines newline input,
    (front newline line).length < kReplLine - 1 ∧ NulFree (front newline line)

instance (input : Bytes) : Decidable (Plain input) :=
  inferInstanceAs (Decidable (∀ line ∈ _, _ ∧ _ ∉ _))

def inputLines (input : Bytes) : List Bytes := (lines newline input).map (front newline)

theorem lines_next (hInput : content ++ tail ≠ []) (hTail : Tail tail)
    (hContent : newline ∉ content) :
    lines newline (content ++ tail) = (content ++ tail.take 1) :: lines newline (tail.drop 1) := by
  cases hTail with
  | end' =>
    rw [List.append_nil] at hInput
    rw [List.append_nil, lines_part hContent hInput, List.take_nil, List.append_nil]
    rfl
  | newline rest => exact lines_line hContent

theorem tail_take (hTail : Tail tail) : Tail (tail.take 1) := by
  cases hTail with
  | end' => exact .end'
  | newline rest => exact .newline []

theorem inputLines_next (hInput : content ++ tail ≠ []) (hTail : Tail tail)
    (hContent : newline ∉ content) :
    inputLines (content ++ tail) = content :: inputLines (tail.drop 1) := by
  rw [inputLines, lines_next hInput hTail hContent, List.map_cons,
    front_eq hContent (tail_take hTail)]
  rfl

theorem Plain.next (h : Plain (content ++ tail)) (hInput : content ++ tail ≠ []) (hTail : Tail tail)
    (hContent : newline ∉ content) :
    (content.length < kReplLine - 1 ∧ NulFree content) ∧ Plain (tail.drop 1) := by
  rw [Plain, lines_next hInput hTail hContent, List.forall_mem_cons,
    front_eq hContent (tail_take hTail)] at h
  exact h

theorem approves_append (hTail : Tail tail) : approves (content ++ tail) = approves content := by
  cases content with
  | cons b content => rfl
  | nil =>
    cases hTail with
    | end' => rfl
    | newline rest => rfl

/-- The gate takes a line of the prompt's size whole: what its own buffer leaves is drained. -/
theorem gateAnswer_plain (hInput : content ++ tail ≠ []) (hTail : Tail tail)
    (hContent : newline ∉ content) (hShort : content.length < kReplLine - 1)
    (hFree : NulFree content) :
    gateAnswer (content ++ tail) = (approves content, tail.drop 1) := by
  have hSizes : kReplLine - 1 ≤ kAgentGateLine - 1 + kAgentGateDrainMax := by decide
  rw [gateAnswer, if_neg hInput, fgetsLine_eq hTail hContent]
  by_cases hFits : content.length < kAgentGateLine - 1
  · rw [if_pos hFits]
    dsimp only
    have hWhole : NulFree (content ++ tail.take 1) := by
      rw [nulFree_append]
      refine ⟨hFree, ?_⟩
      cases hTail with
      | end' => exact List.not_mem_nil
      | newline rest =>
        change NulFree [newline]
        decide
    rw [cstr_of_nulFree hWhole, approves_append (tail_take hTail)]
    cases hTail with
    | end' =>
      rw [List.take_nil, List.append_nil, if_neg hContent]
      rfl
    | newline rest =>
      have hMem : newline ∈ content ++ (newline :: rest).take 1 :=
        List.mem_append_right _ List.mem_cons_self
      rw [if_pos hMem]
  · have hLong : kAgentGateLine - 1 ≤ content.length := Nat.le_of_not_lt hFits
    have hPart : NulFree (content.take (kAgentGateLine - 1)) :=
      fun hMem => hFree (List.mem_of_mem_take hMem)
    have hFront : newline ∉ content.take (kAgentGateLine - 1) :=
      fun hMem => hContent (List.mem_of_mem_take hMem)
    have hBack : newline ∉ content.drop (kAgentGateLine - 1) :=
      fun hMem => hContent (List.mem_of_mem_drop hMem)
    have hDrained : (content.drop (kAgentGateLine - 1)).length < kAgentGateDrainMax := by
      rw [List.length_drop]
      omega
    rw [if_neg hFits]
    dsimp only
    rw [cstr_of_nulFree hPart, if_neg hFront, drainLine_eq hTail hBack, if_pos hDrained]
    cases content with
    | nil => exact absurd hLong (by decide)
    | cons b content => rfl

theorem TurnRun.run_plain (turn : TurnRun) (h : Plain input) :
    (turn.run input).1 = (turn.answered (inputLines input)).1 ∧
      inputLines (turn.run input).2 = (turn.answered (inputLines input)).2 ∧
      Plain (turn.run input).2 := by
  induction turn generalizing input with
  | ended e => exact ⟨rfl, rfl, h⟩
  | asks next ih =>
    by_cases hInput : input = []
    · subst hInput
      exact ih false h
    obtain ⟨content, tail, rfl, hContent, hTail⟩ := split_line input
    obtain ⟨⟨hShort, hFree⟩, hRest⟩ := h.next hInput hTail hContent
    rw [TurnRun.run, gateAnswer_plain hInput hTail hContent hShort hFree,
      inputLines_next hInput hTail hContent]
    exact ih (approves content) hRest

theorem Plain.read {line : Option Bytes} (h : Plain input)
    (hLine : readLine input = some (line, rest)) :
    ∃ content, inputLines input = content :: inputLines rest ∧ Plain rest ∧
      line = if content = [] then none else some content := by
  have hInput : input ≠ [] := by
    rintro rfl
    cases hLine
  obtain ⟨content, tail, rfl, hContent, hTail⟩ := split_line input
  obtain ⟨⟨hShort, hFree⟩, hRest⟩ := h.next hInput hTail hContent
  rw [readLine_short hInput hTail hContent hShort, cstr_of_nulFree hFree] at hLine
  cases hLine
  exact ⟨content, inputLines_next hInput hTail hContent, hRest, rfl⟩

/-- Plain lines stand for the input as they are. -/
theorem follows_inputLines (w : ReplWorld) :
    Follows w fun input given => Plain input ∧ given = inputLines input where
  ends h := h.2
  passes := by
    rintro input rest given ⟨hPlain, rfl⟩ hLine
    obtain ⟨content, hLines, hRest, hContent⟩ := hPlain.read hLine
    split at hContent
    · rename_i hEmpty
      subst hEmpty
      exact .inr ⟨_, hLines, hRest, rfl⟩
    · cases hContent
  gives := by
    rintro input rest line given ⟨hPlain, rfl⟩ hLine
    obtain ⟨content, hLines, hRest, hContent⟩ := hPlain.read hLine
    split at hContent
    · cases hContent
    · rename_i hNe
      cases hContent
      exact ⟨hNe, _, hLines, hRest, rfl⟩
  answers := by
    rintro k options rest given ⟨hPlain, rfl⟩
    obtain ⟨hEnd, hLeft, hRest⟩ := (w.turn k options).run_plain hPlain
    exact ⟨hEnd, hRest, hLeft.symm⟩

/-- What `run_repl` and the gate of its turns read from the input, byte by byte and through buffers
of fixed size, are the lines of the input, each given to one of them and unchanged if every line
fits the prompt's buffer and has no NUL. When no turn asks, the run is one over the lines of any
input. -/
theorem runRepl_reads (w : ReplWorld) (cliModel : Option Bytes) (locked : Bool) (r : ReplState)
    (input : Bytes) :
    (Plain input →
        runRepl w cliModel locked r input = replLines w cliModel locked r (inputLines input)) ∧
      (w.Silent →
        runRepl w cliModel locked r input = replLines w cliModel locked r (promptLines input)) :=
  ⟨fun hPlain => (follows_inputLines w).run ⟨hPlain, rfl⟩ r,
    fun hSilent => (follows_promptLines hSilent).run rfl r⟩

/-! A turn that asks at the gate; the answer is no prompt. -/

def gateInput : Bytes := ascii "run ls\ny\nexit\n"

def gateWorld : ReplWorld where
  lua := plainLua
  lib := schemaLib
  checkStack _ := true
  hooks _ := []
  answer _ := none
  turn _ options := .asks fun yes => .ended ⟨options, if yes then 0 else 1, false⟩

def gateStart : ReplState := startRepl gateWorld none (some 1000) none id .empty

theorem runRepl_reads_sample :
    runRepl gateWorld none true gateStart gateInput =
      replLines gateWorld none true gateStart [ascii "run ls", ascii "y", ascii "exit"] := by
  have hPlain : Plain gateInput := by decide +kernel
  have hLines : inputLines gateInput = [ascii "run ls", ascii "y", ascii "exit"] := by
    decide +kernel
  rw [← hLines]
  exact (runRepl_reads gateWorld none true gateStart gateInput).1 hPlain

section Windows

variable {launched seeded model : Option Bytes} {catalog : Catalog} {first window : Int}
  {suits suits' : Option Bytes → Int → Prop} {turns : List ReplTurn} {turn : ReplTurn}

/-- The window of each turn, by the models of the turns up to it: the first one while they are the
model of the start, and one that suits its model from the first change on. -/
def Windowed (suits : Option Bytes → Int → Prop) (seeded : Option Bytes) (first : Int)
    (turns : List ReplTurn) : Prop :=
  ∀ before turn after, turns = before ++ turn :: after →
    ((∀ t ∈ before ++ [turn], t.model = seeded) → turn.window = first) ∧
      ((∃ t ∈ before ++ [turn], t.model ≠ seeded) → suits turn.model turn.window)

theorem windowed_nil : Windowed suits seeded first [] := by
  intro before turn after h
  cases before <;> cases h

theorem Windowed.mono (h : Windowed suits seeded first turns)
    (hSuits : ∀ model window, suits model window → suits' model window) :
    Windowed suits' seeded first turns := by
  intro before turn after hSplit
  obtain ⟨hSame, hMoved⟩ := h before turn after hSplit
  exact ⟨hSame, fun hChange => hSuits _ _ (hMoved hChange)⟩

theorem Windowed.snoc (h : Windowed suits seeded first turns)
    (hSame : (∀ t ∈ turns ++ [turn], t.model = seeded) → turn.window = first)
    (hMoved : (∃ t ∈ turns ++ [turn], t.model ≠ seeded) → suits turn.model turn.window) :
    Windowed suits seeded first (turns ++ [turn]) := by
  intro before other after hSplit
  rcases List.eq_nil_or_concat after with rfl | ⟨middle, last, rfl⟩
  · obtain ⟨rfl, hLast⟩ := List.append_inj' hSplit rfl
    cases hLast
    exact ⟨hSame, hMoved⟩
  · rw [List.concat_eq_append, ← List.cons_append, ← List.append_assoc] at hSplit
    exact h before other middle (List.append_inj' hSplit rfl).1

/-- The window that stands, by the models of the turns so far. -/
def Stands (suits : Option Bytes → Int → Prop) (seeded : Option Bytes) (first : Int)
    (models : List (Option Bytes)) (model : Option Bytes) (window : Int) : Prop :=
  ((∀ m ∈ models, m = seeded) → model = seeded ∧ window = first) ∧
    ((∃ m ∈ models, m ≠ seeded) → suits model window)

theorem Stands.same {models : List (Option Bytes)}
    (h : Stands suits seeded first models model window) :
    Stands suits seeded first (models ++ [model]) model window := by
  refine ⟨fun hAll => ?_, fun ⟨m, hMem, hNe⟩ => ?_⟩
  · exact h.1 fun m hMem => hAll m (List.mem_append_left _ hMem)
  · by_cases hOld : ∀ m ∈ models, m = seeded
    · obtain rfl := (h.1 hOld).1
      rcases List.mem_append.mp hMem with hMem | hMem
      · exact absurd (hOld m hMem) hNe
      · exact absurd (List.mem_singleton.mp hMem) hNe
    · simp only [not_forall] at hOld
      obtain ⟨m, hMem, hNe⟩ := hOld
      exact h.2 ⟨m, hMem, hNe⟩

theorem Stands.changed {models : List (Option Bytes)} {next : Option Bytes} {window' : Int}
    (h : Stands suits seeded first models model window) (hNext : next ≠ model)
    (hSuits : suits' next window') :
    Stands suits' seeded first (models ++ [next]) next window' := by
  refine ⟨fun hAll => ?_, fun _ => hSuits⟩
  have hModel := (h.1 fun m hMem => hAll m (List.mem_append_left _ hMem)).1
  have hSeeded := hAll next (List.mem_append_right _ (List.mem_singleton_self next))
  exact absurd (hSeeded.trans hModel.symm) hNext

theorem Windowed.extend (h : Windowed suits seeded first turns) (text : Bytes)
    (hStands : Stands suits seeded first (turns.map ReplTurn.model ++ [model]) model window) :
    Windowed suits seeded first (turns ++ [⟨text, model, window⟩]) := by
  have hModels : turns.map ReplTurn.model ++ [model] =
      (turns ++ [ReplTurn.mk text model window]).map ReplTurn.model := by
    rw [List.map_append]
    rfl
  rw [hModels] at hStands
  refine h.snoc (fun hAll => ?_) fun ⟨t, hMem, hNe⟩ => ?_
  · exact (hStands.1 (List.forall_mem_map.mpr hAll)).2
  · exact hStands.2 ⟨t.model, List.mem_map_of_mem hMem, hNe⟩

def Catalog.Allows (catalog : Catalog) (model : Option Bytes) (window : Int) : Prop :=
  window = 0 ∨ window = catalog.window model

/-- What the loop keeps while the windows come from the catalog. -/
structure Coherent (seeded : Option Bytes) (first : Int) (r : ReplState) : Prop where
  empty : r.catalog.fetched = false → r.catalog.entries = []
  stands : Stands (Catalog.Allows r.catalog) seeded first (r.turns.map ReplTurn.model) r.ctxModel
    r.window
  turns : Windowed (Catalog.Allows r.catalog) seeded first r.turns
  asked : true ∉ r.asked.dropLast
  unasked : r.catalog.fetched = false → true ∉ r.asked

theorem window_empty (h : catalog.entries = []) (model : Option Bytes) :
    catalog.window model = 0 := by
  rw [Catalog.window, h]
  rfl

theorem Catalog.Allows.of_empty {next : Catalog} (h : Catalog.Allows catalog model window)
    (hEmpty : catalog.entries = []) : Catalog.Allows next model window := by
  rcases h with hZero | hWindow
  · exact .inl hZero
  · exact .inl (hWindow.trans (window_empty hEmpty model))

structure Begins (suits : Catalog → Option Bytes → Int → Prop) (seeded : Option Bytes) (first : Int)
    (r : ReplState) (model : Option Bytes) (next : ReplState) : Prop where
  model_eq : next.ctxModel = model
  turns_eq : next.turns = r.turns
  stands : Stands (suits next.catalog) seeded first (r.turns.map ReplTurn.model ++ [model]) model
    next.window
  turns : Windowed (suits next.catalog) seeded first r.turns

theorem refetch_coherent (h : Coherent seeded first r) (model : Option Bytes) (k : Nat) :
    let next := refetch w false model k r
    Begins Catalog.Allows seeded first r model next ∧
      (next.catalog.fetched = false → next.catalog.entries = []) ∧ true ∉ next.asked.dropLast ∧
      (next.catalog.fetched = false → true ∉ next.asked) := by
  have hLast : r.catalog.fetched = false → ∀ b, true ∉ (r.asked ++ [b]).dropLast := by
    intro hNew b
    rw [List.dropLast_concat]
    exact h.unasked hNew
  dsimp only
  rw [refetch]
  split
  · rename_i hChange
    have hLook : LooksUp w.lib r.catalog model
        (modelsContextLength w.lib r.catalog model (w.answer k)) := modelsContextLength_cases
    generalize modelsContextLength w.lib r.catalog model (w.answer k) = answer at hLook
    cases hLook with
    | known _ =>
      exact ⟨⟨rfl, rfl, h.stands.changed hChange.2 (.inr rfl), h.turns⟩, h.empty, h.asked,
        h.unasked⟩
    | filled hNew body =>
      have hFetched : (modelsCachePopulate w.lib body).fetched = true := populate_fetched body
      have hNever : (modelsCachePopulate w.lib body).fetched ≠ false :=
        fun hOld => Bool.false_ne_true (hOld.symm.trans hFetched)
      refine ⟨⟨rfl, rfl, h.stands.changed hChange.2 (.inr rfl), ?_⟩,
        fun hOld => absurd hOld hNever, hLast hNew _, fun hOld => absurd hOld hNever⟩
      exact h.turns.mono fun _ _ hAllows => hAllows.of_empty (h.empty hNew)
    | failed hNew hZero =>
      refine ⟨⟨rfl, rfl, h.stands.changed hChange.2 (.inl rfl), h.turns⟩, h.empty, hLast hNew _, ?_⟩
      intro _ hMem
      rcases List.mem_append.mp hMem with hOld | hHere
      · exact h.unasked hNew hOld
      · rw [hNew] at hHere
        cases List.mem_singleton.mp hHere
  · rename_i hSame
    have hModel : r.ctxModel = model := by
      by_contra hNe
      exact hSame ⟨rfl, Ne.symm hNe⟩
    subst hModel
    exact ⟨⟨rfl, rfl, h.stands.same, h.turns⟩, h.empty, h.asked, h.unasked⟩

theorem replPrompt_coherent (h : Coherent seeded first r) (line : Bytes) :
    Coherent seeded first (replPrompt w cliModel false r line).1 := by
  rw [replPrompt]
  dsimp only
  split
  · exact ⟨h.empty, h.stands, h.turns, h.asked, h.unasked⟩
  · rename_i text _
    have hState : Coherent seeded first { r with
        options := (luaAutocmdUserPromptPre w.lua (w.checkStack r.given.length)
          (w.hooks r.given.length) r.options line).state
        given := r.given ++ [line] } := ⟨h.empty, h.stands, h.turns, h.asked, h.unasked⟩
    obtain ⟨hBegins, hEmpty, hAsked, hUnasked⟩ := refetch_coherent (w := w) hState
      (turnModel cliModel (luaAutocmdUserPromptPre w.lua (w.checkStack r.given.length)
          (w.hooks r.given.length) r.options line).state) r.given.length
    refine ⟨hEmpty, ?_, ?_, hAsked, hUnasked⟩
    · rw [List.map_append, hBegins.turns_eq, hBegins.model_eq]
      exact hBegins.stands
    · rw [hBegins.turns_eq]
      exact hBegins.turns.extend text hBegins.stands

theorem runRepl_keeps (P : ReplState → Prop)
    (hStep : ∀ r line, P r → P (replPrompt w cliModel locked r line).1)
    (hOptions : ∀ r options, P r → P { r with options }) (h : P r) (input : Bytes) :
    P (runRepl w cliModel locked r input).1 := by
  have hNext : ∀ {r line next turn}, replPrompt w cliModel locked r line = (next, turn) → P r →
      P next := by
    intro r line next turn hPrompt hr
    have hKept := hStep r line hr
    rwa [hPrompt] at hKept
  fun_induction runRepl w cliModel locked r input with
  | case1 r input hLine => exact h
  | case2 r input rest hLine ih => exact ih h
  | case3 r input line rest hLine hQuits => exact h
  | case4 r input line rest hLine hQuits r' hPrompt ih => exact ih (hNext hPrompt h)
  | case5 r input line rest hLine hQuits r' turn hPrompt next hStop =>
    exact hOptions _ _ (hNext hPrompt h)
  | case6 r input line rest hLine hQuits r' turn hPrompt next hStop ih =>
    exact ih (hOptions _ _ (hNext hPrompt h))

structure Filled (seeded : Option Bytes) (first : Int) (catalog : Catalog) (r : ReplState) :
    Prop where
  catalog_eq : r.catalog = catalog
  stands : Stands (fun model window => window = catalog.window model) seeded first
    (r.turns.map ReplTurn.model) r.ctxModel r.window
  turns : Windowed (fun model window => window = catalog.window model) seeded first r.turns

theorem refetch_filled (hFetched : catalog.fetched = true)
    (h : Filled seeded first catalog r) (model : Option Bytes) (k : Nat) :
    (refetch w false model k r).catalog = catalog ∧
      Begins (fun _ model window => window = catalog.window model) seeded first r model
        (refetch w false model k r) := by
  have hNever : r.catalog.fetched ≠ false := by
    rw [h.catalog_eq, hFetched]
    exact Bool.false_ne_true.symm
  rw [refetch]
  split
  · rename_i hChange
    have hLook : LooksUp w.lib r.catalog model
        (modelsContextLength w.lib r.catalog model (w.answer k)) := modelsContextLength_cases
    generalize modelsContextLength w.lib r.catalog model (w.answer k) = answer at hLook
    cases hLook with
    | known _ =>
      refine ⟨h.catalog_eq, rfl, rfl, h.stands.changed hChange.2 ?_, h.turns⟩
      exact congrArg (fun c => Catalog.window c model) h.catalog_eq
    | filled hNew body => exact absurd hNew hNever
    | failed hNew hZero => exact absurd hNew hNever
  · rename_i hSame
    have hModel : r.ctxModel = model := by
      by_contra hNe
      exact hSame ⟨rfl, Ne.symm hNe⟩
    subst hModel
    exact ⟨h.catalog_eq, rfl, rfl, h.stands.same, h.turns⟩

theorem replPrompt_filled (hFetched : catalog.fetched = true)
    (h : Filled seeded first catalog r) (line : Bytes) :
    Filled seeded first catalog (replPrompt w cliModel false r line).1 := by
  rw [replPrompt]
  dsimp only
  split
  · exact ⟨h.catalog_eq, h.stands, h.turns⟩
  · rename_i text _
    have hState : Filled seeded first catalog { r with
        options := (luaAutocmdUserPromptPre w.lua (w.checkStack r.given.length)
          (w.hooks r.given.length) r.options line).state
        given := r.given ++ [line] } := ⟨h.catalog_eq, h.stands, h.turns⟩
    obtain ⟨hCatalog, hBegins⟩ := refetch_filled (w := w) hFetched hState
      (turnModel cliModel (luaAutocmdUserPromptPre w.lua (w.checkStack r.given.length)
          (w.hooks r.given.length) r.options line).state) r.given.length
    refine ⟨hCatalog, ?_, ?_⟩
    · rw [List.map_append, hBegins.turns_eq, hBegins.model_eq]
      exact hBegins.stands
    · rw [hBegins.turns_eq]
      exact hBegins.turns.extend text hBegins.stands

structure Fixed (window : Int) (r : ReplState) : Prop where
  current : r.window = window
  turns : ∀ turn ∈ r.turns, turn.window = window
  asked : r.asked = []

theorem replPrompt_fixed (h : Fixed window r) (line : Bytes) :
    Fixed window (replPrompt w cliModel true r line).1 := by
  rw [replPrompt]
  dsimp only
  split
  · exact ⟨h.current, h.turns, h.asked⟩
  · rw [refetch, if_neg (fun hBoth => Bool.false_ne_true hBoth.1.symm)]
    refine ⟨h.current, fun turn hTurn => ?_, h.asked⟩
    rcases List.mem_append.mp hTurn with hOld | hNew
    · exact h.turns turn hOld
    · obtain rfl := List.mem_singleton.mp hNew
      exact h.current

theorem stands_nil : Stands suits seeded first [] seeded first :=
  ⟨fun _ => ⟨rfl, rfl⟩, fun ⟨_, hMem, _⟩ => absurd hMem List.not_mem_nil⟩

/-- The start: the window of the model at that time, in the catalog if it came. -/
theorem startRepl_coherent (w : ReplWorld) (cliModel : Option Bytes)
    (answer : Option (List FetchEvent)) (sessionStart : OptionStore → OptionStore)
    (options : OptionStore) :
    let start := startRepl w cliModel none answer sessionStart options
    let seeded := turnModel cliModel (sessionStart options)
    Coherent seeded start.window start ∧ Filled seeded start.window start.catalog start ∧
      (start.catalog.fetched = true →
        start.window = start.catalog.window (turnModel cliModel options)) ∧
      (start.catalog.fetched = false → start.window = 0) := by
  intro start seeded
  have hStart : start = startRepl w cliModel none answer sessionStart options := rfl
  rw [startRepl] at hStart
  have hLook : LooksUp w.lib {} (turnModel cliModel options)
      (modelsContextLength w.lib {} (turnModel cliModel options) answer) := modelsContextLength_cases
  generalize modelsContextLength w.lib {} (turnModel cliModel options) answer = found at hLook hStart
  cases hLook with
  | known hKnown =>
    rcases hKnown with hKnown | hKnown
    · cases hKnown
    · exact absurd rfl hKnown
  | filled hNew body =>
    have hFetched : (modelsCachePopulate w.lib body).fetched = true := populate_fetched body
    have hNever : (modelsCachePopulate w.lib body).fetched ≠ false :=
      fun hOld => Bool.false_ne_true (hOld.symm.trans hFetched)
    rw [hStart]
    exact ⟨⟨fun hOld => absurd hOld hNever, stands_nil, windowed_nil, List.not_mem_nil,
        fun hOld => absurd hOld hNever⟩, ⟨rfl, stands_nil, windowed_nil⟩, fun _ => rfl,
      fun hOld => absurd hOld hNever⟩
  | failed hNew hZero =>
    rw [hStart]
    refine ⟨⟨fun _ => rfl, stands_nil, windowed_nil, List.not_mem_nil, ?_⟩,
      ⟨rfl, stands_nil, windowed_nil⟩, fun _ => hZero.symm, fun _ => rfl⟩
    intro _ hMem
    cases List.mem_singleton.mp hMem

end Windows

/-- The windows of a whole run from its start. With a window from the environment every turn has it,
and the catalog is not asked for. Otherwise no catalog is asked for after one has come. The turns
have the window of the start as long as their model is the one that the SessionStart hooks left; it
is the window of the model they found. From the first turn on another model on, every turn has no
window or that of the catalog for its model; where the catalog came at the start it is kept, and
none is without. -/
theorem runRepl_windows (w : ReplWorld) (cliModel : Option Bytes) (env : Option Int)
    (answer : Option (List FetchEvent)) (sessionStart : OptionStore → OptionStore)
    (options : OptionStore) (input : Bytes) :
    let start := startRepl w cliModel env answer sessionStart options
    let r := (runRepl w cliModel env.isSome start input).1
    let seeded := turnModel cliModel (sessionStart options)
    (∀ window, env = some window → r.asked = [] ∧ ∀ turn ∈ r.turns, turn.window = window) ∧
      (env = none → true ∉ r.asked.dropLast ∧
        Windowed (Catalog.Allows r.catalog) seeded start.window r.turns ∧
        (start.catalog.fetched = false → start.window = 0) ∧
        (start.catalog.fetched = true → r.catalog = start.catalog ∧
          start.window = start.catalog.window (turnModel cliModel options) ∧
          Windowed (fun model window => window = start.catalog.window model) seeded start.window
            r.turns)) := by
  intro start r seeded
  constructor
  · rintro window rfl
    have hStart : Fixed window start := by
      refine ⟨rfl, fun turn hTurn => ?_, rfl⟩
      cases hTurn
    have hEnd : Fixed window r := runRepl_keeps (Fixed window)
      (fun r line h => replPrompt_fixed h line) (fun r options h => ⟨h.current, h.turns, h.asked⟩)
      hStart input
    exact ⟨hEnd.asked, hEnd.turns⟩
  · rintro rfl
    obtain ⟨hStart, hFilled, hFirst, hNone⟩ :=
      startRepl_coherent w cliModel answer sessionStart options
    have hEnd : Coherent seeded start.window r := runRepl_keeps (Coherent seeded start.window)
      (fun r line h => replPrompt_coherent h line)
      (fun r options h => ⟨h.empty, h.stands, h.turns, h.asked, h.unasked⟩) hStart input
    refine ⟨hEnd.asked, hEnd.turns, hNone, fun hFetched => ?_⟩
    have hEnd : Filled seeded start.window start.catalog r :=
      runRepl_keeps (Filled seeded start.window start.catalog)
        (fun r line h => replPrompt_filled hFetched h line)
        (fun r options h => ⟨h.catalog_eq, h.stands, h.turns⟩) hFilled input
    exact ⟨hEnd.catalog_eq, hFirst hFetched, hEnd.turns⟩

/-! A catalog of two models. The hooks of SessionStart change the one to the other, and back in the
second turn. -/

def onModel (model : Bytes) : OptionStore :=
  OptionStore.empty.put .model (.string model) rfl trivial

def catalogText : Bytes :=
  ascii "\x7b\"data\":[\x7b\"id\":\"a\",\"context_length\":100\x7d," ++
    ascii "\x7b\"id\":\"b\",\"context_length\":200\x7d]\x7d"

def catalogItem (id : Bytes) (window : Int) : CJson :=
  .object [(ascii "id", .string id), (ascii "context_length", .number (.ofInt window))]

def catalogLib : JsonLib where
  parse text :=
    if text = catalogText then
      .ok (.object [(ascii "data",
        .array [catalogItem (ascii "a") 100, catalogItem (ascii "b") 200])], text.length)
    else .error 0
  print _ := []
  castOutside _ := 0

def catalogWorld : ReplWorld where
  lua := plainLua
  lib := catalogLib
  checkStack _ := true
  hooks k :=
    [fun _ payload => (some .nil, payload, onModel (if k = 1 then ascii "a" else ascii "b"))]
  answer _ := none
  turn _ options := .ended ⟨options, kExitOk, false⟩

def catalogAnswer : List FetchEvent := [.status 200, .chunk catalogText, .complete true 200]

theorem runRepl_windows_sample :
    let start := startRepl catalogWorld none none (some catalogAnswer)
      (fun _ => onModel (ascii "b")) (onModel (ascii "a"))
    start.window = 100 ∧ start.catalog.window (some (ascii "b")) = 200 ∧
      Windowed (fun model window => window = start.catalog.window model) (some (ascii "b"))
        start.window (runRepl catalogWorld none false start (ascii "x\ny\nz\n")).1.turns := by
  intro start
  obtain ⟨-, -, -, hKept⟩ := (runRepl_windows catalogWorld none none (some catalogAnswer)
    (fun _ => onModel (ascii "b")) (onModel (ascii "a")) (ascii "x\ny\nz\n")).2 rfl
  have hFetched : start.catalog.fetched = true := by decide +kernel
  obtain ⟨-, hFirst, hTurns⟩ := hKept hFetched
  refine ⟨hFirst.trans ?_, ?_, hTurns⟩
  · decide +kernel
  · decide +kernel

end Mua.Repl
