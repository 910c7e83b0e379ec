import Mua.OpenrouterSpec

/-! # What the stream's `on_done` hands over

`Reference` says what the message of a list of stream events is, from the
events alone: texts in arrival order, and for each named slot the first
non-empty id and name and the concatenated arguments. The accumulators hold
exactly that after any number of events, or the stream has reported an error.
-/

namespace Mua.Openrouter

open Sse

variable (lib : JsonLib) (cancels : CancelsInText)

namespace Reference

/-- How the bytes of a JSON string are read: `cstr` is the reading of the code. -/
abbrev Reading := Bytes → Bytes

variable (read : Reading)

def text (obj : CJson) (key : Bytes) : Bytes := ((jsonGetString obj key).map read).getD []

structure Fragment where
  index : Fin maxToolCalls
  id : Bytes
  name : Bytes
  args : Bytes

def functionOf (item : CJson) : CJson := (jsonGetObj item (ascii "function")).getD .null

def fragment (item : CJson) (index : Fin maxToolCalls) : Fragment where
  index := index
  id := text read item (ascii "id")
  name := text read (functionOf item) (ascii "name")
  args := text read (functionOf item) (ascii "arguments")

def delta? (doc : CJson) : Option CJson :=
  (firstChoice doc).bind fun choice => jsonGetObj choice (ascii "delta")

def textOfDelta : Option CJson → List Bytes
  | some delta => [text read delta (ascii "content")].filter (· ≠ [])
  | none => []

def itemsOfDelta (delta : Option CJson) : List CJson :=
  match delta.bind fun d => jsonGetArr d (ascii "tool_calls") with
  | some calls => calls.children
  | none => []

def textOf (doc : CJson) : List Bytes := textOfDelta read (delta? doc)

def itemsOf (doc : CJson) : List CJson := itemsOfDelta (delta? doc)

def fragmentsOf (items : List CJson) : List Fragment :=
  items.filterMap fun item => (itemIndex lib item).map (fragment read item)

def texts (docs : List CJson) : List Bytes := docs.flatMap (textOf read)

def fragments (docs : List CJson) : List Fragment :=
  docs.flatMap fun doc => fragmentsOf lib read (itemsOf doc)

/-! What the fragments of one slot add up to. -/

def ofSlot (frags : List Fragment) (i : Fin maxToolCalls) : List Fragment :=
  frags.filter fun f => f.index = i

def named (frags : List Fragment) (i : Fin maxToolCalls) : Bool := !(ofSlot frags i).isEmpty

def firstNonEmpty (values : List Bytes) : Bytes := (values.find? (· ≠ [])).getD []

def idOf (frags : List Fragment) (i : Fin maxToolCalls) : Bytes :=
  firstNonEmpty ((ofSlot frags i).map Fragment.id)

def nameOf (frags : List Fragment) (i : Fin maxToolCalls) : Bytes :=
  firstNonEmpty ((ofSlot frags i).map Fragment.name)

def argsOf (frags : List Fragment) (i : Fin maxToolCalls) : Bytes :=
  (ofSlot frags i).flatMap Fragment.args

def toolCall (frags : List Fragment) (i : Fin maxToolCalls) : CJson :=
  .object [(ascii "id", .string (idOf frags i)), (ascii "type", .string (ascii "function")),
    (ascii "function", .object [(ascii "name", .string (nameOf frags i)),
      (ascii "arguments", .string (argsOf frags i))])]

def content (texts : List Bytes) : CJson := if texts = [] then .null else .string texts.flatten

def toolCalls (frags : List Fragment) : List CJson :=
  ((List.finRange maxToolCalls).filter (named frags)).map (toolCall frags)

def message (docs : List CJson) : CJson :=
  let frags := fragments lib read docs
  .object ([(ascii "role", .string (ascii "assistant")), (ascii "content", content (texts read docs))] ++
    if toolCalls frags = [] then [] else [(ascii "tool_calls", .array (toolCalls frags))])

structure WithinCaps (docs : List CJson) : Prop where
  content : (texts read docs).flatten.length ≤ kOrContentCap
  id : ∀ i, (idOf (fragments lib read docs) i).length < kOrToolIdCap
  name : ∀ i, (nameOf (fragments lib read docs) i).length < kOrToolNameCap
  args : ∀ i, (argsOf (fragments lib read docs) i).length ≤ kOrToolArgsCap

def docs (events : List Bytes) : List CJson :=
  (events.takeWhile (· ≠ ascii "[DONE]")).filterMap fun data =>
    (jsonParse lib data kOrEventJsonCap).toOption

end Reference

def handleEvents (stream : OpenrouterStream) (events : List Bytes) : OpenrouterStream :=
  events.foldl (fun stream data => (handleEvent lib cancels stream data).1) stream

@[simp] theorem handleEvents_nil (stream : OpenrouterStream) :
    handleEvents lib cancels stream [] = stream := rfl

@[simp] theorem handleEvents_cons (stream : OpenrouterStream) (data : Bytes) (events : List Bytes) :
    handleEvents lib cancels stream (data :: events) =
      handleEvents lib cancels (handleEvent lib cancels stream data).1 events := rfl

theorem handleEvents_append (stream : OpenrouterStream) (events more : List Bytes) :
    handleEvents lib cancels stream (events ++ more) =
      handleEvents lib cancels (handleEvents lib cancels stream events) more :=
  List.foldl_append

def onTexts (out : List OrOutput) : List Bytes :=
  out.filterMap fun o => match o with
    | .onText text => some text
    | _ => none

section Fragments

open Reference

variable {lib : JsonLib} {s s' : OpenrouterStream} {frags : List Fragment}

theorem firstNonEmpty_concat (values : List Bytes) (v : Bytes) :
    firstNonEmpty (values ++ [v]) = if firstNonEmpty values = [] then v else firstNonEmpty values := by
  unfold firstNonEmpty
  rw [List.find?_append]
  cases hFind : values.find? (· ≠ []) with
  | some w =>
    have hw : w ≠ [] := by simpa using List.find?_some hFind
    simp [hw]
  | none =>
    by_cases hv : v = []
    · simp [hv]
    · simp [hv]

theorem jsonGetText_eq (obj : CJson) (key : Bytes) :
    jsonGetText obj key = if text cstr obj key = [] then none else some (text cstr obj key) := by
  unfold jsonGetText text jsonGetCstr
  cases (jsonGetString obj key).map cstr with
  | none => rfl
  | some w =>
    by_cases hw : w = []
    · simp [hw]
    · simp [hw]

theorem nulFree_text (obj : CJson) (key : Bytes) : NulFree (text cstr obj key) := by
  unfold text
  cases jsonGetString obj key with
  | none => exact nulFree_nil
  | some raw => exact nulFree_cstr raw

theorem latch_data {cap : Nat} {slot slot' : FixedStr cap} {obj : CJson} {key : Bytes}
    (h : latch slot (jsonGetText obj key) = some slot') :
    slot'.data = if slot.data = [] then text cstr obj key else slot.data := by
  rw [jsonGetText_eq] at h
  by_cases hText : text cstr obj key = []
  · rw [if_pos hText] at h
    rw [← Option.some.inj h, hText]
    split
    · assumption
    · rfl
  · rw [if_neg hText] at h
    simp only [latch] at h
    split at h
    · rename_i hSlot
      rw [if_pos hSlot]
      unfold FixedStr.copy? at h
      split at h
      · rw [← Option.some.inj h]
        exact cstr_of_nulFree (nulFree_text obj key)
      · cases h
    · rename_i hSlot
      rw [if_neg hSlot, Option.some.inj h]

/-- A call takes up an id, a name and arguments; empty ones leave it as it is. -/
structure CallTakes (call call' : OrToolCall) (id name args : Bytes) : Prop where
  present : call'.present = call.present
  id : call'.id.data = if call.id.data = [] then id else call.id.data
  name : call'.name.data = if call.name.data = [] then name else call.name.data
  args : call'.args.data = call.args.data ++ args

theorem latch_eq_self {cap : Nat} {slot : FixedStr cap} :
    slot.data = if slot.data = [] then [] else slot.data := by
  split
  · assumption
  · rfl

theorem accumulateFunction_takes {i : Fin maxToolCalls} {function : CJson}
    (h : accumulateFunction s i function = (s', true)) :
    ∃ call', CallTakes (s.toolCalls i) call' [] (text cstr function (ascii "name"))
      (text cstr function (ascii "arguments")) ∧ s' = s.setCall i call' := by
  unfold accumulateFunction at h
  split at h
  · cases h
  · rename_i name hName
    have hName := latch_data hName
    simp only [setCall_toolCalls_self, setCall_setCall, jsonGetText_eq] at h
    by_cases hArgs : text cstr function (ascii "arguments") = []
    · simp only [hArgs, if_true] at h
      cases h
      exact ⟨{ s.toolCalls i with name := name },
        ⟨rfl, latch_eq_self, hName, by rw [hArgs, List.append_nil]⟩, rfl⟩
    · simp only [hArgs, if_false] at h
      split at h
      · cases h
      · rename_i buf hBuf
        rw [bufAppend_eq_some] at hBuf
        cases h
        exact ⟨{ s.toolCalls i with name := name, args := buf },
          ⟨rfl, latch_eq_self, hName, hBuf⟩, rfl⟩

theorem accumulateFragment_takes {i : Fin maxToolCalls} {item : CJson}
    (h : accumulateFragment s i item = (s', true)) :
    ∃ call', CallTakes { s.toolCalls i with present := true } call' (text cstr item (ascii "id"))
      (text cstr (functionOf item) (ascii "name")) (text cstr (functionOf item) (ascii "arguments")) ∧
      s' = (s.touch i).setCall i call' := by
  unfold accumulateFragment at h
  dsimp only at h
  rw [touch_toolCalls_self] at h
  split at h
  · cases h
  · rename_i id hId
    have hId := latch_data hId
    unfold functionOf
    split at h
    · rename_i hFunction
      cases h
      rw [hFunction]
      exact ⟨{ s.toolCalls i with present := true, id := id },
        ⟨rfl, hId, latch_eq_self, (List.append_nil _).symm⟩, rfl⟩
    · rename_i function hFunction
      rw [hFunction]
      obtain ⟨call', hTakes, rfl⟩ := accumulateFunction_takes h
      rw [setCall_toolCalls_self] at hTakes
      rw [setCall_setCall]
      refine ⟨call', ⟨hTakes.present, ?_, hTakes.name, hTakes.args⟩, rfl⟩
      rw [hTakes.id, ← latch_eq_self]
      exact hId

structure Matches (s : OpenrouterStream) (frags : List Fragment) : Prop where
  present : ∀ i, (s.toolCalls i).present = named frags i
  id : ∀ i, (s.toolCalls i).id.data = idOf frags i
  name : ∀ i, (s.toolCalls i).name.data = nameOf frags i
  args : ∀ i, (s.toolCalls i).args.data = argsOf frags i
  hwm : ∀ i, named frags i = true → i.val < s.toolCallsHwm

theorem ofSlot_concat (frags : List Fragment) (f : Fragment) (i : Fin maxToolCalls) :
    ofSlot (frags ++ [f]) i = ofSlot frags i ++ if f.index = i then [f] else [] := by
  unfold ofSlot
  rw [List.filter_append]
  by_cases h : f.index = i
  · simp [h]
  · simp [h]

theorem accumulateFragment_matches {i : Fin maxToolCalls} {item : CJson} (hM : Matches s frags)
    (h : accumulateFragment s i item = (s', true)) :
    Matches s' (frags ++ [fragment cstr item i]) := by
  obtain ⟨call', hTakes, rfl⟩ := accumulateFragment_takes h
  have hOther : ∀ j, j ≠ i → ofSlot (frags ++ [fragment cstr item i]) j = ofSlot frags j := by
    intro j hj
    rw [ofSlot_concat, if_neg (show (fragment cstr item i).index ≠ j from Ne.symm hj),
      List.append_nil]
  have hSelf : ofSlot (frags ++ [fragment cstr item i]) i =
      ofSlot frags i ++ [fragment cstr item i] := by
    rw [ofSlot_concat, if_pos (show (fragment cstr item i).index = i from rfl)]
  have hCalls : ∀ j, j ≠ i → ((s.touch i).setCall i call').toolCalls j = s.toolCalls j := by
    intro j hj
    rw [setCall_toolCalls_of_ne hj, touch_toolCalls_of_ne hj]
  constructor
  case present =>
    intro j
    by_cases hj : j = i
    · subst hj
      rw [setCall_toolCalls_self, hTakes.present, named, hSelf]
      simp
    · rw [hCalls j hj, hM.present, named, named, hOther j hj]
  case id =>
    intro j
    by_cases hj : j = i
    · subst hj
      rw [setCall_toolCalls_self, hTakes.id, idOf, hSelf, List.map_append, List.map_singleton,
        firstNonEmpty_concat, ← idOf, hM.id]
      rfl
    · rw [hCalls j hj, hM.id, idOf, idOf, hOther j hj]
  case name =>
    intro j
    by_cases hj : j = i
    · subst hj
      rw [setCall_toolCalls_self, hTakes.name, nameOf, hSelf, List.map_append, List.map_singleton,
        firstNonEmpty_concat, ← nameOf, hM.name]
      rfl
    · rw [hCalls j hj, hM.name, nameOf, nameOf, hOther j hj]
  case args =>
    intro j
    by_cases hj : j = i
    · subst hj
      rw [setCall_toolCalls_self, hTakes.args, argsOf, hSelf, List.flatMap_append, ← argsOf, hM.args]
      simp [fragment]
    · rw [hCalls j hj, hM.args, argsOf, argsOf, hOther j hj]
  case hwm =>
    intro j hj
    show j.val < max s.toolCallsHwm (i.val + 1)
    by_cases hji : j = i
    · subst hji
      exact (Nat.lt_succ_self _).trans_le (Nat.le_max_right _ _)
    · rw [named, hOther j hji, ← named] at hj
      exact (hM.hwm j hj).trans_le (Nat.le_max_left _ _)

theorem accumulateToolCalls_matches {lib : JsonLib} {count : Nat} {items : List CJson}
    (hM : Matches s frags) (h : accumulateToolCalls lib s count items = (s', true)) :
    Matches s' (frags ++ fragmentsOf lib cstr items) := by
  induction items generalizing s count frags with
  | nil =>
    cases h
    simpa [fragmentsOf] using hM
  | cons item items ih =>
    rw [accumulateToolCalls] at h
    split at h
    · cases h
    · split at h
      · cases h
      · rename_i index hIndex
        split at h
        · rename_i mid hItem
          have := ih (accumulateFragment_matches hM hItem) h
          simpa [fragmentsOf, List.filterMap_cons, hIndex] using this
        · cases h

end Fragments

section Undone

variable {lib : JsonLib} {cancels : CancelsInText} {s s' : OpenrouterStream}

/-- No message was handed over, and a finished stream has reported an error. -/
structure Undone (s : OpenrouterStream) : Prop where
  noDone : ∀ message reason usage, .onDone message reason usage ∉ s.out
  error : s.finished = true → ∃ err, .onError err ∈ s.out

theorem Emits.undone (hEmits : Emits s s') (h : Undone s) : Undone s' := by
  induction hEmits with
  | silent hSame =>
    refine ⟨?_, ?_⟩
    · rw [hSame.out]
      exact h.noDone
    · rw [hSame.out, hSame.finished]
      exact h.error
  | text t hLive =>
    refine ⟨fun m r u => ?_, fun hFinished => absurd (hLive.symm.trans hFinished) nofun⟩
    simpa using h.noDone m r u
  | error err hLive =>
    refine ⟨fun m r u => ?_, fun _ => ⟨err, by simp [fireError]⟩⟩
    simpa [fireError] using h.noDone m r u
  | canceled hLive hReq =>
    refine ⟨fun m r u => ?_, fun _ => ⟨⟨.exception, ascii "canceled"⟩, ?_⟩⟩
    · simpa [fireError, streamDestroy] using h.noDone m r u
    · simp [fireError, streamDestroy]
  | trans _ _ ih ih' => exact ih' (ih h)

end Undone

section Accumulated

open Reference

variable {lib : JsonLib} {cancels : CancelsInText} {s s' : OpenrouterStream} {docs : List CJson}

theorem fireErrorMsg_finished (s : OpenrouterStream) (type : ErrorType) (msg : Bytes) :
    (fireErrorMsg s type msg).finished = true := by
  unfold fireErrorMsg
  split
  · assumption
  · rfl

/-- The accumulators hold what the reference makes of the parsed events. -/
structure Accumulated (lib : JsonLib) (s : OpenrouterStream) (docs : List CJson) : Prop where
  content : s.content.data = (texts cstr docs).flatten
  slots : Matches s (fragments lib cstr docs)
  payloads : onTexts s.out = texts cstr docs

structure SameAccumulators (s s' : OpenrouterStream) : Prop where
  content : s'.content = s.content
  toolCalls : s'.toolCalls = s.toolCalls
  hwm : s'.toolCallsHwm = s.toolCallsHwm

theorem Matches.congr {frags : List Fragment} (h : Matches s frags)
    (hCalls : s'.toolCalls = s.toolCalls) (hHwm : s'.toolCallsHwm = s.toolCallsHwm) :
    Matches s' frags where
  present := by rw [hCalls]; exact h.present
  id := by rw [hCalls]; exact h.id
  name := by rw [hCalls]; exact h.name
  args := by rw [hCalls]; exact h.args
  hwm := by rw [hHwm]; exact h.hwm

theorem openrouterCancel_live (h : (openrouterCancel s).finished = false) :
    SameAccumulators s (openrouterCancel s) ∧ (openrouterCancel s).out = s.out := by
  unfold openrouterCancel at h ⊢
  dsimp only at h ⊢
  split
  · exact ⟨⟨rfl, rfl, rfl⟩, rfl⟩
  · rename_i hOpen
    rw [if_neg hOpen] at h
    split
    · exact ⟨⟨rfl, rfl, rfl⟩, rfl⟩
    · rename_i hReq
      rw [if_neg hReq, streamDestroy, emit_finished, fireErrorMsg_finished] at h
      cases h

theorem fireText_live {text : Bytes} (h : (fireText cancels s text).finished = false) :
    SameAccumulators s (fireText cancels s text) ∧
      (fireText cancels s text).out = s.out ++ [.onText text] := by
  unfold fireText at h ⊢
  dsimp only at h ⊢
  split
  · rename_i hCancels
    rw [if_pos hCancels] at h
    obtain ⟨hSame, hOut⟩ := openrouterCancel_live h
    exact ⟨⟨hSame.content, hSame.toolCalls, hSame.hwm⟩, hOut⟩
  · exact ⟨⟨rfl, rfl, rfl⟩, rfl⟩

theorem handleContent_live {delta : Option CJson} {ok : Bool}
    (h : handleContent cancels s delta = (s', ok)) (hLive : s'.finished = false) :
    ok = true ∧ s'.toolCalls = s.toolCalls ∧ s'.toolCallsHwm = s.toolCallsHwm ∧
      s'.content.data = s.content.data ++ (textOfDelta cstr delta).flatten ∧
      onTexts s'.out = onTexts s.out ++ textOfDelta cstr delta := by
  unfold handleContent at h
  cases delta with
  | none =>
    cases h
    simp [textOfDelta]
  | some d =>
    rw [Option.bind_some, jsonGetText_eq] at h
    by_cases hText : text cstr d (ascii "content") = []
    · rw [if_pos hText] at h
      cases h
      simp [textOfDelta, hText]
    · rw [if_neg hText] at h
      dsimp only at h
      split at h
      · cases h
        rw [fireErrorMsg_finished] at hLive
        cases hLive
      · rename_i buf hBuf
        rw [bufAppend_eq_some] at hBuf
        cases h
        obtain ⟨hSame, hOut⟩ := fireText_live hLive
        refine ⟨rfl, hSame.toolCalls, hSame.hwm, ?_, ?_⟩
        · rw [hSame.content]
          simpa [textOfDelta, hText] using hBuf
        · rw [hOut]
          simp [textOfDelta, hText, onTexts]

theorem handleCalls_live {delta : Option CJson} {ok : Bool} {frags : List Fragment}
    (hM : Matches s frags) (h : handleCalls lib s delta = (s', ok)) (hLive : s'.finished = false) :
    ok = true ∧ Accumulates s s' ∧
      Matches s' (frags ++ fragmentsOf lib cstr (itemsOfDelta delta)) := by
  have hProceeds := handleCalls_proceeds lib s delta
  rw [h] at hProceeds
  cases hProceeds with
  | reports hA msg =>
    rw [fireErrorMsg_finished] at hLive
    cases hLive
  | goesOn hA =>
    refine ⟨rfl, hA, ?_⟩
    unfold handleCalls at h
    unfold itemsOfDelta
    split at h
    · rename_i hNone
      rw [hNone]
      cases h
      simpa [fragmentsOf] using hM
    · rename_i calls hSome
      rw [hSome]
      exact accumulateToolCalls_matches hM h

theorem texts_concat (docs : List CJson) (doc : CJson) :
    texts cstr (docs ++ [doc]) = texts cstr docs ++ textOf cstr doc := by
  simp [texts]

theorem fragments_concat (docs : List CJson) (doc : CJson) :
    fragments lib cstr (docs ++ [doc]) =
      fragments lib cstr docs ++ fragmentsOf lib cstr (itemsOf doc) := by
  simp [fragments]

theorem Accumulated.congr (h : Accumulated lib s docs) (hSame : SameAccumulators s s')
    (hOut : s'.out = s.out) : Accumulated lib s' docs where
  content := by rw [hSame.content]; exact h.content
  slots := h.slots.congr hSame.toolCalls hSame.hwm
  payloads := by rw [hOut]; exact h.payloads

theorem handleFinish_same (s : OpenrouterStream) (choice : CJson) :
    SameAccumulators s (handleFinish s choice) ∧ (handleFinish s choice).out = s.out ∧
      (handleFinish s choice).finished = s.finished := by
  unfold handleFinish
  split <;> exact ⟨⟨rfl, rfl, rfl⟩, rfl, rfl⟩

theorem handleUsage_same (lib : JsonLib) (s : OpenrouterStream) (doc : CJson) :
    SameAccumulators s (handleUsage lib s doc) ∧ (handleUsage lib s doc).out = s.out ∧
      (handleUsage lib s doc).finished = s.finished := by
  unfold handleUsage
  split <;> exact ⟨⟨rfl, rfl, rfl⟩, rfl, rfl⟩

theorem handleChoice_live {doc choice : CJson} {ok : Bool} (h : Accumulated lib s docs)
    (hChoice : firstChoice doc = some choice)
    (hRun : handleChoice lib cancels s choice = (s', ok)) (hLive : s'.finished = false) :
    ok = true ∧ Accumulated lib s' (docs ++ [doc]) := by
  have hDelta : delta? doc = jsonGetObj choice (ascii "delta") := by
    rw [delta?, hChoice, Option.bind_some]
  unfold handleChoice at hRun
  dsimp only at hRun
  rw [← hDelta] at hRun
  cases hContent : handleContent cancels s (delta? doc) with
  | mk mid ok₁ =>
    cases hCalls : handleCalls lib mid (delta? doc) with
    | mk mid' ok₂ =>
      rw [hContent] at hRun
      cases ok₁ with
      | false =>
        cases hRun
        cases (handleContent_live hContent hLive).1
      | true =>
        dsimp only at hRun
        rw [hCalls] at hRun
        have hEmit := (handleCalls_proceeds lib mid (delta? doc)).emits
        rw [hCalls] at hEmit
        -- a stage that stopped has finished the stream
        have hStages : mid'.finished = false → ok₂ = true ∧ Accumulated lib mid' (docs ++ [doc]) := by
          intro hLive'
          obtain ⟨-, hSlots, hHwm, hText, hPayloads⟩ :=
            handleContent_live hContent (hEmit.live hLive')
          obtain ⟨hOk, hA, hMatches⟩ := handleCalls_live (h.slots.congr hSlots hHwm) hCalls hLive'
          refine ⟨hOk, ?_, ?_, ?_⟩
          · rw [hA.content, hText, h.content, texts_concat, List.flatten_append]
            rfl
          · rw [fragments_concat]
            exact hMatches
          · rw [hA.out, hPayloads, h.payloads, texts_concat]
            rfl
        cases ok₂ with
        | false =>
          cases hRun
          cases (hStages hLive).1
        | true =>
          cases hRun
          obtain ⟨hSame, hOut, hFinished⟩ := handleFinish_same mid' choice
          exact ⟨rfl, (hStages (hFinished.symm.trans hLive)).2.congr hSame hOut⟩

theorem handleDoc_live {doc : CJson} {ok : Bool} (h : Accumulated lib s docs)
    (hRun : handleDoc lib cancels s doc = (s', ok)) (hLive : s'.finished = false) :
    Accumulated lib s' (docs ++ [doc]) := by
  unfold handleDoc at hRun
  split at hRun
  · cases hRun
    cases hLive
  · split at hRun
    · rename_i hNone
      cases hRun
      obtain ⟨hSame, hOut, -⟩ := handleUsage_same lib s doc
      have hDelta : delta? doc = none := by rw [delta?, hNone, Option.bind_none]
      have hMore : Accumulated lib s (docs ++ [doc]) := by
        refine ⟨?_, ?_, ?_⟩
        · rw [texts_concat, textOf, hDelta]
          simpa [textOfDelta] using h.content
        · rw [fragments_concat, itemsOf, hDelta]
          simpa [itemsOfDelta, fragmentsOf] using h.slots
        · rw [texts_concat, textOf, hDelta]
          simpa [textOfDelta] using h.payloads
      exact hMore.congr hSame hOut
    · rename_i choice hChoice
      split at hRun
      · rename_i hStage
        cases hRun
        cases (handleChoice_live h hChoice hStage hLive).1
      · rename_i mid hStage
        cases hRun
        obtain ⟨hSame, hOut, hFinished⟩ := handleUsage_same lib mid doc
        exact (handleChoice_live h hChoice hStage (hFinished.symm.trans hLive)).2.congr hSame hOut

theorem handleEvent_live {data : Bytes} (h : Accumulated lib s docs) (hData : data ≠ ascii "[DONE]")
    (hLive : (handleEvent lib cancels s data).1.finished = false) :
    ∃ doc, jsonParse lib data kOrEventJsonCap = .ok doc ∧
      Accumulated lib (handleEvent lib cancels s data).1 (docs ++ [doc]) := by
  have hOpen : s.finished = false := (handleEvent_emits lib cancels s hData).live hLive
  unfold handleEvent at hLive ⊢
  rw [if_neg (by simp [hOpen]), if_neg hData] at hLive ⊢
  cases hParse : jsonParse lib data kOrEventJsonCap with
  | error err =>
    rw [hParse] at hLive
    dsimp only at hLive
    rw [fireErrorMsg_finished] at hLive
    cases hLive
  | ok doc =>
    rw [hParse] at hLive
    exact ⟨doc, rfl, handleDoc_live h rfl hLive⟩

end Accumulated

section Message

open Reference

variable {lib : JsonLib} {cancels : CancelsInText} {s s' : OpenrouterStream} {docs : List CJson}

theorem handleEvents_emits (lib : JsonLib) (cancels : CancelsInText) (s : OpenrouterStream) {events : List Bytes}
    (hEvents : ∀ data ∈ events, data ≠ ascii "[DONE]") :
    Emits s (handleEvents lib cancels s events) := by
  induction events generalizing s with
  | nil => exact .refl s
  | cons data events ih =>
    have hFirst := handleEvent_emits lib cancels s (hEvents data List.mem_cons_self)
    exact hFirst.trans (ih _ fun d hd => hEvents d (List.mem_cons_of_mem _ hd))

theorem handleEvents_live (cancels : CancelsInText) {events : List Bytes} (h : Accumulated lib s docs)
    (hEvents : ∀ data ∈ events, data ≠ ascii "[DONE]")
    (hLive : (handleEvents lib cancels s events).finished = false) :
    Accumulated lib (handleEvents lib cancels s events)
      (docs ++ events.filterMap fun data => (jsonParse lib data kOrEventJsonCap).toOption) := by
  induction events generalizing s docs with
  | nil => simpa using h
  | cons data events ih =>
    have hRest := fun d hd => hEvents d (List.mem_cons_of_mem data hd)
    have hMid := (handleEvents_emits lib cancels _ hRest).live hLive
    obtain ⟨doc, hParse, hNext⟩ := handleEvent_live h (hEvents data List.mem_cons_self) hMid
    have := ih hNext hRest hLive
    simpa [List.filterMap_cons, hParse, Except.toOption] using this

theorem handleEvents_finished (h : s.finished = true) (events : List Bytes) :
    handleEvents lib cancels s events = s := by
  induction events with
  | nil => rfl
  | cons data events ih =>
    have hFirst : (handleEvent lib cancels s data).1 = s := by
      unfold handleEvent
      rw [if_pos h]
    rw [handleEvents_cons, hFirst, ih]

theorem nulFree_flatten {parts : List Bytes} (h : ∀ part ∈ parts, NulFree part) :
    NulFree parts.flatten := by
  intro hMem
  obtain ⟨part, hPart, h0⟩ := List.mem_flatten.mp hMem
  exact h part hPart h0

theorem mem_textOfDelta {delta : Option CJson} {t : Bytes} (h : t ∈ textOfDelta cstr delta) :
    t ≠ [] ∧ NulFree t := by
  cases delta with
  | none => cases h
  | some d =>
    obtain ⟨hMem, hne⟩ := List.mem_filter.mp h
    cases List.mem_singleton.mp hMem
    exact ⟨by simpa using hne, nulFree_text d _⟩

theorem mem_texts {t : Bytes} (h : t ∈ texts cstr docs) : t ≠ [] ∧ NulFree t := by
  obtain ⟨doc, -, ht⟩ := List.mem_flatMap.mp h
  exact mem_textOfDelta ht

theorem mem_fragments_args {f : Fragment} (h : f ∈ fragments lib cstr docs) : NulFree f.args := by
  obtain ⟨doc, -, hf⟩ := List.mem_flatMap.mp h
  obtain ⟨item, -, hf⟩ := List.mem_filterMap.mp hf
  obtain ⟨index, -, rfl⟩ := Option.map_eq_some_iff.mp hf
  exact nulFree_text _ _

theorem nulFree_argsOf (lib : JsonLib) (docs : List CJson) (i : Fin maxToolCalls) :
    NulFree (argsOf (fragments lib cstr docs) i) := by
  unfold argsOf
  rw [List.flatMap_def]
  apply nulFree_flatten
  intro part hPart
  obtain ⟨f, hf, rfl⟩ := List.mem_map.mp hPart
  exact mem_fragments_args (List.mem_filter.mp hf).1

theorem slots_present (h : Matches s (fragments lib cstr docs)) :
    s.slots.filter (·.present) =
      ((List.finRange maxToolCalls).filter (named (fragments lib cstr docs))).map s.toolCalls := by
  unfold OpenrouterStream.slots
  rw [List.filter_map, List.filter_filter]
  congr 1
  apply List.filter_congr
  intro i _
  rw [Function.comp_apply, h.present]
  cases hNamed : named (fragments lib cstr docs) i with
  | false => rfl
  | true => simpa using h.hwm i hNamed

theorem assembleCall_eq (h : Matches s (fragments lib cstr docs)) (i : Fin maxToolCalls) :
    assembleCall (s.toolCalls i) = toolCall (fragments lib cstr docs) i := by
  have hId : cstr (idOf (fragments lib cstr docs) i) = idOf (fragments lib cstr docs) i :=
    h.id i ▸ cstr_of_nulFree (s.toolCalls i).id.nulFree
  have hName : cstr (nameOf (fragments lib cstr docs) i) = nameOf (fragments lib cstr docs) i :=
    h.name i ▸ cstr_of_nulFree (s.toolCalls i).name.nulFree
  have hArgs := cstr_of_nulFree (nulFree_argsOf lib docs i)
  have hType : cstr (ascii "function") = ascii "function" := by decide
  simp [assembleCall, toolCall, jsonAddCstr, jsonAddStr, jsonNewObj, CJson.addItem, h.id, h.name,
    h.args, hId, hName, hArgs, hType]

/-- The assembled message is the reference's. -/
theorem assembleMessage_eq (h : Accumulated lib s docs) :
    assembleMessage s = message lib cstr docs := by
  have hRole : cstr (ascii "assistant") = ascii "assistant" := by decide
  have hCalls : (s.slots.filter (·.present)).map assembleCall =
      Reference.toolCalls (fragments lib cstr docs) := by
    rw [slots_present h.slots, List.map_map, Reference.toolCalls]
    exact List.map_congr_left fun i _ => assembleCall_eq h.slots i
  have hAny : s.slots.any (·.present) = true ↔ Reference.toolCalls (fragments lib cstr docs) ≠ [] := by
    rw [← hCalls, ne_eq, List.map_eq_nil_iff, List.filter_eq_nil_iff]
    simp
  have hEmpty : s.content.data = [] ↔ texts cstr docs = [] := by
    rw [h.content, List.flatten_eq_nil_iff]
    constructor
    · intro hAll
      by_contra hne
      obtain ⟨t, ht⟩ := List.exists_mem_of_ne_nil _ hne
      exact (mem_texts ht).1 (hAll t ht)
    · intro hNil t ht
      rw [hNil] at ht
      cases ht
  have hContent : cstr s.content.data = (texts cstr docs).flatten := by
    rw [h.content]
    exact cstr_of_nulFree (nulFree_flatten fun t ht => (mem_texts ht).2)
  unfold assembleMessage message
  rw [hCalls]
  by_cases hTexts : texts cstr docs = []
  · have hData := hEmpty.mpr hTexts
    by_cases hNone : Reference.toolCalls (fragments lib cstr docs) = []
    · have hAny : s.slots.any (·.present) = false := by simpa [hNone] using hAny
      simp [jsonAddCstr, jsonNewObj, CJson.addItem, Reference.content, hData, hTexts, hNone, hAny,
        hRole]
    · simp [jsonAddCstr, jsonNewObj, CJson.addItem, Reference.content, hData, hTexts, hNone,
        hAny.mpr hNone, hRole]
  · have hData := mt hEmpty.mp hTexts
    by_cases hNone : Reference.toolCalls (fragments lib cstr docs) = []
    · have hAny : s.slots.any (·.present) = false := by simpa [hNone] using hAny
      simp [jsonAddCstr, jsonAddStr, jsonNewObj, CJson.addItem, Reference.content, hData, hTexts,
        hNone, hAny, hRole, hContent]
    · simp [jsonAddCstr, jsonAddStr, jsonNewObj, CJson.addItem, Reference.content, hData, hTexts,
        hNone, hAny.mpr hNone, hRole, hContent]

theorem Accumulated.withinCaps (h : Accumulated lib s docs) : WithinCaps lib cstr docs where
  content := h.content ▸ s.content.fits
  id i := h.slots.id i ▸ (s.toolCalls i).id.fits
  name i := h.slots.name i ▸ (s.toolCalls i).name.fits
  args i := h.slots.args i ▸ (s.toolCalls i).args.fits

theorem fireDone_undone (h : Undone s) (hIncomplete : s.slots.any OrToolCall.incomplete = true) :
    Undone (fireDone s) := by
  have hDone : fireDone s =
      fireErrorMsg s .exception (ascii "incomplete tool call in stream") := by
    unfold fireDone fireErrorMsg
    rw [if_pos hIncomplete]
    split <;> rfl
  rw [hDone]
  exact (fireErrorMsg_emits _ _ _).undone h

theorem fireDone_finished (s : OpenrouterStream) : (fireDone s).finished = true := by
  unfold fireDone
  split
  · assumption
  · split
    · exact fireErrorMsg_finished _ _ _
    · rfl

theorem fireDone_done (hLive : s.finished = false)
    (hComplete : s.slots.any OrToolCall.incomplete = false) :
    (fireDone s).out = s.out ++ [.onDone (assembleMessage s) s.finishReason.data
      ⟨s.promptTokens, s.completionTokens, s.totalTokens⟩] := by
  unfold fireDone
  rw [if_neg (by simp [hLive]), if_neg (by simp [hComplete])]
  rfl

theorem complete_of_slots (h : Matches s (fragments lib cstr docs))
    (hComplete : s.slots.any OrToolCall.incomplete = false) {i : Fin maxToolCalls}
    (hNamed : named (fragments lib cstr docs) i = true) :
    idOf (fragments lib cstr docs) i ≠ [] ∧ nameOf (fragments lib cstr docs) i ≠ [] := by
  have hMem : s.toolCalls i ∈ s.slots :=
    List.mem_map_of_mem (List.mem_filter.mpr ⟨List.mem_finRange i, by simpa using h.hwm i hNamed⟩)
  have hCall := List.any_eq_false.mp hComplete _ hMem
  rw [OrToolCall.incomplete, h.present, hNamed, h.id, h.name] at hCall
  simpa using hCall

def openTransfer (body : Bytes) (seed : UInt64) : OpenrouterStream :=
  (startAttempt ⟨newStream body seed, sseParserNew orLimits⟩ .started).stream

theorem openTransfer_undone (body : Bytes) (seed : UInt64) : Undone (openTransfer body seed) where
  noDone m r u := by simp [openTransfer, startAttempt, resetAttempt, OpenrouterStream.emit, newStream]
  error h := by cases h

theorem openTransfer_accumulated (lib : JsonLib) (body : Bytes) (seed : UInt64) :
    Accumulated lib (openTransfer body seed) [] where
  content := rfl
  slots := ⟨fun _ => rfl, fun _ => rfl, fun _ => rfl, fun _ => rfl, fun _ h => by cases h⟩
  payloads := rfl

theorem mem_takeWhile_ne {events : List Bytes} {data : Bytes}
    (h : data ∈ events.takeWhile (· ≠ ascii "[DONE]")) : data ≠ ascii "[DONE]" := by
  simpa using List.mem_takeWhile_imp h

/-- What `on_done` hands over under a reading of the strings: the reference message, whose
content is what `on_text` was given, and calls that all have their id and name. -/
def HandsOver (read : Reading) (lib : JsonLib) (events : List Bytes) (out : List OrOutput) : Prop :=
  ∀ message reason usage, .onDone message reason usage ∈ out →
    message = Reference.message lib read (Reference.docs lib events) ∧
    onTexts out = texts read (Reference.docs lib events) ∧
    ∀ i, named (fragments lib read (Reference.docs lib events)) i = true →
      idOf (fragments lib read (Reference.docs lib events)) i ≠ [] ∧
      nameOf (fragments lib read (Reference.docs lib events)) i ≠ []

/-- What happens to events that pass a cap: an error, and no message. -/
def Refuses (out : List OrOutput) : Prop :=
  (∃ err, .onError err ∈ out) ∧ ∀ message reason usage, .onDone message reason usage ∉ out

/-- Either no message was handed over, within the caps or after an error, or a stream that
had accumulated every event before the sentinel handed its message over. -/
theorem handleEvents_ending (lib : JsonLib) (cancels : CancelsInText) (body : Bytes) (seed : UInt64)
    (events : List Bytes) :
    let r := handleEvents lib cancels (openTransfer body seed) events
    (Undone r ∧ (r.finished = true ∨ WithinCaps lib cstr (Reference.docs lib events))) ∨
    ∃ s, Undone s ∧ Accumulated lib s (Reference.docs lib events) ∧
      s.slots.any OrToolCall.incomplete = false ∧
      r.out = s.out ++ [.onDone (assembleMessage s) s.finishReason.data
        ⟨s.promptTokens, s.completionTokens, s.totalTokens⟩] := by
  have hBefore : ∀ data ∈ events.takeWhile (· ≠ ascii "[DONE]"), data ≠ ascii "[DONE]" :=
    fun _ => mem_takeWhile_ne
  have hRun : handleEvents lib cancels (openTransfer body seed) events =
      handleEvents lib cancels (handleEvents lib cancels (openTransfer body seed)
        (events.takeWhile (· ≠ ascii "[DONE]"))) (events.dropWhile (· ≠ ascii "[DONE]")) := by
    rw [← handleEvents_append, List.takeWhile_append_dropWhile]
  have hUndone := (handleEvents_emits lib cancels (openTransfer body seed) hBefore).undone
    (openTransfer_undone body seed)
  have hAcc := handleEvents_live cancels (openTransfer_accumulated lib body seed) hBefore
  rw [List.nil_append, ← Reference.docs] at hAcc
  dsimp only
  rw [hRun]
  generalize handleEvents lib cancels (openTransfer body seed)
    (events.takeWhile (· ≠ ascii "[DONE]")) = s at hUndone hAcc
  cases hFinished : s.finished with
  | true =>
    rw [handleEvents_finished hFinished]
    exact .inl ⟨hUndone, .inl hFinished⟩
  | false =>
    have hAcc := hAcc hFinished
    cases hRest : events.dropWhile (· ≠ ascii "[DONE]") with
    | nil => exact .inl ⟨hUndone, .inr hAcc.withinCaps⟩
    | cons data rest =>
      have hDone : data = ascii "[DONE]" := by
        have hHead := List.head?_dropWhile_not (· ≠ ascii "[DONE]") events
        rw [hRest] at hHead
        simpa using hHead
      have hFire : (handleEvent lib cancels s data).1 = fireDone s := by
        rw [handleEvent, if_neg (by simp [hFinished]), if_pos hDone]
      rw [handleEvents_cons, hFire, handleEvents_finished (fireDone_finished s)]
      cases hIncomplete : s.slots.any OrToolCall.incomplete with
      | true => exact .inl ⟨fireDone_undone hUndone hIncomplete, .inr hAcc.withinCaps⟩
      | false =>
        exact .inr ⟨s, hUndone, hAcc, hIncomplete, fireDone_done hFinished hIncomplete⟩

theorem handleEvents_exact (lib : JsonLib) (cancels : CancelsInText) (body : Bytes) (seed : UInt64)
    (events : List Bytes) :
    HandsOver cstr lib events (handleEvents lib cancels (openTransfer body seed) events).out ∧
    (¬WithinCaps lib cstr (Reference.docs lib events) →
      Refuses (handleEvents lib cancels (openTransfer body seed) events).out) := by
  rcases handleEvents_ending lib cancels body seed events with
    ⟨hUndone, hCaps⟩ | ⟨s, hUndone, hAcc, hComplete, hOut⟩
  · refine ⟨fun m r u hMem => absurd hMem (hUndone.noDone m r u), fun hOver => ⟨?_, hUndone.noDone⟩⟩
    exact hUndone.error (hCaps.resolve_right hOver)
  · refine ⟨fun m r u hMem => ?_, fun hOver => absurd hAcc.withinCaps hOver⟩
    rw [hOut] at hMem ⊢
    rcases List.mem_append.mp hMem with hMem | hMem
    · exact absurd hMem (hUndone.noDone m r u)
    · cases List.mem_singleton.mp hMem
      refine ⟨assembleMessage_eq hAcc, ?_, fun i hNamed => complete_of_slots hAcc.slots hComplete hNamed⟩
      rw [← hAcc.payloads]
      simp [onTexts]

/-! A NUL inside a string ends it, so the message is not that of the whole strings. -/

def nulEvent : Bytes :=
  ascii "\x7b\"choices\":[\x7b\"delta\":\x7b\"content\":\"a\\u0000b\"\x7d\x7d]\x7d"

def nulDoc : CJson :=
  .object [(ascii "choices", .array [.object [(ascii "delta",
    .object [(ascii "content", .string [97, 0, 98])])]])]

def nulLib : JsonLib where
  parse doc := if doc = nulEvent then .ok (nulDoc, doc.length) else .error 0
  print _ := []
  castOutside _ := 0

theorem handsOver_whole_strings_false :
    ¬HandsOver id nulLib [nulEvent, ascii "[DONE]"]
      (handleEvents nulLib (fun _ => false) (openTransfer [] 1) [nulEvent, ascii "[DONE]"]).out := by
  intro h
  have hOut : (handleEvents nulLib (fun _ => false) (openTransfer [] 1)
      [nulEvent, ascii "[DONE]"]).out = [.httpRequest [], .onText (ascii "a"),
        .onDone (.object [(ascii "role", .string (ascii "assistant")),
          (ascii "content", .string (ascii "a"))]) [] ⟨0, 0, 0⟩] := by
    rfl
  rw [hOut] at h
  obtain ⟨-, hTexts, -⟩ := h _ _ _ (List.mem_cons_of_mem _ (List.mem_cons_of_mem _ List.mem_cons_self))
  revert hTexts
  decide

end Message

end Mua.Openrouter
