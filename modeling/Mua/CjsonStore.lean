import Mua.CjsonTree
import Mua.SessionLog
import Mua.Agent
import Mua.Lib.Run

/-! # The session store on cJSON

What the store relies on cJSON for holds of the trees whose numbers are read back, whose strings
have no NUL and whose brackets fit the limit; the records that the program writes are such trees.
-/

namespace Mua.Cjson

open Separated Session Agent

variable {num : NumLib} {s rest : Bytes} {b : Byte} {room : Nat} {node : CJson}

theorem number_of_head (h : parseValue num room (b :: s) = .ok (node, rest)) :
    (∃ d, node = .number d) ↔ b = 45 ∨ isDigit b = true := by
  constructor
  · rintro ⟨d, rfl⟩
    generalize hText : b :: s = text at h
    cases parseValue_accepted h with
    | word hWord => cases hWord
    | number hb =>
      cases hText
      exact hb
  · intro hb
    rw [parseValue_number hb] at h
    obtain ⟨d, rfl, -⟩ := parseNumber_scanned h
    exact ⟨d, rfl⟩

/-- What the session store asks of a printed record. -/
theorem cjson_printable {castOutside : Double → Int64}
    (hTree : Within (NumberBack num) nestingLimit node) (hClip : clip node = node)
    (hKind : ∀ d, node ≠ .number d) : Printable (cjson num castOutside) node := by
  obtain ⟨c, text, hText, hc, -, hBom⟩ := printValue_head hTree
  have hParse : parseWithLength num (printValue num node) =
      .ok (node, (printValue num node).length) := by
    rw [parseWithLength_printValue hTree, hClip]
  constructor
  · change printValue num node ≠ []
    rw [hText]
    exact List.cons_ne_nil c text
  · intro hNewline
    exact absurd (printValue_printable hTree newline hNewline) (by decide)
  · exact hParse
  · rintro torn ⟨more, hMore⟩ hNe
    change torn ++ more = printValue num node at hMore
    change torn ≠ printValue num node at hNe
    change ∃ offset, parseWithLength num torn = .error offset
    cases hTorn : parseWithLength num torn with
    | error offset => exact ⟨offset, rfl⟩
    | ok r =>
      obtain ⟨item, n⟩ := r
      obtain ⟨rest, hRead, hn⟩ := parseWithLength_value hTorn
      have hItem : ∀ d, item ≠ .number d := by
        cases torn with
        | nil => cases hTorn
        | cons b torn =>
          rw [hText, List.cons_append, List.cons.injEq] at hMore
          obtain ⟨rfl, -⟩ := hMore
          obtain ⟨left, hNode, -⟩ := parseWithLength_value hParse
          rw [hText, skipBom_cons hBom, skipWhitespace_cons hc] at hNode
          rw [skipBom_cons hBom, skipWhitespace_cons hc] at hRead
          intro d hd
          obtain ⟨d, hd⟩ := (number_of_head hNode).mpr ((number_of_head hRead).mp ⟨d, hd⟩)
          exact hKind d hd
      have hWhole := parseWithLength_append hTorn hItem more
      rw [hMore, hParse] at hWhole
      cases hWhole
      have hMoreNe : more ≠ [] := by
        rintro rfl
        exact hNe (by rw [← hMore, List.append_nil])
      have hLength := congrArg List.length hMore
      have hPos := List.length_pos_of_ne_nil hMoreNe
      rw [List.length_append] at hLength
      omega

variable {Number : Double → Prop} {obj item : CJson} {key : Bytes}

theorem within_addItem (hObj : Within Number (room + 1) obj) (hItem : Within Number room item) :
    Within Number (room + 1) (obj.addItem key item) := by
  cases hObj with
  | object h =>
    refine .object fun m hm => ?_
    rw [List.mem_append, List.mem_singleton] at hm
    rcases hm with hm | rfl
    · exact h m hm
    · exact hItem
  | null => exact .null
  | bool => exact .bool
  | number h => exact .number h
  | string => exact .string
  | array h => exact .array h

theorem clip_addItem (hObj : clip obj = obj) (hKey : NulFree key) (hItem : clip item = item) :
    clip (obj.addItem key item) = obj.addItem key item := by
  cases obj with
  | object members =>
    rw [clip, clipMembers_eq, CJson.object.injEq] at hObj
    rw [CJson.addItem, clip, clipMembers_eq, List.map_append, hObj]
    simp only [List.map_cons, List.map_nil, cstr_of_nulFree hKey, hItem]
  | null => exact hObj
  | bool b => exact hObj
  | number d => exact hObj
  | string s => exact hObj
  | array items => exact hObj

/-- A record: an object of strings and ints under plain names. -/
structure Plain (num : NumLib) (obj : CJson) : Prop where
  within : Within (NumberBack num) 1 obj
  clip : clip obj = obj
  object : obj.isObject = true

theorem plain_newObj : Plain num jsonNewObj where
  within := .object fun _ h => absurd h List.not_mem_nil
  clip := by rw [jsonNewObj, Cjson.clip, clipMembers]
  object := rfl

theorem isObject_addItem (h : obj.isObject = true) : (obj.addItem key item).isObject = true := by
  cases obj with
  | object members => rfl
  | null => cases h
  | bool b => cases h
  | number d => cases h
  | string s => cases h
  | array items => cases h

theorem Plain.addCstr (h : Plain num obj) (hKey : NulFree key) (val : Bytes) :
    Plain num (jsonAddCstr obj key val) where
  within := within_addItem h.within .string
  clip := clip_addItem h.clip hKey (by rw [Cjson.clip, cstr_cstr])
  object := isObject_addItem h.object

theorem Plain.addInt {n : Nat} (h : Plain num obj) (hKey : NulFree key)
    (hNum : NumberBack num (.ofInt n)) : Plain num (jsonAddInt obj key n) where
  within := within_addItem h.within (.number hNum)
  clip := clip_addItem h.clip hKey (by rw [Cjson.clip])
  object := isObject_addItem h.object

theorem Plain.printable {castOutside : Double → Int64} (h : Plain num node) :
    Printable (cjson num castOutside) node := by
  refine cjson_printable (h.within.mono (by decide)) h.clip ?_
  rintro d rfl
  cases h.object

theorem plain_headerRecord {created : Nat} (hNum : ReadsInts num)
    (h : NumberBack num (.ofInt created)) (id : Bytes) :
    Plain num (headerRecord id created) := by
  have hType : Plain num (jsonAddCstr jsonNewObj (ascii "type") (ascii "session")) :=
    plain_newObj.addCstr (by decide) (ascii "session")
  have hVersion : Plain num (jsonAddInt (jsonAddCstr jsonNewObj (ascii "type") (ascii "session"))
      (ascii "version") 1) := hType.addInt (n := 1) (by decide) (numberBack_ofInt hNum (by decide))
  exact (hVersion.addCstr (by decide) id).addInt (by decide) h

theorem plain_userMessage (text : Bytes) : Plain num (userMessage text) :=
  (plain_newObj.addCstr (by decide) _).addCstr (by decide) text

theorem plain_toolMessage (id content : Bytes) : Plain num (toolMessage id content) :=
  ((plain_newObj.addCstr (by decide) _).addCstr (by decide) id).addCstr (by decide) content

/-- A process has the session open, or there is the file alone. -/
inductive StoreLife
  | opened (sess : SessionState)
  | closed (path file : Bytes)

inductive StoreEvent
  | append (msg : CJson) (os : Nat → WriteResult)
  | exit (cut : Nat)
  | load (reads : Nat → ReadResult)

def storeLifeStep (lib : JsonLib) : StoreLife → StoreEvent → Option StoreLife
  | .opened sess, .append msg os => some (.opened (sessionAppend lib sess msg os).1)
  | .opened sess, .exit cut => some (.closed sess.path (sess.file.take cut))
  | .closed path file, .load reads =>
    match sessionLoad lib path (.opened true file.length) file reads with
    | .error _ => some (.closed path file)
    | .ok sess => some (.opened sess)
  | _, _ => none

def StoreEvent.appended : StoreEvent → List CJson
  | .append msg _ => [msg]
  | .exit _ => []
  | .load _ => []

/-- The messages are some of those that were appended, in their order. -/
def Kept (past messages : List CJson) : Prop := messages.Sublist past

theorem kept_prefix {past a b : List CJson} (h : a <+: b) (hKept : Kept past b) : Kept past a :=
  h.sublist.trans hKept

theorem onRecord_more {lib : JsonLib} {past : List CJson} {sess : SessionState}
    (h : OnRecord lib (Kept past) sess) (msg : CJson) :
    OnRecord lib (Kept (past ++ [msg])) sess := by
  obtain ⟨told, kept, hDisk, hTold⟩ := h.tells
  exact ⟨⟨told, kept, hDisk, hTold.trans (List.sublist_append_left past [msg])⟩, h.disk, h.heal⟩

theorem kept_append (lib : JsonLib) {past : List CJson} {sess : SessionState}
    (h : Kept past sess.messages) (msg : CJson) (os : Nat → WriteResult) :
    Kept (past ++ [msg]) (sessionAppend lib sess msg os).1.messages := by
  have hSame : Kept (past ++ [msg]) sess.messages := h.trans (List.sublist_append_left past [msg])
  have hCase := sessionAppend_cases lib sess msg os
  generalize sessionAppend lib sess msg os = r at hCase ⊢
  cases hCase with
  | refused err => exact hSame
  | torn torn err _ _ _ => exact hSame
  | written _ _ _ _ => exact h.append_right [msg]

inductive TellsOf (lib : JsonLib) (past : List CJson) : StoreLife → Prop
  | opened {sess : SessionState} (hRecord : OnRecord lib (Kept past) sess)
      (hKept : Kept past sess.messages) : TellsOf lib past (.opened sess)
  | closed {path file : Bytes} (hTells : Tells lib (Kept past) file) :
      TellsOf lib past (.closed path file)

/-- A tree that the store gives back as it was: its numbers are read back, its strings are C
strings, its brackets fit the limit. -/
structure Readable (num : NumLib) (msg : CJson) : Prop where
  within : Within (NumberBack num) nestingLimit msg
  clip : clip msg = msg

variable {castOutside : Double → Int64} {past : List CJson} {life next : StoreLife} {e : StoreEvent}

theorem storeLifeStep_tells (hRead : ∀ msg ∈ e.appended, Readable num msg)
    (h : TellsOf (cjson num castOutside) past life)
    (hStep : storeLifeStep (cjson num castOutside) life e = some next) :
    TellsOf (cjson num castOutside) (past ++ e.appended) next := by
  cases h with
  | @opened sess hRecord hKept =>
    cases e with
    | append msg os =>
      obtain rfl := Option.some.inj hStep
      have hMore : Kept (past ++ [msg]) (sess.messages ++ [msg]) := hKept.append_right [msg]
      have hNext := kept_append (cjson num castOutside) hKept msg os
      by_cases hRole : hasRole msg = true
      · have hMsg := hRead msg List.mem_cons_self
        have hPrint : Printable (cjson num castOutside) msg := by
          refine cjson_printable hMsg.within hMsg.clip ?_
          rintro d rfl
          cases hRole
        exact .opened
          (sessionAppend_onRecord kept_prefix (onRecord_more hRecord msg) hPrint hMore os) hNext
      · have hSame : (sessionAppend (cjson num castOutside) sess msg os).1 = sess := by
          rw [sessionAppend, if_pos hRole]
        rw [StoreEvent.appended, hSame]
        rw [hSame] at hNext
        exact .opened (onRecord_more hRecord msg) hNext
    | exit cut =>
      obtain rfl := Option.some.inj hStep
      rw [StoreEvent.appended, List.append_nil]
      exact .closed (hRecord.tells.cut kept_prefix cut)
    | load reads => cases hStep
  | @closed path file hTells =>
    cases e with
    | append msg os => cases hStep
    | exit cut => cases hStep
    | load reads =>
      rw [StoreEvent.appended, List.append_nil]
      rw [storeLifeStep] at hStep
      split at hStep
      · cases hStep
        exact .closed hTells
      · rename_i sess hLoad
        cases hStep
        obtain ⟨hRecord, hKept, -⟩ := sessionLoad_onRecord hTells hLoad
        exact .opened hRecord hKept

theorem storeLife_tells {events : List StoreEvent}
    (hRead : ∀ msg ∈ events.flatMap StoreEvent.appended, Readable num msg)
    (h : TellsOf (cjson num castOutside) past life)
    (hRun : Run.run (storeLifeStep (cjson num castOutside)) life events = some next) :
    TellsOf (cjson num castOutside) (past ++ events.flatMap StoreEvent.appended) next := by
  induction events generalizing past life with
  | nil =>
    cases hRun
    rwa [List.flatMap_nil, List.append_nil]
  | cons e events ih =>
    obtain ⟨mid, hStep, hRest⟩ := Run.run_cons_eq_some.mp hRun
    rw [List.flatMap_cons, List.forall_mem_append] at hRead
    have hMid := storeLifeStep_tells hRead.1 h hStep
    rw [List.flatMap_cons, ← List.append_assoc]
    exact ih hRead.2 hMid hRest

/-- Over any number of processes, torn writes and crashes at any byte, a session on cJSON holds
messages that were appended, each at most once and in their order. -/
theorem storeLife_sublist {dir : Except Error Bytes} {now : Nat} {stamp : Option Bytes}
    {create : Nat → CreateResult} {os : Nat → WriteResult} {sess last : SessionState}
    {events : List StoreEvent} (hNum : ReadsInts num) (hNow : NumberBack num (.ofInt now))
    (hNew : sessionNew (cjson num castOutside) dir now stamp create os = .ok sess)
    (hRead : ∀ msg ∈ events.flatMap StoreEvent.appended, Readable num msg)
    (hRun : Run.run (storeLifeStep (cjson num castOutside)) (.opened sess) events =
      some (.opened last)) :
    last.messages.Sublist (events.flatMap StoreEvent.appended) := by
  have hHeader : newline ∉ (cjson num castOutside).print (headerRecord sess.id.data now) := by
    intro hNewline
    exact absurd (printValue_printable (plain_headerRecord hNum hNow _).within newline hNewline)
      (by decide)
  obtain ⟨hRecord, hMessages⟩ := sessionNew_onRecord (P := Kept []) hNew hHeader (List.Sublist.refl _)
  have hStart : TellsOf (cjson num castOutside) [] (.opened sess) := by
    refine .opened hRecord ?_
    rw [hMessages]
    exact List.Sublist.refl _
  have hLast := storeLife_tells hRead hStart hRun
  rw [List.nil_append] at hLast
  cases hLast with
  | opened hRecord hKept => exact hKept

/-! A process stores a message and ends; the next one loads the file and goes on. -/

def storeLib : JsonLib := cjson decimalNum fun _ => 0

def storeSession : SessionState :=
  match sessionNew storeLib (.ok (ascii "/s")) sampleNow (some sampleStamp) (fun _ => .created)
      sampleWrites with
  | .ok sess => sess
  | .error _ => ⟨FixedStr.truncate _ [], [], [], [], false, false⟩

theorem storeSession_new :
    sessionNew storeLib (.ok (ascii "/s")) sampleNow (some sampleStamp) (fun _ => .created)
      sampleWrites = .ok storeSession := by
  have hOk : (sessionNew storeLib (.ok (ascii "/s")) sampleNow (some sampleStamp)
      (fun _ => .created) sampleWrites).isOk = true := by decide +kernel
  rw [storeSession]
  cases hNew : sessionNew storeLib (.ok (ascii "/s")) sampleNow (some sampleStamp)
      (fun _ => .created) sampleWrites with
  | ok sess => rfl
  | error err =>
    rw [hNew] at hOk
    cases hOk

def storeAppended : SessionState :=
  (sessionAppend storeLib storeSession (userMessage (ascii "hi")) sampleWrites).1

theorem storeAppended_loads :
    ∃ loaded, sessionLoad storeLib storeSession.path
        (.opened true (storeAppended.file.take 4096).length) (storeAppended.file.take 4096)
        sampleReads = .ok loaded := by
  have hNum : NumberBack decimalNum (.ofInt (1767225600 : Nat)) :=
    numberBack_ofInt readsInts_decimalNum (by decide)
  have hHeader : Printable storeLib (headerRecord storeSession.id.data sampleNow) :=
    (plain_headerRecord readsInts_decimalNum hNum storeSession.id.data).printable
  have hUser : Printable storeLib (userMessage (ascii "hi")) := (plain_userMessage _).printable
  obtain ⟨hId, hFile, hNone, hHeal⟩ := sessionNew_ok storeSession_new
  have hClean : (appendAll storeLib storeSession
      [⟨userMessage (ascii "hi"), sampleWrites⟩]).1.poisoned = false := by decide +kernel
  obtain ⟨hJournal, -, -, hCount, hAll⟩ :=
    appendAll_journal hHeal (by rw [hNone]; exact Nat.zero_le _) hClean
  have hAppended : (appendAll storeLib storeSession
      [⟨userMessage (ascii "hi"), sampleWrites⟩]).1 = storeAppended := rfl
  rw [hNone, List.length_nil, Nat.zero_add] at hCount
  rw [hAppended, hFile, List.append_assoc, List.singleton_append] at hJournal
  have hShort : (storeLib.print (headerRecord storeSession.id.data sampleNow)).length ≤ 4096 := by
    decide +kernel
  have hMessages : ∀ m ∈ (appendAll storeLib storeSession
      [⟨userMessage (ascii "hi"), sampleWrites⟩]).2, Printable storeLib m ∧ Storable storeLib m := by
    intro m hm
    obtain ⟨hStorable, a, ha, rfl⟩ := hAll m hm
    rw [List.mem_singleton.mp ha] at hStorable ⊢
    exact ⟨hUser, hStorable⟩
  obtain ⟨ls, hBytes, -, -⟩ := loadBytes_truncated storeSession.path hId hHeader
    (hShort.trans (by decide)) hCount hMessages hShort
  refine ⟨ls.sess, ?_⟩
  rw [sessionLoad_eq (by decide +kernel) (by decide +kernel) sampleReads_well, hJournal]
  rw [hBytes]
  rfl

theorem storeLife_sublist_sample :
    ∃ last, Run.run (storeLifeStep storeLib) (.opened storeSession)
        [.append (userMessage (ascii "hi")) sampleWrites, .exit 4096, .load sampleReads,
          .append (toolMessage (ascii "a") (ascii "b")) sampleWrites] = some (.opened last) ∧
      last.messages.Sublist [userMessage (ascii "hi"), toolMessage (ascii "a") (ascii "b")] := by
  obtain ⟨loaded, hLoad⟩ := storeAppended_loads
  have hStep : storeLifeStep storeLib
      (.closed storeAppended.path (storeAppended.file.take 4096)) (.load sampleReads) =
        some (.opened loaded) := by
    have hPath : storeAppended.path = storeSession.path := by decide +kernel
    rw [storeLifeStep, hPath, hLoad]
  have hFirst : storeLifeStep storeLib (.opened storeSession)
      (.append (userMessage (ascii "hi")) sampleWrites) = some (.opened storeAppended) := rfl
  have hExit : storeLifeStep storeLib (.opened storeAppended) (.exit 4096) =
      some (.closed storeAppended.path (storeAppended.file.take 4096)) := rfl
  have hRun : Run.run (storeLifeStep storeLib) (.opened storeSession)
      [.append (userMessage (ascii "hi")) sampleWrites, .exit 4096, .load sampleReads,
        .append (toolMessage (ascii "a") (ascii "b")) sampleWrites] =
      some (.opened (sessionAppend storeLib loaded (toolMessage (ascii "a") (ascii "b"))
        sampleWrites).1) := by
    rw [Run.run_cons hFirst, Run.run_cons hExit, Run.run_cons hStep]
    rfl
  have hNow : NumberBack decimalNum (.ofInt (1767225600 : Nat)) :=
    numberBack_ofInt readsInts_decimalNum (by decide)
  refine ⟨_, hRun, storeLife_sublist readsInts_decimalNum hNow storeSession_new ?_ hRun⟩
  have hUser : Plain decimalNum (userMessage (ascii "hi")) := plain_userMessage _
  have hTool : Plain decimalNum (toolMessage (ascii "a") (ascii "b")) := plain_toolMessage _ _
  intro msg hMsg
  rcases List.mem_cons.mp hMsg with rfl | hMsg
  · exact ⟨hUser.within.mono (by decide), hUser.clip⟩
  · rw [List.mem_singleton.mp hMsg]
    exact ⟨hTool.within.mono (by decide), hTool.clip⟩

end Mua.Cjson
