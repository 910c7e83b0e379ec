import Mua.Lib.Run
import Mua.SessionStamp

/-! # The sessions directory

Sessions are created at seconds that do not go back, into a directory nothing is
removed from. The last one created has the greatest well-shaped name, which is
the one `session_load_latest` opens.
-/

namespace Mua.Session

open FixedWidth

variable {lib : JsonLib} {pads : Bool}

def kSessionScanMax : Nat := 65536

/-- The names readdir(3) returns, and the error that ends the scan early. -/
structure Listing where
  names : List Bytes
  failed : Option Bytes

/-- The strcmp-greatest well-shaped name, or none as the empty text. -/
def bestName (best : Bytes) : List Bytes → Bytes
  | [] => best
  | name :: names => bestName (if sessionNameOk name ∧ best < name then name else best) names

def sessionLoadLatest (lib : JsonLib) (dir : Except Error Bytes) (opendir : Except Bytes Listing)
    (opened : Bytes → OpenResult) (file : Bytes → Bytes) (reads : Nat → ReadResult) :
    Except Error SessionState :=
  match dir with
  | .error err => .error err
  | .ok dir =>
    match opendir with
    | .error reason =>
      .error ⟨.exception, ascii "session: opendir " ++ cstr dir ++ ascii ": " ++ reason⟩
    | .ok listing =>
      -- the error is met only by a scan that reaches it
      match listing.failed.filter fun _ => listing.names.length < kSessionScanMax with
      | some reason =>
        .error ⟨.exception, ascii "session: readdir " ++ cstr dir ++ ascii ": " ++ reason⟩
      | none =>
        let best := bestName [] (listing.names.take kSessionScanMax)
        if best = [] then .error ⟨.validation, ascii "session: no sessions to resume"⟩
        else
          let path := pathsJoin dir best
          sessionLoad lib path (opened path) (file path) reads

/-- The names in the directory, the sessions created, and the second of the last one. -/
structure SessionsDir where
  names : List Bytes
  created : List SessionState
  clock : Option Int

def fileName (sess : SessionState) : Bytes := sess.id.data ++ ascii ".jsonl"

/-- open(2) with `O_CREAT | O_EXCL`: it fails on a name that is there, and may fail otherwise. -/
def createIn (names : List Bytes) (stamp : Bytes) (fails : Nat → Option Bytes) (nn : Nat) :
    CreateResult :=
  if sessionName stamp nn ∈ names then .taken
  else
    match fails nn with
    | some reason => .failed reason
    | none => .created

inductive DirEvent
  | foreign (name : Bytes)
  | new (now : Int) (fails : Nat → Option Bytes) (os : Nat → WriteResult)

/-- A call of `session_new` that succeeds, or a file of another shape. -/
def dirStep (lib : JsonLib) (pads : Bool) (dir : Bytes) (s : SessionsDir) :
    DirEvent → Option SessionsDir
  | .foreign name => if sessionNameOk name then none else some { s with names := name :: s.names }
  | .new now fails os =>
    if FourDigitYear now ∧ ∀ last ∈ s.clock, last ≤ now then
      match sessionNew lib (.ok dir) now (utcStamp pads now)
          (createIn s.names ((utcStamp pads now).getD []) fails) os with
      | .ok sess => some ⟨fileName sess :: s.names, s.created ++ [sess], some now⟩
      | .error _ => none
    else none

theorem openFresh_ok {dir stamp path : Bytes} {create : Nat → CreateResult} {nn attempts : Nat}
    {id : FixedStr (kSessionIdLen + 1)}
    (h : openFresh dir stamp create nn attempts = .ok (id, path)) :
    ∃ k, nn ≤ k ∧ k < nn + attempts ∧ (∀ j, nn ≤ j → j < k → create j = .taken) ∧
      create k = .created ∧ id = FixedStr.truncate kSessionIdLen (sessionName stamp k) ∧
      path = pathsJoin dir (sessionName stamp k) := by
  induction attempts generalizing nn with
  | zero => cases h
  | succ attempts ih =>
    rw [openFresh] at h
    split at h
    · cases h
    cases hCreate : create nn with
    | created =>
      rw [hCreate] at h
      cases h
      exact ⟨nn, le_rfl, by omega, fun j hj hLt => absurd hLt (by omega), hCreate, rfl, rfl⟩
    | taken =>
      rw [hCreate] at h
      obtain ⟨k, hLe, hLt, hTaken, hRest⟩ := ih h
      refine ⟨k, by omega, by omega, ?_, hRest⟩
      intro j hj hjk
      rcases hj.eq_or_lt with rfl | hLater
      · exact hCreate
      · exact hTaken j hLater hjk
    | failed reason =>
      rw [hCreate] at h
      cases h

theorem sessionNew_claims {dir : Bytes} {now : Int} {stamp : Option Bytes}
    {create : Nat → CreateResult} {os : Nat → WriteResult} {sess : SessionState}
    (h : sessionNew lib (.ok dir) now stamp create os = .ok sess) :
    ∃ text k, stamp = some text ∧ text.length = kStampLen ∧ k < kSessionIdAttempts ∧
      (∀ j < k, create j = .taken) ∧ create k = .created ∧
      sess.id = FixedStr.truncate kSessionIdLen (sessionName text k) ∧
      sess.path = pathsJoin dir (sessionName text k) := by
  unfold sessionNew at h
  dsimp only at h
  split at h
  · cases h
  rename_i text hStamp
  obtain ⟨rfl, hText⟩ := Option.filter_eq_some_iff.mp hStamp
  split at h
  · cases h
  rename_i id path hOpen
  obtain ⟨k, -, hLt, hTaken, hCreated, rfl, rfl⟩ := openFresh_ok hOpen
  rw [Nat.zero_add] at hLt
  have hHeader := writeLine_cases ⟨FixedStr.truncate kSessionIdLen (sessionName text k),
    pathsJoin dir (sessionName text k), [], [], false, false⟩
    (lib.print (headerRecord (FixedStr.truncate kSessionIdLen (sessionName text k)).data now)) os
  rw [writeHeader] at h
  rcases hHeader with hWhole | ⟨torn, err, -, -, hTorn⟩
  · rw [hWhole] at h
    cases h
    exact ⟨text, k, rfl, (of_decide_eq_true hText).2, hLt, fun j hj => hTaken j (Nat.zero_le j) hj,
      hCreated, rfl, rfl⟩
  · rw [hTorn] at h
    cases h

theorem createIn_created {names : List Bytes} {stamp : Bytes} {fails : Nat → Option Bytes} {nn : Nat}
    (h : createIn names stamp fails nn = .created) : sessionName stamp nn ∉ names := by
  intro hMem
  rw [createIn, if_pos hMem] at h
  cases h

theorem createIn_taken {names : List Bytes} {stamp : Bytes} {fails : Nat → Option Bytes} {nn : Nat}
    (h : createIn names stamp fails nn = .taken) : sessionName stamp nn ∈ names := by
  unfold createIn at h
  split at h
  · assumption
  · split at h <;> cases h

structure Creates (dir : Bytes) (s s' : SessionsDir) (now : Int) (nn : Nat) : Prop where
  year : FourDigitYear now
  later : ∀ last ∈ s.clock, last ≤ now
  suffix : nn < 100
  taken : ∀ k < nn, sessionName (stampOf now) k ∈ s.names
  free : sessionName (stampOf now) nn ∉ s.names
  names : s'.names = sessionName (stampOf now) nn :: s.names
  clock : s'.clock = some now
  created : ∃ sess : SessionState, s'.created = s.created ++ [sess] ∧
    sess.id.data = sessionIdOf now nn ∧ sess.path = pathsJoin dir (sessionName (stampOf now) nn)

theorem sessionId_data (now : Int) {nn : Nat} (h : nn < 100) :
    (FixedStr.truncate kSessionIdLen (sessionName (stampOf now) nn)).data = sessionIdOf now nn := by
  rw [FixedStr.truncate_data, sessionName_eq, List.take_left' (sessionIdOf_length now nn),
    cstr_of_nulFree (nulFree_sessionIdOf now h)]

theorem dirStep_new {dir : Bytes} {s s' : SessionsDir} {now : Int} {fails : Nat → Option Bytes}
    {os : Nat → WriteResult} (h : dirStep lib pads dir s (.new now fails os) = some s') :
    utcStamp pads now = some (stampOf now) ∧ ∃ nn, Creates dir s s' now nn := by
  rw [dirStep] at h
  split at h
  · rename_i hAllowed
    split at h
    · rename_i sess hNew
      cases h
      obtain ⟨text, k, hStamp, hLength, hLt, hTaken, hCreated, hId, hPath⟩ := sessionNew_claims hNew
      obtain rfl := utcStamp_eq hAllowed.1 hStamp hLength
      rw [hStamp, Option.getD_some] at hTaken hCreated
      have hData : sess.id.data = sessionIdOf now k := by rw [hId, sessionId_data now hLt]
      have hName : fileName sess = sessionName (stampOf now) k := by
        rw [fileName, hData, sessionName_eq]
      refine ⟨hStamp, k, hAllowed.1, hAllowed.2, hLt, fun j hj => createIn_taken (hTaken j hj),
        createIn_created hCreated, ?_, rfl, sess, rfl, hData, hPath⟩
      rw [hName]
    · cases h
  · cases h

/-- Every session name there, and every id given out, is below the id. -/
structure Below (s : SessionsDir) (id : Bytes) : Prop where
  names : ∀ name ∈ s.names, sessionNameOk name → name < id ++ ascii ".jsonl"
  ids : ∀ sess ∈ s.created, sess.id.data < id

/-- The last session has suffix `nn` of the second `now`, and none is above it. -/
structure Latest (initial : List Bytes) (dir : Bytes) (s : SessionsDir) (now : Int) (nn : Nat) :
    Prop where
  year : FourDigitYear now
  clock : s.clock = some now
  suffix : nn < 100
  present : ∀ k ≤ nn, sessionName (stampOf now) k ∈ s.names
  greatest : ∀ name ∈ s.names, sessionNameOk name →
    name = sessionName (stampOf now) nn ∨ name < sessionName (stampOf now) nn
  ids : ∀ sess ∈ s.created, sess.id.data = sessionIdOf now nn ∨ sess.id.data < sessionIdOf now nn
  increasing : (s.created.map fun sess => sess.id.data).Pairwise (· < ·)
  files : ∀ sess ∈ s.created, sess.path = pathsJoin dir (fileName sess) ∧ fileName sess ∉ initial
  initial : initial ⊆ s.names
  last : ∃ sess, s.created.getLast? = some sess ∧ fileName sess = sessionName (stampOf now) nn

theorem Creates.latest {initial : List Bytes} {dir : Bytes} {s s' : SessionsDir} {now : Int}
    {nn : Nat} (h : Creates dir s s' now nn) (hBelow : Below s (sessionIdOf now nn))
    (hIncreasing : (s.created.map fun sess => sess.id.data).Pairwise (· < ·))
    (hFiles : ∀ sess ∈ s.created, sess.path = pathsJoin dir (fileName sess) ∧ fileName sess ∉ initial)
    (hInitial : initial ⊆ s.names) : Latest initial dir s' now nn := by
  obtain ⟨sess, hCreated, hId, hPath⟩ := h.created
  have hName : fileName sess = sessionName (stampOf now) nn := by
    rw [fileName, hId, sessionName_eq]
  constructor
  case year => exact h.year
  case clock => exact h.clock
  case suffix => exact h.suffix
  case present =>
    intro k hk
    rw [h.names]
    rcases hk.lt_or_eq with hLt | rfl
    · exact List.mem_cons_of_mem _ (h.taken k hLt)
    · exact List.mem_cons_self
  case greatest =>
    intro name hMem hOk
    rw [h.names] at hMem
    rcases List.mem_cons.mp hMem with rfl | hOld
    · exact .inl rfl
    · rw [sessionName_eq]
      exact .inr (hBelow.names name hOld hOk)
  case ids =>
    intro old hMem
    rw [hCreated] at hMem
    rcases List.mem_append.mp hMem with hOld | hNew
    · exact .inr (hBelow.ids old hOld)
    · rw [List.mem_singleton.mp hNew]
      exact .inl hId
  case increasing =>
    rw [hCreated, List.map_append, List.pairwise_append]
    refine ⟨hIncreasing, List.pairwise_singleton _ _, ?_⟩
    intro id hMem new hNew
    obtain ⟨old, hOld, rfl⟩ := List.mem_map.mp hMem
    rw [List.mem_singleton.mp hNew]
    dsimp only
    rw [hId]
    exact hBelow.ids old hOld
  case files =>
    intro old hMem
    rw [hCreated] at hMem
    rcases List.mem_append.mp hMem with hOld | hNew
    · exact hFiles old hOld
    · rw [List.mem_singleton.mp hNew, hName]
      exact ⟨hPath, fun hThere => h.free (hInitial hThere)⟩
  case initial =>
    rw [h.names]
    exact fun name hMem => List.mem_cons_of_mem _ (hInitial hMem)
  case last =>
    refine ⟨sess, ?_, hName⟩
    rw [hCreated, List.getLast?_append]
    rfl

theorem Latest.below {initial : List Bytes} {dir : Bytes} {s s' : SessionsDir} {now now' : Int}
    {nn nn' : Nat} (h : Latest initial dir s now nn) (hNew : Creates dir s s' now' nn') :
    Below s (sessionIdOf now' nn') := by
  have hAbove : sessionIdOf now nn < sessionIdOf now' nn' := by
    have hLater := hNew.later now h.clock
    rcases hLater.lt_or_eq with hSecond | rfl
    · exact sessionIdOf_lt_second hSecond h.year hNew.year nn nn'
    · refine sessionIdOf_lt_suffix now ?_ hNew.suffix
      by_contra hUsed
      exact hNew.free (h.present nn' (by omega))
  constructor
  · intro name hMem hOk
    have hLast : sessionName (stampOf now) nn < sessionIdOf now' nn' ++ ascii ".jsonl" := by
      rw [← sessionName_eq]
      exact sessionName_lt_iff.mpr hAbove
    rcases h.greatest name hMem hOk with rfl | hLt
    · exact hLast
    · exact List.lt_trans hLt hLast
  · intro sess hMem
    rcases h.ids sess hMem with hEq | hLt
    · rwa [hEq]
    · exact List.lt_trans hLt hAbove

theorem dirStep_latest {initial : List Bytes} {dir : Bytes} {s s' : SessionsDir} {e : DirEvent}
    (h : ∃ now nn, Latest initial dir s now nn) (hStep : dirStep lib pads dir s e = some s') :
    ∃ now nn, Latest initial dir s' now nn := by
  obtain ⟨now, nn, hLatest⟩ := h
  cases e with
  | foreign name =>
    rw [dirStep] at hStep
    split at hStep
    · cases hStep
    rename_i hShape
    cases hStep
    refine ⟨now, nn, { hLatest with
      present := fun k hk => List.mem_cons_of_mem _ (hLatest.present k hk)
      greatest := ?_
      initial := fun old hMem => List.mem_cons_of_mem _ (hLatest.initial hMem) }⟩
    intro other hMem hOk
    rcases List.mem_cons.mp hMem with rfl | hOld
    · exact absurd hOk hShape
    · exact hLatest.greatest other hOld hOk
  | new now' fails os =>
    obtain ⟨-, nn', hCreates⟩ := dirStep_new hStep
    exact ⟨now', nn', hCreates.latest (hLatest.below hCreates) hLatest.increasing hLatest.files
      hLatest.initial⟩

theorem first_latest {initial : List Bytes} {dir : Bytes} {s : SessionsDir} {start : Int}
    {fails : Nat → Option Bytes} {os : Nat → WriteResult}
    (hInitial : ∀ stamp ∈ utcStamp pads start, ∀ name ∈ initial, sessionNameOk name → name < stamp)
    (hStep : dirStep lib pads dir ⟨initial, [], none⟩ (.new start fails os) = some s) :
    ∃ nn, Latest initial dir s start nn := by
  obtain ⟨hStamp, nn, hCreates⟩ := dirStep_new hStep
  have hBelow : Below ⟨initial, [], none⟩ (sessionIdOf start nn) := by
    constructor
    · intro name hMem hOk
      rw [sessionIdOf, List.append_assoc, List.append_assoc]
      exact List.Lex.append_right _ _ (hInitial _ hStamp name hMem hOk)
    · intro sess hMem
      cases hMem
  exact ⟨nn, hCreates.latest hBelow List.Pairwise.nil (fun _ hMem => by cases hMem)
    (List.Subset.refl initial)⟩

theorem bestName_spec (best : Bytes) (names : List Bytes) :
    (bestName best names = best ∨
      bestName best names ∈ names ∧ sessionNameOk (bestName best names) = true) ∧
    ¬bestName best names < best ∧
    ∀ name ∈ names, sessionNameOk name → ¬bestName best names < name := by
  induction names generalizing best with
  | nil => exact ⟨.inl rfl, List.lt_irrefl _, fun _ hMem => nomatch hMem⟩
  | cons name names ih =>
    obtain ⟨hFrom, hBest, hNames⟩ := ih (if sessionNameOk name ∧ best < name then name else best)
    rw [bestName]
    generalize hResult : bestName (if sessionNameOk name ∧ best < name then name else best) names =
      result at *
    split at hFrom <;> rename_i hTaken
    · rw [if_pos hTaken] at hBest
      refine ⟨?_, fun hLt => hBest (List.lt_trans hLt hTaken.2), ?_⟩
      · rcases hFrom with rfl | ⟨hMem, hOk⟩
        · exact .inr ⟨List.mem_cons_self, hTaken.1⟩
        · exact .inr ⟨List.mem_cons_of_mem _ hMem, hOk⟩
      · intro other hMem hOk
        rcases List.mem_cons.mp hMem with rfl | hOther
        · exact hBest
        · exact hNames other hOther hOk
    · rw [if_neg hTaken] at hBest
      refine ⟨?_, hBest, ?_⟩
      · rcases hFrom with hSame | ⟨hMem, hOk⟩
        · exact .inl hSame
        · exact .inr ⟨List.mem_cons_of_mem _ hMem, hOk⟩
      · intro other hMem hOk
        rcases List.mem_cons.mp hMem with rfl | hOther
        · intro hLt
          exact hTaken ⟨hOk, List.lt_of_le_of_lt (List.not_lt.mp hBest) hLt⟩
        · exact hNames other hOther hOk

theorem bestName_greatest {names : List Bytes} {last : Bytes} (hMem : last ∈ names)
    (hOk : sessionNameOk last = true) (hPos : last ≠ [])
    (hGreatest : ∀ name ∈ names, sessionNameOk name → name = last ∨ name < last) :
    bestName [] names = last := by
  obtain ⟨hFrom, -, hNames⟩ := bestName_spec [] names
  have hAbove := hNames last hMem hOk
  rcases hFrom with hNone | ⟨hThere, hShape⟩
  · rw [hNone] at hAbove
    obtain ⟨b, rest, rfl⟩ := List.exists_cons_of_ne_nil hPos
    exact absurd (List.nil_lt_cons b rest) hAbove
  · exact (hGreatest _ hThere hShape).resolve_right hAbove

/-- What the directory holds as readdir(3) lists it: in any order, with "." and ".." where the
file system has them. -/
def Listed (s : SessionsDir) (listing : Listing) : Prop :=
  listing.failed = none ∧
    ∃ dots, dots.Sublist [ascii ".", ascii ".."] ∧ listing.names.Perm (dots ++ s.names)

theorem Latest.found {initial : List Bytes} {dir : Bytes} {s : SessionsDir} {now : Int} {nn : Nat}
    (h : Latest initial dir s now nn) {listing : Listing} (hListed : Listed s listing) :
    bestName [] listing.names = sessionName (stampOf now) nn := by
  obtain ⟨-, dots, hDots, hPerm⟩ := hListed
  refine bestName_greatest ?_ (sessionNameOk_sessionName now h.suffix) ?_ ?_
  · exact hPerm.mem_iff.mpr (List.mem_append_right dots (h.present nn le_rfl))
  · rw [sessionName_eq]
    exact List.append_ne_nil_of_right_ne_nil _ (by decide)
  · intro name hMem hOk
    rcases List.mem_append.mp (hPerm.mem_iff.mp hMem) with hDot | hName
    · have hShape : ∀ dot ∈ [ascii ".", ascii ".."], sessionNameOk dot = false := by decide
      rw [hShape name (hDots.subset hDot)] at hOk
      cases hOk
    · exact h.greatest name hName hOk

theorem pathsJoin_inj {dir a b : Bytes} (ha : NulFree a) (hb : NulFree b)
    (h : pathsJoin dir a = pathsJoin dir b) : a = b := by
  have hTails := List.append_cancel_left h
  rwa [cstr_of_nulFree ha, cstr_of_nulFree hb] at hTails

theorem nulFree_fileName (sess : SessionState) : NulFree (fileName sess) :=
  nulFree_append.mpr ⟨sess.id.nulFree, by decide⟩

/-- Ids increase, no two sessions have one file and none takes a file that was there, and the last
one is the one that is resumed. -/
theorem sessionNew_latest (lib : JsonLib) (pads : Bool) (dir : Bytes) (initial : List Bytes)
    (start : Int) (fails : Nat → Option Bytes) (os : Nat → WriteResult) (events : List DirEvent)
    (s : SessionsDir)
    (hInitial : ∀ stamp ∈ utcStamp pads start, ∀ name ∈ initial, sessionNameOk name → name < stamp)
    (hRun : Run.run (dirStep lib pads dir) ⟨initial, [], none⟩ (.new start fails os :: events) =
      some s) :
    (s.created.map fun sess => sess.id.data).Pairwise (· < ·) ∧
    (s.created.map fun sess => sess.path).Nodup ∧
    (∀ sess ∈ s.created, sess.path = pathsJoin dir (fileName sess) ∧ fileName sess ∉ initial) ∧
    ∃ last, s.created.getLast? = some last ∧
      ∀ listing, Listed s listing → listing.names.length < kSessionScanMax →
        ∀ opened file reads, sessionLoadLatest lib (.ok dir) (.ok listing) opened file reads =
          sessionLoad lib last.path (opened last.path) (file last.path) reads := by
  obtain ⟨mid, hFirst, hRest⟩ := Run.run_cons_eq_some.mp hRun
  obtain ⟨nn₀, hStart⟩ := first_latest hInitial hFirst
  obtain ⟨now, nn, hLatest⟩ := Run.run_invariant
    (I := fun s => ∃ now nn, Latest initial dir s now nn)
    (fun _ _ _ hInv hStep => dirStep_latest hInv hStep) ⟨start, nn₀, hStart⟩ hRest
  obtain ⟨last, hLast, hName⟩ := hLatest.last
  refine ⟨hLatest.increasing, ?_, hLatest.files, last, hLast, ?_⟩
  · rw [List.Nodup, List.pairwise_map]
    have hIds := List.pairwise_map.mp hLatest.increasing
    refine hIds.imp_of_mem ?_
    intro a b ha hb hLt hPath
    rw [(hLatest.files a ha).1, (hLatest.files b hb).1] at hPath
    have hNames := pathsJoin_inj (nulFree_fileName a) (nulFree_fileName b) hPath
    rw [List.append_cancel_right hNames] at hLt
    exact List.lt_irrefl _ hLt
  · intro listing hListed hSize opened file reads
    have hBest := hLatest.found hListed
    have hPath := (hLatest.files last (List.mem_of_getLast? hLast)).1
    rw [hName] at hPath
    have hNonempty : sessionName (stampOf now) nn ≠ [] := by
      rw [sessionName_eq]
      exact List.append_ne_nil_of_right_ne_nil _ (by decide)
    rw [sessionLoadLatest, hListed.1, Option.filter_none, List.take_of_length_le hSize.le, hBest,
      hPath]
    exact if_neg hNonempty

def sampleCalls : List DirEvent :=
  [.new 1767225599 (fun _ => none) sampleWrites, .new 1767225599 (fun _ => none) sampleWrites,
    .foreign (ascii "notasession.jsonl"), .new 1767225600 (fun _ => none) sampleWrites]

theorem sessionNew_latest_sample :
    ∃ s last, Run.run (dirStep sampleLib false (ascii "/s")) ⟨[ascii "zzz.txt"], [], none⟩
        sampleCalls = some s ∧
      (s.created.map fun sess => sess.id.data).Pairwise (· < ·) ∧
      s.created.getLast? = some last ∧
      ∀ opened file reads, sessionLoadLatest sampleLib (.ok (ascii "/s")) (.ok ⟨s.names, none⟩)
          opened file reads =
        sessionLoad sampleLib last.path (opened last.path) (file last.path) reads := by
  obtain ⟨s, hRun, hSize⟩ : ∃ s, Run.run (dirStep sampleLib false (ascii "/s"))
      ⟨[ascii "zzz.txt"], [], none⟩ sampleCalls = some s ∧ s.names.length = 5 := ⟨_, rfl, rfl⟩
  have hInitial : ∀ stamp ∈ utcStamp false 1767225599, ∀ name ∈ [ascii "zzz.txt"],
      sessionNameOk name → name < stamp := by
    intro stamp _ name hMem hOk
    rw [List.mem_singleton.mp hMem] at hOk
    exact absurd hOk (by decide)
  obtain ⟨hIds, -, -, last, hLast, hLoad⟩ :=
    sessionNew_latest sampleLib false (ascii "/s") [ascii "zzz.txt"] 1767225599 _ _ _ s hInitial hRun
  have hListed : Listed s ⟨s.names, none⟩ := ⟨rfl, [], List.nil_sublist _, .refl _⟩
  exact ⟨s, last, hRun, hIds, hLast, hLoad ⟨s.names, none⟩ hListed (by rw [hSize]; decide)⟩

end Mua.Session
