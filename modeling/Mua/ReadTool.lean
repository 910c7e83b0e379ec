import Mua.Agent
import Mua.SessionLoad
import Mua.Lib.Lines

/-! # The read tool

A file is scanned in the pieces read(2) gives, a segment of a line at a time. The
window of lines that comes out is that of the whole text, and its note says which of
the three bounds cut it.
-/

namespace Mua.Tools

open Agent Session Lines

def kToolReadReturnCap : Nat := 256 * 1024

def kToolReadScanCap : Nat := 8 * 1024 * 1024

def kToolReadChunk : Nat := 64 * 1024

def kToolEintrMax : Nat := 100

/-- What open(2) and fstat(2) say of a path, and the bytes behind it. -/
inductive FileAnswer
  | openFailed (reason : Bytes)
  | statFailed (reason : Bytes)
  | opened (regular : Bool) (file : Bytes)
  deriving DecidableEq, Repr

def fail (msg : Bytes) : ToolResult := ⟨msg, true⟩

def succeed (content : Bytes) : ToolResult := ⟨content, false⟩

def optPosInt (lib : JsonLib) (args : CJson) (key : Bytes) (fallback : Int) : Option Int :=
  match args.getObjectItem key with
  | none => some fallback
  | some (.number d) =>
    let value := d.toInt64 lib.castOutside
    if value < 1 then none else some value
  | some _ => none

structure ReadScan where
  offset : Int
  limit : Int
  currentLine : Int := 1
  linesTaken : Int := 0
  scanned : Nat := 0
  window : Buf kToolReadReturnCap := bufInit kToolReadReturnCap
  windowFull : Bool := false
  finished : Bool := false
  deriving DecidableEq

/-- One turn of the loop: a segment up to its newline, or to the end of the chunk. -/
def readScanSegment (scan : ReadScan) (seg : Bytes) (nl : Bool) : ReadScan :=
  if scan.offset ≤ scan.currentLine then
    match bufAppend scan.window seg with
    | none =>
      -- keep exactly the bytes that fit
      let room := kToolReadReturnCap - scan.window.data.length
      { scan with
        window := (bufAppend scan.window (seg.take room)).getD scan.window
        windowFull := true
        finished := true }
    | some window =>
      if nl then
        { scan with
          window
          linesTaken := scan.linesTaken + 1
          finished := scan.finished || decide (scan.limit ≤ scan.linesTaken + 1)
          currentLine := scan.currentLine + 1 }
      else { scan with window }
  else if nl then { scan with currentLine := scan.currentLine + 1 }
  else scan

def readScanChunk (scan : ReadScan) (chunk : Bytes) : ReadScan :=
  if _hLoop : chunk = [] ∨ scan.finished = true then scan
  else
    let line := chunk.takeWhile fun b => b != newline
    match _hRest : chunk.drop line.length with
    | [] => readScanSegment scan line false
    | b :: rest => readScanChunk (readScanSegment scan (line ++ [b]) true) rest
termination_by chunk.length
decreasing_by
  have hRest := congrArg List.length _hRest
  simp only [List.length_drop, List.length_cons] at hRest
  omega

@[simp] theorem readScanSegment_scanned (scan : ReadScan) (seg : Bytes) (nl : Bool) :
    (readScanSegment scan seg nl).scanned = scan.scanned := by
  unfold readScanSegment
  split
  · split
    · rfl
    · split <;> rfl
  · split <;> rfl

@[simp] theorem readScanChunk_scanned (scan : ReadScan) (chunk : Bytes) :
    (readScanChunk scan chunk).scanned = scan.scanned := by
  fun_induction readScanChunk scan chunk with
  | case1 => rfl
  | case2 => exact readScanSegment_scanned _ _ _
  | case3 => simp_all

def ReadScan.count (scan : ReadScan) (n : Nat) : ReadScan :=
  { scan with scanned := scan.scanned + n }

inductive ReadStatus
  | ok
  | capped
  | binary
  | ioError (reason : Bytes)
  deriving DecidableEq, Repr

/-- `rest` is what the file holds past the offset of the descriptor, `k` the calls made so far. -/
def readScanFile (reads : Nat → ReadResult) (k eintr : Nat) (rest : Bytes) (scan : ReadScan) :
    ReadScan × ReadStatus :=
  if scan.finished then (scan, .ok)
  else if _hCap : kToolReadScanCap ≤ scan.scanned then (scan, .capped)
  else
    let want := min kToolReadChunk (kToolReadScanCap - scan.scanned)
    match reads k with
    | .failed reason => (scan, .ioError reason)
    | .eintr =>
      if eintr + 1 ≤ kToolEintrMax then readScanFile reads (k + 1) (eintr + 1) rest scan
      else (scan, .ioError (ascii "Interrupted system call"))
    | .got n =>
      let chunk := readBytes rest want n
      if _hEnd : chunk = [] then (scan, .ok)
      else
        let scan := scan.count chunk.length
        if (0 : Byte) ∈ chunk then (scan, .binary)
        else readScanFile reads (k + 1) 0 (rest.drop chunk.length) (readScanChunk scan chunk)
termination_by (kToolReadScanCap - scan.scanned, kToolEintrMax - eintr)
decreasing_by
  · exact Prod.Lex.right _ (by omega)
  · apply Prod.Lex.left
    have hPos := List.length_pos_iff.mpr _hEnd
    rw [readScanChunk_scanned]
    exact Nat.sub_lt_sub_left (Nat.lt_of_not_le _hCap) (Nat.lt_add_of_pos_right hPos)

def truncatedNote : Bytes := ascii "[read: truncated at 256 KiB]"

def scanBoundNote : Bytes := ascii "[read: stopped at the 8 MiB scan bound]"

def pastEndNote : Bytes := ascii "[read: offset past end of file]"

def readAssembleContent (scan : ReadScan) (status : ReadStatus) : Bytes :=
  let note :=
    if scan.windowFull then truncatedNote
    else if status = .capped then scanBoundNote
    else if scan.window.data = [] ∧ 0 < scan.scanned then pastEndNote
    else []
  scan.window.data ++ (if scan.window.data ≠ [] ∧ note ≠ [] then [newline] else []) ++ note

def readExecute (lib : JsonLib) (openFile : Bytes → FileAnswer) (reads : Nat → ReadResult)
    (args : CJson) : ToolResult :=
  match jsonGetCstr args (ascii "path") with
  | none => fail (ascii "read: path is required")
  | some path =>
    if path = [] then fail (ascii "read: path is required")
    else
      match optPosInt lib args (ascii "offset") 1,
        optPosInt lib args (ascii "limit") (2 ^ 63 - 1) with
      | some offset, some limit =>
        match openFile path with
        | .openFailed reason =>
          fail (ascii "read: cannot open " ++ path ++ ascii ": " ++ reason)
        | .statFailed reason => fail (ascii "read: stat " ++ path ++ ascii ": " ++ reason)
        | .opened false _ => fail (ascii "read: " ++ path ++ ascii " is not a regular file")
        | .opened true file =>
          match readScanFile reads 0 0 file { offset, limit } with
          | (_, .binary) => fail (ascii "read: " ++ path ++ ascii " is binary")
          | (_, .ioError reason) =>
            fail (ascii "read: read " ++ path ++ ascii ": " ++ reason)
          | (scan, status) => succeed (readAssembleContent scan status)
      | _, _ => fail (ascii "read: offset and limit must be integers >= 1")

def scannedHead (file : Bytes) : Bytes := file.take kToolReadScanCap

/-- The lines `offset`, `offset + 1`, and so on, `limit` of them. -/
def selected (offset limit : Int) (file : Bytes) : Bytes :=
  (((lines newline (scannedHead file)).drop (offset - 1).toNat).take limit.toNat).flatten

def LimitReached (offset limit : Int) (file : Bytes) : Prop :=
  (offset - 1).toNat + limit.toNat ≤ (scannedHead file).count newline

instance (offset limit : Int) (file : Bytes) : Decidable (LimitReached offset limit file) :=
  inferInstanceAs (Decidable (_ ≤ _))

def readNote (offset limit : Int) (file : Bytes) : Bytes :=
  if kToolReadReturnCap < (selected offset limit file).length then truncatedNote
  else if kToolReadScanCap ≤ file.length ∧ ¬LimitReached offset limit file then scanBoundNote
  else if file ≠ [] ∧ selected offset limit file = [] then pastEndNote
  else []

def readContent (offset limit : Int) (file : Bytes) : Bytes :=
  let kept := (selected offset limit file).take kToolReadReturnCap
  let note := readNote offset limit file
  kept ++ (if kept ≠ [] ∧ note ≠ [] then [newline] else []) ++ note

variable {scan mid last : ReadScan} {skip want skip' want' : Nat} {s t seg rest : Bytes}

/-- A scan that goes on, with so many lines to pass over and to take. -/
structure Tracks (scan : ReadScan) (skip want : Nat) : Prop where
  unfinished : scan.finished = false
  notFull : scan.windowFull = false
  skip_eq : (scan.offset - scan.currentLine).toNat = skip
  want_eq : scan.limit - scan.linesTaken = want
  want_ne : want ≠ 0

def ReadScan.with (scan : ReadScan) (skip want : Nat) (s : Bytes) : Bytes :=
  scan.window.data ++ select newline skip want s

/-- What a text does to a scan: it takes the text in, or stops in it, full or with its lines. -/
inductive Goes (scan : ReadScan) (skip want : Nat) (s : Bytes) (last : ReadScan) : Prop
  | on {skip' want' : Nat} (hTracks : Tracks last skip' want')
      (hLines : skip + want = skip' + want' + s.count newline)
      (hWith : ∀ rest, scan.with skip want (s ++ rest) = last.with skip' want' rest)
  | full (hFinished : last.finished = true) (hFull : last.windowFull = true)
      (hOver : ∀ rest, kToolReadReturnCap < (scan.with skip want (s ++ rest)).length ∧
        last.window.data = (scan.with skip want (s ++ rest)).take kToolReadReturnCap)
  | limit (hFinished : last.finished = true) (hRoom : last.windowFull = false)
      (hLines : skip + want ≤ s.count newline)
      (hWith : ∀ rest, last.window.data = scan.with skip want (s ++ rest))

theorem Goes.append (h : Goes scan skip want s mid)
    (hNext : ∀ skip' want', Tracks mid skip' want' → Goes mid skip' want' t last)
    (hStop : mid.finished = true → last = mid) : Goes scan skip want (s ++ t) last := by
  cases h with
  | @on skip' want' hTracks hLines hWith =>
    have hCount : (s ++ t).count newline = s.count newline + t.count newline := List.count_append
    cases hNext skip' want' hTracks with
    | on hLast hMore hRest =>
      refine .on hLast (by omega) fun rest => ?_
      rw [List.append_assoc, hWith, hRest]
    | full hFinished hFull hOver =>
      refine .full hFinished hFull fun rest => ?_
      rw [List.append_assoc, hWith]
      exact hOver rest
    | limit hFinished hRoom hMore hRest =>
      refine .limit hFinished hRoom (by omega) fun rest => ?_
      rw [List.append_assoc, hWith]
      exact hRest rest
  | full hFinished hFull hOver =>
    obtain rfl := hStop hFinished
    refine .full hFinished hFull fun rest => ?_
    rw [List.append_assoc]
    exact hOver (t ++ rest)
  | limit hFinished hRoom hLines hWith =>
    obtain rfl := hStop hFinished
    refine .limit hFinished hRoom ?_ fun rest => ?_
    · rw [List.count_append]
      omega
    · rw [List.append_assoc]
      exact hWith (t ++ rest)

/-- A segment that does not fit leaves the window full. -/
theorem segment_full (h : Tracks scan 0 want) {nl : Bool} (hRefused : bufAppend scan.window seg = none)
    (hSelect : ∀ rest, seg <+: select newline 0 want (s ++ rest)) :
    Goes scan 0 want s (readScanSegment scan seg nl) := by
  have hIn : scan.offset ≤ scan.currentLine := by
    have hSkip := h.skip_eq
    omega
  rw [bufAppend_eq_none] at hRefused
  have hCap := scan.window.fits
  let room := kToolReadReturnCap - scan.window.data.length
  have hRoomLength : (seg.take room).length = room := by
    rw [List.length_take]
    exact Nat.min_eq_left (by omega)
  have hTaken : bufAppend scan.window (seg.take room) =
      some ⟨scan.window.data ++ seg.take room, by rw [List.length_append]; omega⟩ :=
    dif_pos (by omega)
  have hSegment : readScanSegment scan seg nl = { scan with
      window := ⟨scan.window.data ++ seg.take room, by rw [List.length_append]; omega⟩
      windowFull := true
      finished := true } := by
    rw [readScanSegment, if_pos hIn, bufAppend_eq_none.mpr hRefused]
    show ({ scan with window := (bufAppend scan.window (seg.take room)).getD scan.window, windowFull := true, finished := true } : ReadScan) = _
    rw [hTaken]
    rfl
  rw [hSegment]
  refine .full rfl rfl fun rest => ?_
  obtain ⟨more, hMore⟩ := hSelect rest
  rw [ReadScan.with, ← hMore]
  constructor
  · simp only [List.length_append]
    omega
  · show scan.window.data ++ seg.take room = _
    rw [List.take_append, List.take_of_length_le hCap, List.take_append_of_le_length (by omega)]

theorem Tracks.passes (h : Tracks scan skip want) (hSkip : skip ≠ 0) :
    ¬scan.offset ≤ scan.currentLine := by
  have hEq := h.skip_eq
  omega

theorem Tracks.takes (h : Tracks scan 0 want) : scan.offset ≤ scan.currentLine := by
  have hEq := h.skip_eq
  omega

theorem readScanSegment_fits (h : Tracks scan 0 want) {nl : Bool} {window : Buf kToolReadReturnCap}
    (hWindow : bufAppend scan.window seg = some window) :
    readScanSegment scan seg nl =
      if nl then
        { scan with
          window
          linesTaken := scan.linesTaken + 1
          finished := scan.finished || decide (scan.limit ≤ scan.linesTaken + 1)
          currentLine := scan.currentLine + 1 }
      else { scan with window } := by
  rw [readScanSegment, if_pos h.takes, hWindow]

theorem segment_part (h : Tracks scan skip want) (hSeg : newline ∉ seg) :
    Goes scan skip want seg (readScanSegment scan seg false) := by
  have hCount : seg.count newline = 0 := List.count_eq_zero_of_not_mem hSeg
  by_cases hSkip : skip = 0
  · subst hSkip
    have hSelect : ∀ rest, select newline 0 want (seg ++ rest) =
        seg ++ select newline 0 want rest := fun rest => select_part hSeg h.want_ne
    cases hWindow : bufAppend scan.window seg with
    | none =>
      apply segment_full h hWindow
      intro rest
      rw [hSelect]
      exact List.prefix_append _ _
    | some window =>
      rw [readScanSegment_fits h hWindow]
      rw [bufAppend_eq_some] at hWindow
      refine .on (?_ : Tracks _ 0 want) (by omega) fun rest => ?_
      · exact ⟨h.unfinished, h.notFull, h.skip_eq, h.want_eq, h.want_ne⟩
      · rw [ReadScan.with, ReadScan.with, hSelect, ← List.append_assoc]
        exact congrArg (· ++ _) hWindow.symm
  · have hSelect : ∀ rest, select newline skip want (seg ++ rest) =
        select newline skip want rest := by
      intro rest
      rw [select_part hSeg h.want_ne, if_neg hSkip, List.nil_append]
    rw [readScanSegment, if_neg (h.passes hSkip), if_neg Bool.false_ne_true]
    refine .on h (by omega) fun rest => ?_
    rw [ReadScan.with, ReadScan.with, hSelect]

/-- A line with its newline. -/
theorem segment_line (h : Tracks scan skip want) {line : Bytes} (hLine : newline ∉ line) :
    Goes scan skip want (line ++ [newline]) (readScanSegment scan (line ++ [newline]) true) := by
  have hCount : (line ++ [newline]).count newline = 1 := by
    rw [List.count_append, List.count_eq_zero_of_not_mem hLine, List.count_singleton_self]
  have hWant := h.want_ne
  have hWantEq := h.want_eq
  by_cases hSkip : skip = 0
  · subst hSkip
    have hSelect : ∀ rest, select newline 0 want (line ++ [newline] ++ rest) =
        (line ++ [newline]) ++ select newline 0 (want - 1) rest := by
      intro rest
      rw [List.append_assoc, List.singleton_append, select_line hLine hWant, if_pos rfl,
        List.append_assoc, List.singleton_append]
    cases hWindow : bufAppend scan.window (line ++ [newline]) with
    | none =>
      apply segment_full h hWindow
      intro rest
      rw [hSelect]
      exact List.prefix_append _ _
    | some window =>
      rw [readScanSegment_fits h hWindow, if_pos rfl]
      rw [bufAppend_eq_some] at hWindow
      by_cases hLast : want = 1
      · subst hLast
        refine .limit ?_ h.notFull (by omega) fun rest => ?_
        · show (scan.finished || decide (scan.limit ≤ scan.linesTaken + 1)) = true
          rw [h.unfinished, Bool.false_or, decide_eq_true_eq]
          omega
        · rw [ReadScan.with, hSelect, select_zero, List.append_nil]
          exact hWindow
      · refine .on (?_ : Tracks _ 0 (want - 1)) (by omega) fun rest => ?_
        · refine ⟨?_, h.notFull, ?_, ?_, by omega⟩
          · show (scan.finished || decide (scan.limit ≤ scan.linesTaken + 1)) = false
            rw [h.unfinished, Bool.false_or, decide_eq_false_iff_not]
            omega
          · have hTakes := h.takes
            show (scan.offset - (scan.currentLine + 1)).toNat = 0
            omega
          · show scan.limit - (scan.linesTaken + 1) = ((want - 1 : Nat) : Int)
            omega
        · rw [ReadScan.with, ReadScan.with, hSelect, ← List.append_assoc]
          exact congrArg (· ++ _) hWindow.symm
  · have hSelect : ∀ rest, select newline skip want (line ++ [newline] ++ rest) =
        select newline (skip - 1) want rest := by
      intro rest
      rw [List.append_assoc, List.singleton_append, select_line hLine hWant, if_neg hSkip]
    have hSkipEq := h.skip_eq
    rw [readScanSegment, if_neg (h.passes hSkip), if_pos rfl]
    refine .on (?_ : Tracks _ (skip - 1) want) (by omega) fun rest => ?_
    · refine ⟨h.unfinished, h.notFull, ?_, hWantEq, hWant⟩
      show (scan.offset - (scan.currentLine + 1)).toNat = skip - 1
      omega
    · rw [ReadScan.with, ReadScan.with, hSelect]

theorem readScanChunk_goes (h : Tracks scan skip want) (chunk : Bytes) :
    Goes scan skip want chunk (readScanChunk scan chunk) := by
  fun_induction readScanChunk scan chunk generalizing skip want with
  | case1 scan chunk hLoop =>
    have hEmpty : chunk = [] := hLoop.resolve_right (by rw [h.unfinished]; decide)
    subst hEmpty
    exact .on h rfl fun rest => rfl
  | case2 scan chunk hLoop line =>
    have hLine : front newline chunk = chunk := front_of_drop_nil ‹_›
    have hSegment := segment_part h (notMem_front chunk)
    rw [hLine] at hSegment
    show Goes scan skip want chunk (readScanSegment scan (front newline chunk) false)
    rwa [hLine]
  | case3 scan chunk hLoop line b rest hRest =>
    rename_i ih
    obtain ⟨hb, hChunk⟩ := front_of_drop_cons hRest
    have hSegment := segment_line h (notMem_front chunk)
    have hSplit : chunk = (front newline chunk ++ [newline]) ++ rest := by
      rw [List.append_assoc, List.singleton_append, hChunk]
    rw [hb]
    have hAll : Goes scan skip want ((front newline chunk ++ [newline]) ++ rest)
        (readScanChunk (readScanSegment scan (front newline chunk ++ [newline]) true) rest) := by
      apply hSegment.append
      · intro skip' want' hMid
        rw [hb] at ih
        exact ih hMid
      · intro hFinished
        rw [readScanChunk, dif_pos (.inr hFinished)]
    rwa [← hSplit] at hAll

structure FileRead (scan : ReadScan) (skip want : Nat) (rest : Bytes) (last : ReadScan)
    (status : ReadStatus) : Prop where
  window : last.window.data =
    (scan.with skip want (rest.take (kToolReadScanCap - scan.scanned))).take kToolReadReturnCap
  full : last.windowFull = true ↔ kToolReadReturnCap <
    (scan.with skip want (rest.take (kToolReadScanCap - scan.scanned))).length
  succeeds : status = .ok ∨ status = .capped
  capped : last.windowFull = false → (status = .capped ↔
    kToolReadScanCap - scan.scanned ≤ rest.length ∧
      ¬skip + want ≤ (rest.take (kToolReadScanCap - scan.scanned)).count newline)
  scanned : 0 < last.scanned ↔ 0 < scan.scanned ∨ rest ≠ []

theorem readScanFile_finished {reads : Nat → ReadResult} {k eintr : Nat}
    (h : scan.finished = true) : readScanFile reads k eintr rest scan = (scan, .ok) := by
  rw [readScanFile, if_pos h]

theorem Tracks.stays (h : Tracks scan skip want) {status : ReadStatus}
    (hHead : rest.take (kToolReadScanCap - scan.scanned) = [])
    (hStatus : status = .ok ∨ status = .capped)
    (hCapped : status = .capped ↔ kToolReadScanCap - scan.scanned ≤ rest.length)
    (hScanned : rest ≠ [] → 0 < scan.scanned) : FileRead scan skip want rest scan status := by
  have hWith : scan.with skip want [] = scan.window.data := List.append_nil _
  have hFits := scan.window.fits
  have hWant := h.want_ne
  constructor
  · rw [hHead, hWith, List.take_of_length_le hFits]
  · rw [hHead, hWith, h.notFull]
    simpa using hFits
  · exact hStatus
  · intro _
    rw [hHead, List.count_nil, hCapped]
    omega
  · exact ⟨.inl, fun h => h.elim id hScanned⟩

/-- One chunk, and what comes of the rest of the file. -/
theorem FileRead.piece {chunk : Bytes} {status : ReadStatus}
    (hFits : chunk.length ≤ kToolReadScanCap - scan.scanned) (hChunk : chunk ≠ [])
    (hGoes : Goes (scan.count chunk.length) skip want chunk mid)
    (hScanned : mid.scanned = scan.scanned + chunk.length)
    (hNext : ∀ skip' want', Tracks mid skip' want' → FileRead mid skip' want' rest last status)
    (hStop : mid.finished = true → last = mid ∧ status = .ok) :
    FileRead scan skip want (chunk ++ rest) last status := by
  have hPos := List.length_pos_iff.mpr hChunk
  have hNe : chunk ++ rest ≠ [] := by simp [hChunk]
  have hLength : (chunk ++ rest).length = chunk.length + rest.length := List.length_append
  have hHead : (chunk ++ rest).take (kToolReadScanCap - scan.scanned) =
      chunk ++ rest.take (kToolReadScanCap - mid.scanned) := by
    rw [List.take_append, List.take_of_length_le hFits, hScanned, Nat.sub_sub]
  have hCount : ∀ tail : Bytes, (chunk ++ tail).count newline =
      chunk.count newline + tail.count newline := fun tail => List.count_append
  cases hGoes with
  | @on skip' want' hTracks hLines hWith =>
    have hWith : ∀ tail, scan.with skip want (chunk ++ tail) = mid.with skip' want' tail := hWith
    obtain ⟨hWindow, hFull, hSucceeds, hCapped, hLast⟩ := hNext skip' want' hTracks
    constructor
    · rw [hHead, hWith]
      exact hWindow
    · rw [hHead, hWith]
      exact hFull
    · exact hSucceeds
    · intro hRoom
      rw [hCapped hRoom, hHead, hCount, hLength]
      constructor
      · rintro ⟨hLong, hShort⟩
        exact ⟨by omega, by omega⟩
      · rintro ⟨hLong, hShort⟩
        exact ⟨by omega, by omega⟩
    · rw [hLast]
      exact iff_of_true (.inl (by omega)) (.inr hNe)
  | full hFinished hFull hOver =>
    obtain ⟨rfl, rfl⟩ := hStop hFinished
    obtain ⟨hLong, hWindow⟩ := hOver (rest.take (kToolReadScanCap - last.scanned))
    constructor
    · rw [hHead]
      exact hWindow
    · rw [hHead]
      exact iff_of_true hFull hLong
    · exact .inl rfl
    · intro hRoom
      rw [hFull] at hRoom
      cases hRoom
    · exact iff_of_true (by omega) (.inr hNe)
  | limit hFinished hRoom hLines hWith =>
    obtain ⟨rfl, rfl⟩ := hStop hFinished
    have hWindow : last.window.data =
        scan.with skip want (chunk ++ rest.take (kToolReadScanCap - last.scanned)) := hWith _
    have hCap := last.window.fits
    rw [hWindow] at hCap
    constructor
    · rw [hHead, List.take_of_length_le hCap, hWindow]
    · rw [hHead, hRoom]
      simpa using hCap
    · exact .inl rfl
    · intro _
      rw [hHead, hCount]
      constructor
      · nofun
      · rintro ⟨-, hShort⟩
        omega
    · exact iff_of_true (by omega) (.inr hNe)

/-- A scan that reports no error has made of the file what it should, be there a NUL behind it. -/
theorem readScanFile_sound (reads : Nat → ReadResult) (k eintr : Nat) (rest : Bytes)
    (h : Tracks scan skip want)
    (hStatus : (readScanFile reads k eintr rest scan).2 = .ok ∨
      (readScanFile reads k eintr rest scan).2 = .capped) :
    FileRead scan skip want rest (readScanFile reads k eintr rest scan).1
      (readScanFile reads k eintr rest scan).2 := by
  fun_induction readScanFile reads k eintr rest scan generalizing skip want with
  | case1 k eintr rest scan hFinished =>
    rw [h.unfinished] at hFinished
    cases hFinished
  | case2 k eintr rest scan hFinished hCap =>
    have hNone : kToolReadScanCap - scan.scanned = 0 := by omega
    apply h.stays
    · rw [hNone, List.take_zero]
    · exact .inr rfl
    · simp [hNone]
    · intro _
      have hPos : 0 < kToolReadScanCap := by decide
      omega
  | case3 k eintr rest scan hFinished hCap reason hFailed => simp at hStatus
  | case4 k eintr rest scan hFinished hCap hEintr hMore ih => exact ih h hStatus
  | case5 k eintr rest scan hFinished hCap hEintr hMore => simp at hStatus
  | case6 k eintr rest scan hFinished hCap want' n hGot =>
    rename_i hEnd
    -- at least one byte would have been read, so the file has ended
    have hRest : rest = [] := by
      have hPos : 0 < kToolReadChunk := by decide
      rcases List.take_eq_nil_iff.mp hEnd with hZero | hRest
      · omega
      · exact hRest
    subst hRest
    apply h.stays
    · exact List.take_nil
    · exact .inl rfl
    · simp only [reduceCtorEq, List.length_nil, false_iff]
      omega
    · exact fun hNe => absurd rfl hNe
  | case7 k eintr rest scan hFinished hCap want' n hGot chunk hEnd => simp at hStatus
  | case8 k eintr rest scan hFinished hCap want' n hGot chunk hEnd scan' =>
    rename_i hNul ih
    have hSplit : chunk ++ rest.drop chunk.length = rest := readBytes_append rest want' n
    have hFits : chunk.length ≤ kToolReadScanCap - scan.scanned := by
      have hTake : chunk.length ≤ min (max n 1) want' := List.length_take_le _ _
      omega
    have hTracks : Tracks (scan.count chunk.length) skip want :=
      ⟨h.unfinished, h.notFull, h.skip_eq, h.want_eq, h.want_ne⟩
    have hScanned : (readScanChunk scan' chunk).scanned = scan.scanned + chunk.length :=
      readScanChunk_scanned _ _
    have hPiece := FileRead.piece hFits hEnd (readScanChunk_goes hTracks chunk) hScanned
      (fun skip' want' hMid => ih hMid hStatus) ?_
    · rwa [hSplit] at hPiece
    · intro hFinished
      show (readScanFile reads (k + 1) 0 _ (readScanChunk (scan.count chunk.length) chunk)).1 = _ ∧
        (readScanFile reads (k + 1) 0 _ (readScanChunk (scan.count chunk.length) chunk)).2 = _
      rw [readScanFile_finished hFinished]
      exact ⟨rfl, rfl⟩

theorem readScanFile_succeeds {reads : Nat → ReadResult} {k eintr : Nat} (hReads : ReadsWell reads)
    (hFrom : ReadsWellFrom reads k eintr) (hFree : NulFree rest) :
    (readScanFile reads k eintr rest scan).2 = .ok ∨
      (readScanFile reads k eintr rest scan).2 = .capped := by
  fun_induction readScanFile reads k eintr rest scan with
  | case1 => exact .inl rfl
  | case2 => exact .inr rfl
  | case3 k eintr rest scan hFinished hCap reason hFailed =>
    exact absurd hFailed hFrom.not_failed
  | case4 k eintr rest scan hFinished hCap hEintr hMore ih =>
    exact ih (hFrom.interrupted hEintr).2 hFree
  | case5 k eintr rest scan hFinished hCap hEintr hMore =>
    exact absurd (hFrom.interrupted hEintr).1 hMore
  | case6 => exact .inl rfl
  | case7 k eintr rest scan hFinished hCap want' n hGot chunk hEnd =>
    rename_i hNul
    exact absurd (List.mem_of_mem_take hNul) hFree
  | case8 k eintr rest scan hFinished hCap want' n hGot chunk hEnd scan' =>
    rename_i hNul ih
    exact ih (hReads.start (k + 1)) fun hMem => hFree (List.mem_of_mem_drop hMem)

theorem readScanFile_reads {reads : Nat → ReadResult} {k eintr : Nat} (hReads : ReadsWell reads)
    (hFrom : ReadsWellFrom reads k eintr) (hFree : NulFree rest) (h : Tracks scan skip want) :
    FileRead scan skip want rest (readScanFile reads k eintr rest scan).1
      (readScanFile reads k eintr rest scan).2 :=
  readScanFile_sound reads k eintr rest h (readScanFile_succeeds hReads hFrom hFree)

variable {lib : JsonLib} {openFile : Bytes → FileAnswer} {args : CJson} {reads : Nat → ReadResult}
  {path file : Bytes} {offset limit : Int}

theorem optPosInt_pos {key : Bytes} {fallback value : Int} (hFallback : 1 ≤ fallback)
    (h : optPosInt lib args key fallback = some value) : 1 ≤ value := by
  rw [optPosInt] at h
  split at h
  · obtain rfl := Option.some.inj h
    exact hFallback
  · dsimp only at h
    split at h
    · cases h
    · obtain rfl := Option.some.inj h
      omega
  · cases h

/-- A call that names a regular file and a window of its lines. -/
structure RegularRead (lib : JsonLib) (openFile : Bytes → FileAnswer) (args : CJson)
    (path : Bytes) (offset limit : Int) (file : Bytes) : Prop where
  path_eq : jsonGetCstr args (ascii "path") = some path
  path_ne : path ≠ []
  offset_eq : optPosInt lib args (ascii "offset") 1 = some offset
  limit_eq : optPosInt lib args (ascii "limit") (2 ^ 63 - 1) = some limit
  opened : openFile path = .opened true file

theorem RegularRead.execute (h : RegularRead lib openFile args path offset limit file) :
    readExecute lib openFile reads args =
      match readScanFile reads 0 0 file { offset, limit } with
      | (_, .binary) => fail (ascii "read: " ++ path ++ ascii " is binary")
      | (_, .ioError reason) => fail (ascii "read: read " ++ path ++ ascii ": " ++ reason)
      | (scan, status) => succeed (readAssembleContent scan status) := by
  rw [readExecute, h.path_eq]
  dsimp only
  rw [if_neg h.path_ne, h.offset_eq, h.limit_eq, h.opened]

theorem RegularRead.tracks (h : RegularRead lib openFile args path offset limit file) :
    Tracks { offset, limit } (offset - 1).toNat limit.toNat := by
  have hLimit := optPosInt_pos (by decide) h.limit_eq
  refine ⟨rfl, rfl, rfl, ?_, by omega⟩
  show limit - 0 = (limit.toNat : Int)
  omega

theorem selected_eq (offset limit : Int) (file : Bytes) :
    selected offset limit file =
      select newline (offset - 1).toNat limit.toNat (scannedHead file) := (select_eq _).symm

/-- The note that is given is the one that applies. -/
theorem FileRead.content_eq {status : ReadStatus}
    (h : FileRead { offset, limit } (offset - 1).toNat limit.toNat file last status) :
    readAssembleContent last status = readContent offset limit file := by
  have hWith : ReadScan.with { offset, limit } (offset - 1).toNat limit.toNat (scannedHead file) =
      selected offset limit file := (selected_eq offset limit file).symm
  have hWindow : last.window.data = (selected offset limit file).take kToolReadReturnCap := by
    rw [← hWith]
    exact h.window
  have hFull : last.windowFull = true ↔
      kToolReadReturnCap < (selected offset limit file).length := by
    rw [← hWith]
    exact h.full
  have hEmpty : last.window.data = [] ↔ selected offset limit file = [] := by
    rw [hWindow, List.take_eq_nil_iff]
    exact ⟨fun hNil => hNil.resolve_left (by decide), .inr⟩
  have hScanned : 0 < last.scanned ↔ file ≠ [] := by
    rw [h.scanned]
    exact ⟨fun hAny => hAny.resolve_left (Nat.lt_irrefl 0), .inr⟩
  have hNote : (if last.windowFull then truncatedNote
      else if status = .capped then scanBoundNote
      else if last.window.data = [] ∧ 0 < last.scanned then pastEndNote
      else []) = readNote offset limit file := by
    rw [readNote]
    by_cases hLong : kToolReadReturnCap < (selected offset limit file).length
    · rw [if_pos hLong, if_pos (hFull.mpr hLong)]
    · have hRoom : last.windowFull = false := Bool.eq_false_iff.mpr (mt hFull.mp hLong)
      have hCapped : status = .capped ↔
          kToolReadScanCap ≤ file.length ∧ ¬LimitReached offset limit file := h.capped hRoom
      rw [if_neg hLong, hRoom, if_neg Bool.false_ne_true]
      simp only [hCapped, hEmpty, hScanned, and_comm]
  rw [readAssembleContent, readContent, hNote, hWindow]

theorem readScanSegment_nulFree {nl : Bool} (h : NulFree scan.window.data) (hSeg : NulFree seg) :
    NulFree (readScanSegment scan seg nl).window.data := by
  have hAppend : ∀ {part : Bytes} {window : Buf kToolReadReturnCap},
      bufAppend scan.window part = some window → NulFree part → NulFree window.data := by
    intro part window hWindow hPart
    rw [bufAppend_eq_some.mp hWindow, nulFree_append]
    exact ⟨h, hPart⟩
  unfold readScanSegment
  split
  · split
    · dsimp only
      cases hRoom : bufAppend scan.window
          (seg.take (kToolReadReturnCap - scan.window.data.length)) with
      | none => exact h
      | some window => exact hAppend hRoom fun hMem => hSeg (List.mem_of_mem_take hMem)
    · rename_i window hWindow
      have hFree := hAppend hWindow hSeg
      split
      · exact hFree
      · exact hFree
  · split
    · exact h
    · exact h

theorem readScanChunk_nulFree {chunk : Bytes} (h : NulFree scan.window.data)
    (hChunk : NulFree chunk) : NulFree (readScanChunk scan chunk).window.data := by
  fun_induction readScanChunk scan chunk with
  | case1 => exact h
  | case2 scan chunk hLoop line =>
    apply readScanSegment_nulFree h
    exact fun hMem => hChunk (List.takeWhile_subset _ hMem)
  | case3 scan chunk hLoop line b rest hRest =>
    rename_i ih
    obtain ⟨hb, hSplit⟩ := front_of_drop_cons hRest
    have hLine : (0 : Byte) ∉ line ++ [b] := by
      intro hMem
      rw [List.mem_append, List.mem_singleton, hb] at hMem
      rcases hMem with hMem | hNul
      · exact hChunk (List.takeWhile_subset _ hMem)
      · exact absurd hNul (by decide)
    apply ih (readScanSegment_nulFree h hLine)
    intro hMem
    apply hChunk
    rw [← hSplit]
    exact List.mem_append_right _ (List.mem_cons_of_mem _ hMem)

theorem readScanFile_nulFree {k eintr : Nat} (h : NulFree scan.window.data) :
    NulFree (readScanFile reads k eintr rest scan).1.window.data := by
  fun_induction readScanFile reads k eintr rest scan with
  | case1 => exact h
  | case2 => exact h
  | case3 => exact h
  | case4 k eintr rest scan hFinished hCap hEintr hMore ih => exact ih h
  | case5 => exact h
  | case6 => exact h
  | case7 => exact h
  | case8 k eintr rest scan hFinished hCap want n hGot chunk hEnd scan' =>
    rename_i hNul ih
    exact ih (readScanChunk_nulFree h hNul)

theorem readAssembleContent_nulFree {status : ReadStatus} (h : NulFree scan.window.data) :
    NulFree (readAssembleContent scan status) := by
  have hNotes : NulFree truncatedNote ∧ NulFree scanBoundNote ∧ NulFree pastEndNote := by
    decide +kernel
  have hJoiner : ∀ (p : Prop) [Decidable p], NulFree (if p then [newline] else []) := by
    intro p _
    split
    · decide
    · exact nulFree_nil
  rw [readAssembleContent, nulFree_append, nulFree_append]
  refine ⟨⟨h, hJoiner _⟩, ?_⟩
  split
  · exact hNotes.1
  split
  · exact hNotes.2.1
  split
  · exact hNotes.2.2
  · exact nulFree_nil

theorem readExecute_nulFree :
    (readExecute lib openFile reads args).isError = false →
      NulFree (readExecute lib openFile reads args).content := by
  unfold readExecute
  split
  · nofun
  split
  · nofun
  split
  · split
    · nofun
    · nofun
    · nofun
    · split
      · nofun
      · nofun
      · rename_i scan status _ _ hAnswer
        have hScan : NulFree (scan, status).1.window.data :=
          hAnswer ▸ readScanFile_nulFree nulFree_nil
        exact fun _ => readAssembleContent_nulFree hScan
  · nofun

/-- A regular file without NUL, however it is read, gives the window of its lines with the note
that applies; and nothing that is returned as read has a NUL in it. -/
theorem readExecute_sound (lib : JsonLib) (openFile : Bytes → FileAnswer) :
    (∀ args reads path offset limit file,
      RegularRead lib openFile args path offset limit file → ReadsWell reads → NulFree file →
        readExecute lib openFile reads args = succeed (readContent offset limit file)) ∧
    ∀ args reads, (readExecute lib openFile reads args).isError = false →
      NulFree (readExecute lib openFile reads args).content := by
  refine ⟨?_, fun args reads h => readExecute_nulFree h⟩
  intro args reads path offset limit file hCall hReads hFree
  have hRead := readScanFile_reads hReads (hReads.start 0) hFree hCall.tracks
  rw [hCall.execute]
  generalize readScanFile reads 0 0 file { offset, limit } = answer at hRead
  obtain ⟨last, status⟩ := answer
  have hContent := hRead.content_eq
  rcases hRead.succeeds with rfl | rfl
  · exact congrArg succeed hContent
  · exact congrArg succeed hContent

def secondLine : CJson :=
  .object [(ascii "path", .string (ascii "f")), (ascii "offset", .number (Double.ofInt 2))]

def threeLines : Bytes := ascii "ab\ncd\ne"

theorem readExecute_sound_sample (lib : JsonLib) :
    readExecute lib (fun _ => .opened true threeLines) (fun k => .got k) secondLine =
      succeed (ascii "cd\ne") := by
  have hCall : RegularRead lib (fun _ => .opened true threeLines) secondLine (ascii "f") 2
      (2 ^ 63 - 1) threeLines := by
    constructor
    · decide +kernel
    · decide
    · have hItem : secondLine.getObjectItem (ascii "offset") = some (.number (Double.ofInt 2)) :=
        (rfl)
      have hTwo : (Double.ofInt 2).toInt64 lib.castOutside = 2 := by
        have hTrunc : (Double.ofInt 2).isFinite ∧ (Double.ofInt 2).trunc = 2 := by decide +kernel
        rw [Double.toInt64, hTrunc.2, if_pos ⟨hTrunc.1, by decide, by decide⟩]
      rw [optPosInt, hItem]
      dsimp only
      rw [hTwo]
      decide
    · have hItem : secondLine.getObjectItem (ascii "limit") = none := (rfl)
      rw [optPosInt, hItem]
    · rfl
  have hReads : ReadsWell fun k => .got k := fun k => ⟨0, by decide, (fun i hi => by cases hi), k, rfl⟩
  have hContent : readContent 2 (2 ^ 63 - 1) threeLines = ascii "cd\ne" := by decide +kernel
  rw [(readExecute_sound lib _).1 _ _ _ _ _ _ hCall hReads (by decide +kernel), hContent]

end Mua.Tools
