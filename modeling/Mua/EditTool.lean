import Mua.ReadTool
import Mua.Lib.Block
import Mua.Lib.Search

/-! # The edit tool

The file is read whole into a block, its occurrences of the old string are counted by
jumps of memchr, and a single one is spliced out. Every subtraction of sizes and every
range of a block is checked here: `none` is a size that wraps or a range that leaves its
block. Sums of sizes do not wrap: the strings and the file are in memory together.
-/

namespace Mua.Tools

open Agent Session Search

def kToolEditFileCap : Nat := 4 * 1024 * 1024

def kToolEditCountCap : Nat := 100

def checkedSub (a b : Nat) : Option Nat := if b ≤ a then some (a - b) else none

/-- The position of `b` among the `n` cells from `pos` on. -/
def memchr (block : Bytes) (pos : Nat) (b : Byte) (n : Nat) : Option (Option Nat) :=
  (Block.read block pos n).map fun cells => (cells.idxOf? b).map (pos + ·)

/-- Whether `n` cells of two blocks are the same. -/
def memcmp (block : Bytes) (pos : Nat) (other : Bytes) (n : Nat) : Option Bool :=
  (Block.read block pos n).bind fun cells =>
    (Block.read other 0 n).map fun others => cells == others

/-- The counter, and `first_pos` of the caller. -/
structure Found where
  count : Nat
  first : Nat
  deriving DecidableEq, Repr

def Found.hit (found : Found) (pos : Nat) : Found where
  count := found.count + 1
  first := if found.count = 0 then pos else found.first

/-- The loop for at most so many turns, at `cursor` with `left` cells of the haystack before it. -/
def countLoop (hay needle : Bytes) (needleLen : Nat) : Nat → Nat → Nat → Found → Option Found
  | 0, _, _, _ => none
  | turns + 1, cursor, left, found =>
    if left < needleLen then some found
    else
      (checkedSub left needleLen).bind fun room =>
      (memchr hay cursor (needle.headD 0) (room + 1)).bind fun
        | none => some found
        | some hit =>
          (checkedSub hit cursor).bind fun skipped =>
          (checkedSub left skipped).bind fun left =>
          (memcmp hay hit needle needleLen).bind fun same =>
          let found := if same then found.hit hit else found
          if same ∧ kToolEditCountCap ≤ found.count then some found
          else
            (checkedSub left 1).bind fun left =>
              countLoop hay needle needleLen turns (hit + 1) left found

def countOccurrences (hay : Bytes) (hayLen : Nat) (needle : Bytes) (needleLen first : Nat) :
    Option Found :=
  if needleLen = 0 ∨ hayLen < needleLen then some ⟨0, first⟩
  else countLoop hay needle needleLen (hayLen + 1) 0 hayLen ⟨0, first⟩

structure EditSystem where
  openFile : Bytes → FileAnswer
  reads : Nat → ReadResult
  ftruncate : Option Bytes
  lseek : Option Bytes
  writes : Nat → WriteResult
  close : Option Bytes
  fresh : Nat → Byte

def EditSystem.xmalloc (sys : EditSystem) (size : Nat) : Bytes := (List.range size).map sys.fresh

/-- The reading loop: `rest` is what the file holds past the offset of the descriptor. -/
def editRead (reads : Nat → ReadResult) (size k eintr gotTotal : Nat) (rest block : Bytes) :
    Option (Except Bytes (Bytes × Nat)) :=
  if _hMore : gotTotal < size then
    match reads k with
    | .failed reason => some (.error reason)
    | .eintr =>
      if eintr + 1 ≤ kToolEintrMax then editRead reads size (k + 1) (eintr + 1) gotTotal rest block
      else some (.error (ascii "Interrupted system call"))
    | .got n =>
      let chunk := readBytes rest (size - gotTotal) n
      -- shrank under us; edit what arrived
      if _hEnd : chunk = [] then some (.ok (block, gotTotal))
      else
        match Block.write block gotTotal chunk with
        | none => none
        | some block =>
          editRead reads size (k + 1) 0 (gotTotal + chunk.length) (rest.drop chunk.length) block
  else some (.ok (block, gotTotal))
termination_by (size - gotTotal, kToolEintrMax - eintr)
decreasing_by
  · exact Prod.Lex.right _ (by omega)
  · have hPos := List.length_pos_iff.mpr _hEnd
    exact Prod.Lex.left _ _ (Nat.sub_lt_sub_left _hMore (Nat.lt_add_of_pos_right hPos))

def editOpenAndRead (sys : EditSystem) (path : Bytes) :
    Option (Except ToolResult (Bytes × Nat)) :=
  match sys.openFile path with
  | .openFailed reason =>
    some (.error (fail (ascii "edit: cannot open " ++ path ++ ascii ": " ++ reason)))
  | .statFailed reason =>
    some (.error (fail (ascii "edit: stat " ++ path ++ ascii ": " ++ reason)))
  | .opened false _ =>
    some (.error (fail (ascii "edit: " ++ path ++ ascii " is not a regular file")))
  | .opened true file =>
    if kToolEditFileCap < file.length then
      some (.error (fail (ascii "edit: " ++ path ++ ascii " exceeds the 4 MiB edit cap")))
    else
      (editRead sys.reads file.length 0 0 0 file (sys.xmalloc (max file.length 1))).map fun answer =>
        answer.mapError fun reason => fail (ascii "edit: read " ++ path ++ ascii ": " ++ reason)

/-- A regular file with the offset of its descriptor. -/
structure OpenFile where
  content : Bytes
  offset : Nat
  deriving DecidableEq, Repr

/-- write(2) at the offset; a file that ends before it is filled up with NUL. -/
def OpenFile.put (f : OpenFile) (bytes : Bytes) : OpenFile where
  content := f.content.take f.offset ++ List.replicate (f.offset - f.content.length) 0 ++ bytes ++
    f.content.drop (f.offset + bytes.length)
  offset := f.offset + bytes.length

/-- What `write_all` leaves of the file, with the reason if it gave up. -/
def writeAll (writes : Nat → WriteResult) (data : Bytes) (len k eintr written : Nat) (f : OpenFile) :
    Option (OpenFile × Option Bytes) :=
  if _hMore : written < len then
    match writes k with
    | .failed reason => some (f, some reason)
    | .eintr =>
      if eintr + 1 ≤ kToolEintrMax then writeAll writes data len (k + 1) (eintr + 1) written f
      else some (f, some (ascii "Interrupted system call"))
    | .wrote n =>
      match Block.read data written (len - written) with
      | none => none
      | some bytes =>
        let got := min n bytes.length
        -- no progress and no error
        if _hGot : got = 0 then some (f, some (ascii "Input/output error"))
        else writeAll writes data len (k + 1) 0 (written + got) (f.put (bytes.take got))
  else some (f, none)
termination_by (len - written, kToolEintrMax - eintr)
decreasing_by
  · exact Prod.Lex.right _ (by omega)
  · have hPos := Nat.pos_of_ne_zero _hGot
    exact Prod.Lex.left _ _ (Nat.sub_lt_sub_left _hMore (Nat.lt_add_of_pos_right hPos))

/-- The result if the rewrite fails, and what is then in the file. -/
def editRewrite (sys : EditSystem) (path : Bytes) (f : OpenFile) (data : Bytes) (len : Nat) :
    Option (Option ToolResult × Bytes) :=
  match sys.ftruncate with
  | some reason =>
    some (some (fail (ascii "edit: truncate " ++ path ++ ascii ": " ++ reason)), f.content)
  | none =>
    let f := { f with content := [] }
    match sys.lseek with
    | some reason =>
      some (some (fail (ascii "edit: seek " ++ path ++ ascii ": " ++ reason)), f.content)
    | none =>
      (writeAll sys.writes data len 0 0 0 { f with offset := 0 }).map fun
        | (f, some reason) =>
          (some (fail (ascii "edit: write " ++ path ++ ascii ": " ++ reason)), f.content)
        | (f, none) =>
          match sys.close with
          | some reason =>
            (some (fail (ascii "edit: close " ++ path ++ ascii ": " ++ reason)), f.content)
          | none => (none, f.content)

def editSplice (sys : EditSystem) (data : Bytes) (fileLen first : Nat) (new : Bytes)
    (oldLen newLen : Nat) : Option (Bytes × Nat) :=
  (checkedSub fileLen oldLen).bind fun kept =>
  let resultLen := kept + newLen
  let result := sys.xmalloc (max resultLen 1)
  (Block.read data 0 first).bind fun front =>
  (Block.write result 0 front).bind fun result =>
  (Block.read new 0 newLen).bind fun middle =>
  (Block.write result first middle).bind fun result =>
  (checkedSub fileLen first).bind fun behind =>
  (checkedSub behind oldLen).bind fun tail =>
  (Block.read data (first + oldLen) tail).bind fun back =>
  (Block.write result (first + newLen) back).map fun result => (result, resultLen)

def notFound (path : Bytes) : ToolResult := fail (ascii "edit: old_string not found in " ++ path)

def notUnique (count : Nat) (path : Bytes) : ToolResult :=
  fail (ascii "edit: old_string occurs " ++ decimal count ++
    (if kToolEditCountCap ≤ count then ascii "+" else []) ++ ascii " times in " ++ path ++
    ascii " (must be unique)")

def replaced (path : Bytes) : ToolResult := succeed (ascii "edit: replaced 1 occurrence in " ++ path)

def EditSystem.content (sys : EditSystem) (path : Bytes) : Bytes :=
  match sys.openFile path with
  | .opened _ file => file
  | _ => []

/-- The work on a file: the result, and what the file has in it then. -/
def editFile (sys : EditSystem) (path old new : Bytes) : Option (ToolResult × Bytes) :=
  let file := sys.content path
  (editOpenAndRead sys path).bind fun
    | .error result => some (result, file)
    | .ok (data, fileLen) =>
      (countOccurrences data fileLen (old ++ [0]) old.length 0).bind fun found =>
        if found.count = 1 then
          (editSplice sys data fileLen found.first (new ++ [0]) old.length new.length).bind
            fun (result, resultLen) =>
            (editRewrite sys path ⟨file, fileLen⟩ result resultLen).map fun (failed, file) =>
              (failed.getD (replaced path), file)
        else if found.count = 0 then some (notFound path, file)
        else some (notUnique found.count path, file)

def editExecute (sys : EditSystem) (args : CJson) : Option (ToolResult × Option Bytes) :=
  let refuse (msg : String) := some (fail (ascii msg), none)
  match jsonGetCstr args (ascii "path") with
  | none => refuse "edit: path is required"
  | some path =>
    if path = [] then refuse "edit: path is required"
    else
      match jsonGetCstr args (ascii "old_string"), jsonGetCstr args (ascii "new_string") with
      | some old, some new =>
        if old = [] then refuse "edit: old_string is empty"
        else if old = new then refuse "edit: old_string and new_string are identical"
        else (editFile sys path old new).map fun (result, file) => (result, some file)
      | _, _ => refuse "edit: old_string and new_string are required"

variable {hay needle file word : Bytes} {needleLen turns cursor left pos n : Nat} {found : Found}

theorem checkedSub_of_le {a b : Nat} (h : b ≤ a) : checkedSub a b = some (a - b) := if_pos h

theorem read_front (hFile : file <+: hay) (hRange : pos + n ≤ file.length) :
    Block.read hay pos n = some ((file.drop pos).take n) := by
  obtain ⟨more, rfl⟩ := hFile
  rw [Block.read_eq_some (by rw [List.length_append]; omega),
    List.drop_append_of_le_length (by omega),
    List.take_append_of_le_length (by rw [List.length_drop]; omega)]

inductive Memchr (file : Bytes) (pos : Nat) (b : Byte) (n : Nat) : Option Nat → Prop
  | none (hNone : ∀ i, pos ≤ i → i < pos + n → file[i]? ≠ some b) : Memchr file pos b n none
  | some {hit : Nat} (hFrom : pos ≤ hit) (hTo : hit < pos + n)
      (hFirst : ∀ i, pos ≤ i → i < hit → file[i]? ≠ some b) : Memchr file pos b n (some hit)

theorem memchr_front (hFile : file <+: hay) (hRange : pos + n ≤ file.length) (b : Byte) :
    ∃ hit, memchr hay pos b n = some hit ∧ Memchr file pos b n hit := by
  have hCell : ∀ i, pos ≤ i → i < pos + n → ((file.drop pos).take n)[i - pos]? = file[i]? := by
    intro i hFrom hTo
    rw [List.getElem?_take_of_lt (by omega), List.getElem?_drop, Nat.add_sub_cancel' hFrom]
  rw [memchr, read_front hFile hRange, Option.map_some]
  refine ⟨_, rfl, ?_⟩
  cases hIdx : ((file.drop pos).take n).idxOf? b with
  | none =>
    rw [List.idxOf?_eq_none_iff] at hIdx
    refine .none fun i hFrom hTo hAt => hIdx ?_
    rw [← hCell i hFrom hTo] at hAt
    exact List.mem_of_getElem? hAt
  | some k =>
    obtain ⟨hk, -, hBefore⟩ := List.idxOf?_eq_some_iff.mp hIdx
    rw [List.length_take] at hk
    change Memchr file pos b n (some (pos + k))
    refine .some (Nat.le_add_right pos k) (by omega) fun i hFrom hTo hAt => ?_
    rw [← hCell i hFrom (by omega)] at hAt
    obtain ⟨hi, hAt⟩ := List.getElem?_eq_some_iff.mp hAt
    exact hBefore (i - pos) (by omega) hAt

theorem memcmp_front (hFile : file <+: hay) (hWord : word <+: needle)
    (hRange : pos + word.length ≤ file.length) :
    memcmp hay pos needle word.length = some (decide (Occurs word file pos)) := by
  rw [memcmp, read_front hFile hRange, Option.bind_some,
    read_front hWord (by rw [Nat.zero_add]), Option.map_some, List.drop_zero, List.take_length,
    Option.some.injEq, Bool.eq_iff_iff, beq_iff_eq, decide_eq_true_eq, occurs_iff_take]

/-- A search that has found the positions `ps` after those counted so far. -/
def Found.add (found : Found) (ps : List Nat) : Found where
  count := min kToolEditCountCap (found.count + ps.length)
  first := if found.count = 0 then ps.headD found.first else found.first

theorem Found.add_nil (h : found.count < kToolEditCountCap) : found.add [] = found := by
  rw [add, List.length_nil, Nat.add_zero, Nat.min_eq_right (Nat.le_of_lt h), List.headD_nil, ite_self]

theorem Found.add_cons (ps : List Nat) : found.add (pos :: ps) = (found.hit pos).add ps := by
  have hCount : found.count + (ps.length + 1) = found.count + 1 + ps.length := by omega
  rw [add, add, hit, List.length_cons, hCount, List.headD_cons,
    if_neg (Nat.succ_ne_zero found.count)]

theorem Found.add_full (h : kToolEditCountCap ≤ found.count) (hHit : found.count ≠ 0)
    (ps : List Nat) (hCap : found.count ≤ kToolEditCountCap) : found.add ps = found := by
  rw [add, Nat.min_eq_left (by omega), if_neg hHit, Nat.le_antisymm h hCap]

/-- The loop counts the occurrences that are still to come. -/
theorem countLoop_eq (hFile : file <+: hay) (hWord : word <+: needle) (hNe : word ≠ [])
    (hLeft : cursor + left = file.length) (hTurns : left < turns)
    (hCount : found.count < kToolEditCountCap) :
    countLoop hay needle word.length turns cursor left found =
      some (found.add (positionsFrom word file cursor)) := by
  induction turns generalizing cursor left found with
  | zero => omega
  | succ turns ih =>
    obtain ⟨c, rest, rfl⟩ := List.exists_cons_of_ne_nil hNe
    rw [countLoop]
    split
    · rename_i hShort
      rw [positionsFrom_short hNe (by omega), Found.add_nil hCount]
    rename_i hRoom
    have hPos : 0 < (c :: rest).length := List.length_pos_iff.mpr hNe
    have hHead : needle.headD 0 = c := by
      obtain ⟨more, rfl⟩ := hWord
      rfl
    obtain ⟨answer, hAnswer, hMemchr⟩ :=
      memchr_front hFile
        (by omega : cursor + (left - (c :: rest).length + 1) ≤ file.length) c
    rw [checkedSub_of_le (Nat.le_of_not_lt hRoom), Option.bind_some, hHead, hAnswer,
      Option.bind_some]
    cases hMemchr with
    | none hNone =>
      have hEmpty : positionsFrom (c :: rest) file cursor = [] :=
        positionsFrom_none hNe fun i hi hFits hOccurs => hNone i hi (by omega) hOccurs.head
      rw [hEmpty, Found.add_nil hCount]
    | @some hit hFrom hTo hFirst =>
      -- no occurrence begins before the byte that was found
      have hSkip : positionsFrom (c :: rest) file cursor = positionsFrom (c :: rest) file hit :=
        positionsFrom_skip hFrom (by omega) fun i hi hLt hOccurs => hFirst i hi hLt hOccurs.head
      have hStep : positionsFrom (c :: rest) file hit = _ := positionsFrom_of_lt (by omega)
      dsimp only
      rw [checkedSub_of_le hFrom, Option.bind_some, checkedSub_of_le (by omega), Option.bind_some,
        memcmp_front hFile hWord (by omega), Option.bind_some, checkedSub_of_le (by omega),
        Option.bind_some, hSkip, hStep]
      by_cases hOccurs : Occurs (c :: rest) file hit
      · simp only [hOccurs, decide_true, if_true, true_and]
        rw [Found.add_cons]
        split
        · rename_i hFull
          exact congrArg some (Found.add_full hFull (Nat.succ_ne_zero _) _ hCount).symm
        · rename_i hFull
          exact ih (by omega) (by omega) (Nat.lt_of_not_le hFull)
      · simp only [hOccurs, decide_false, Bool.false_eq_true, if_false, false_and]
        exact ih (by omega) (by omega) hCount

theorem countOccurrences_eq (hFile : file <+: hay) (hWord : word <+: needle) (hNe : word ≠ [])
    (first : Nat) :
    countOccurrences hay file.length needle word.length first =
      some (Found.add ⟨0, first⟩ (positions word file)) := by
  have hLength : word.length ≠ 0 := mt List.length_eq_zero_iff.mp hNe
  rw [countOccurrences]
  split
  · rename_i hNone
    rw [positions, positionsFrom_short hNe (by omega)]
    rfl
  · exact countLoop_eq hFile hWord hNe (Nat.zero_add _) (Nat.lt_succ_self _)
      (by decide : 0 < kToolEditCountCap)

variable {reads : Nat → ReadResult} {writes : Nat → WriteResult} {k eintr gotTotal size : Nat}
  {rest block text data : Bytes} {sys : EditSystem} {path old new : Bytes} {first : Nat}

theorem readBytes_fits (hGot : gotTotal ≤ file.length) (n : Nat) :
    gotTotal + (readBytes rest (file.length - gotTotal) n).length ≤ file.length := by
  rw [readBytes, List.length_take]
  omega

/-- No cell outside the block is written, and what is taken for the file is the file. -/
theorem editRead_sound (reads : Nat → ReadResult) (k eintr : Nat)
    (hRest : file.drop gotTotal = rest) (hGot : gotTotal ≤ file.length)
    (hBlock : file.take gotTotal <+: block) (hRoom : file.length ≤ block.length) :
    (∃ reason, editRead reads file.length k eintr gotTotal rest block = some (.error reason)) ∨
      ∃ block', editRead reads file.length k eintr gotTotal rest block =
        some (.ok (block', file.length)) ∧ file <+: block' := by
  fun_induction editRead reads file.length k eintr gotTotal rest block with
  | case1 => exact .inl ⟨_, rfl⟩
  | case2 k eintr gotTotal rest block hMore hEintr hRetry ih => exact ih hRest hGot hBlock hRoom
  | case3 => exact .inl ⟨_, rfl⟩
  | case4 k eintr gotTotal rest block hMore n hAnswer =>
    rename_i hEnd
    -- the file has not ended, so a byte would have come
    have hLength := congrArg List.length hRest
    rw [List.length_drop] at hLength
    rcases List.take_eq_nil_iff.mp hEnd with hZero | rfl
    · omega
    · rw [List.length_nil] at hLength
      omega
  | case5 k eintr gotTotal rest block hMore n hAnswer chunk hEnd hWrite =>
    have hFits : gotTotal + chunk.length ≤ file.length := readBytes_fits hGot n
    rw [Block.write_eq_none_iff] at hWrite
    omega
  | case6 k eintr gotTotal rest block hMore n hAnswer chunk hEnd block' hWrite ih =>
    have hFits : gotTotal + chunk.length ≤ file.length := readBytes_fits hGot n
    have hTake : file.take (gotTotal + chunk.length) = file.take gotTotal ++ chunk := by
      rw [List.take_add, hRest]
      congr 1
      exact (List.prefix_iff_eq_take.mp (List.take_prefix _ _)).symm
    have hLength : (file.take gotTotal).length = gotTotal := List.length_take_of_le hGot
    obtain ⟨mid, hMid, hSize, hFront⟩ := Block.write_behind chunk hBlock (by omega)
    rw [hLength, hWrite, Option.some.injEq] at hMid
    subst hMid
    refine ih ?_ hFits (hTake ▸ hFront) (hSize ▸ hRoom)
    rw [← hRest, List.drop_drop]
  | case7 k eintr gotTotal rest block hMore =>
    obtain rfl : gotTotal = file.length := by omega
    exact .inr ⟨block, rfl, by rwa [List.take_length] at hBlock⟩

theorem editRead_succeeds {reason : Bytes} (hReads : ReadsWell reads)
    (hFrom : ReadsWellFrom reads k eintr) :
    editRead reads size k eintr gotTotal rest block ≠ some (.error reason) := by
  fun_induction editRead reads size k eintr gotTotal rest block with
  | case1 k eintr gotTotal rest block hMore reason' hFailed =>
    exact absurd hFailed hFrom.not_failed
  | case2 k eintr gotTotal rest block hMore hEintr hRetry ih =>
    exact ih (hFrom.interrupted hEintr).2
  | case3 k eintr gotTotal rest block hMore hEintr hRetry =>
    exact absurd (hFrom.interrupted hEintr).1 hRetry
  | case4 => nofun
  | case5 => nofun
  | case6 k eintr gotTotal rest block hMore n hAnswer chunk hEnd block' hWrite ih =>
    exact ih (hReads.start (k + 1))
  | case7 => nofun

theorem editRead_reads (hReads : ReadsWell reads) (hFrom : ReadsWellFrom reads k eintr)
    (hRest : file.drop gotTotal = rest) (hGot : gotTotal ≤ file.length)
    (hBlock : file.take gotTotal <+: block) (hRoom : file.length ≤ block.length) :
    ∃ block', editRead reads file.length k eintr gotTotal rest block =
        some (.ok (block', file.length)) ∧ file <+: block' := by
  refine (editRead_sound reads k eintr hRest hGot hBlock hRoom).resolve_left ?_
  rintro ⟨reason, hError⟩
  exact editRead_succeeds hReads hFrom hError

/-- A write that makes progress is answered as a read that delivers. -/
def asRead : WriteResult → ReadResult
  | .wrote 0 => .failed (ascii "Input/output error")
  | .wrote n => .got n
  | .eintr => .eintr
  | .failed reason => .failed reason

/-- write(2) makes progress, and no more than `kToolEintrMax` interrupts come in a row. -/
def WritesWell (writes : Nat → WriteResult) : Prop := ReadsWell fun k => asRead (writes k)

theorem OpenFile.put_end (text bytes : Bytes) :
    OpenFile.put ⟨text, text.length⟩ bytes = ⟨text ++ bytes, text.length + bytes.length⟩ := by
  simp [put]

/-- A file that is written from its start has a front of the text in it, or all of it. -/
theorem writeAll_sound (writes : Nat → WriteResult) (k eintr : Nat) {written : Nat}
    (hText : text <+: data) (hWritten : written ≤ text.length) :
    (∃ f reason, writeAll writes data text.length k eintr written ⟨text.take written, written⟩ =
        some (f, some reason) ∧ f.content <+: text) ∨
      writeAll writes data text.length k eintr written ⟨text.take written, written⟩ =
        some (⟨text, text.length⟩, none) := by
  generalize hf : (⟨text.take written, written⟩ : OpenFile) = f
  have hTorn : f.content <+: text := hf ▸ List.take_prefix _ _
  fun_induction writeAll writes data text.length k eintr written f with
  | case1 => exact .inl ⟨_, _, rfl, hTorn⟩
  | case2 k eintr written f hMore hEintr hRetry ih => exact ih hWritten hf hTorn
  | case3 => exact .inl ⟨_, _, rfl, hTorn⟩
  | case4 k eintr written f hMore n hAnswer hRead =>
    rw [read_front hText (by omega)] at hRead
    cases hRead
  | case5 => exact .inl ⟨_, _, rfl, hTorn⟩
  | case6 k eintr written f hMore n hAnswer bytes hRead got hGot ih =>
    rw [read_front hText (by omega)] at hRead
    obtain rfl := Option.some.inj hRead
    have hGotLe : got ≤ text.length - written := by
      have hLe : got ≤ ((text.drop written).take (text.length - written)).length :=
        Nat.min_le_right _ _
      rw [List.length_take] at hLe
      omega
    have hPiece : ((text.drop written).take (text.length - written)).take got =
        (text.drop written).take got := by
      rw [List.take_take, Nat.min_eq_left hGotLe]
    have hOffset : (text.take written).length = written := List.length_take_of_le hWritten
    have hLength : ((text.drop written).take got).length = got := by
      rw [List.length_take, List.length_drop, Nat.min_eq_left hGotLe]
    have hNext : (⟨text.take (written + got), written + got⟩ : OpenFile) =
        f.put (((text.drop written).take (text.length - written)).take got) := by
      have hPut := OpenFile.put_end (text.take written) ((text.drop written).take got)
      rw [hOffset, hLength] at hPut
      rw [← hf, hPiece, List.take_add, hPut]
    refine ih (by omega) hNext ?_
    rw [← hNext]
    exact List.take_prefix _ _
  | case7 k eintr written f hMore =>
    obtain rfl : written = text.length := by omega
    rw [List.take_length] at hf
    exact .inr (hf ▸ rfl)

theorem writeAll_succeeds {len written : Nat} {f f' : OpenFile} {reason : Bytes}
    (hWrites : WritesWell writes) (hFrom : ReadsWellFrom (fun k => asRead (writes k)) k eintr) :
    writeAll writes data len k eintr written f ≠ some (f', some reason) := by
  fun_induction writeAll writes data len k eintr written f with
  | case1 k eintr written f hMore reason' hFailed =>
    exact absurd (congrArg asRead hFailed) hFrom.not_failed
  | case2 k eintr written f hMore hEintr hRetry ih =>
    exact ih (hFrom.interrupted (congrArg asRead hEintr)).2
  | case3 k eintr written f hMore hEintr hRetry =>
    exact absurd (hFrom.interrupted (congrArg asRead hEintr)).1 hRetry
  | case4 => nofun
  | case5 k eintr written f hMore n hAnswer bytes hRead got hZero =>
    have hBytes := Block.length_read hRead
    obtain rfl : n = 0 := by omega
    exact absurd (congrArg asRead hAnswer) hFrom.not_failed
  | case6 k eintr written f hMore n hAnswer bytes hRead got hGot ih =>
    exact ih (hWrites.start (k + 1))
  | case7 => nofun

theorem writeAll_writes {written : Nat} (hWrites : WritesWell writes)
    (hFrom : ReadsWellFrom (fun k => asRead (writes k)) k eintr) (hText : text <+: data)
    (hWritten : written ≤ text.length) :
    writeAll writes data text.length k eintr written ⟨text.take written, written⟩ =
      some (⟨text, text.length⟩, none) := by
  refine (writeAll_sound writes k eintr hText hWritten).resolve_left ?_
  rintro ⟨f, reason, hError, -⟩
  exact writeAll_succeeds hWrites hFrom hError

theorem editSplice_eq (sys : EditSystem) (new : Bytes) (hFile : file <+: data)
    (hOccurs : Occurs old file first) (hOld : old ≠ []) :
    ∃ result, editSplice sys data file.length first (new ++ [0]) old.length new.length =
        some (result, (file.take first ++ new ++ file.drop (first + old.length)).length) ∧
      file.take first ++ new ++ file.drop (first + old.length) <+: result := by
  have hFits := hOccurs.fits hOld
  have hPos := List.length_pos_iff.mpr hOld
  have hFront : (file.take first).length = first := List.length_take_of_le (by omega)
  have hBack : (file.drop (first + old.length)).length = file.length - first - old.length := by
    rw [List.length_drop]
    omega
  have hTail : (file.drop (first + old.length)).take (file.length - first - old.length) =
      file.drop (first + old.length) := List.take_of_length_le (Nat.le_of_eq hBack)
  have hResult : (sys.xmalloc (max (file.length - old.length + new.length) 1)).length =
      max (file.length - old.length + new.length) 1 := by
    rw [EditSystem.xmalloc, List.length_map, List.length_range]
  obtain ⟨one, hOne, hOneLength, hOneFront⟩ :=
    Block.write_behind (file.take first) (List.nil_prefix (l := sys.xmalloc _))
      (by rw [hResult, hFront, List.length_nil]; omega)
  obtain ⟨two, hTwo, hTwoLength, hTwoFront⟩ :=
    Block.write_behind new hOneFront
      (by rw [hOneLength, hResult, List.nil_append, hFront]; omega)
  obtain ⟨three, hThree, -, hThreeFront⟩ :=
    Block.write_behind (file.drop (first + old.length)) hTwoFront
      (by rw [hTwoLength, hOneLength, hResult, List.nil_append, List.length_append, hFront, hBack]; omega)
  rw [List.nil_append] at hTwo hThree hThreeFront
  rw [hFront] at hTwo
  rw [List.length_append, hFront] at hThree
  refine ⟨three, ?_, hThreeFront⟩
  have hLength : (file.take first ++ new ++ file.drop (first + old.length)).length =
      file.length - old.length + new.length := by
    simp only [List.length_append, hFront, hBack]
    omega
  rw [editSplice, checkedSub_of_le (by omega), Option.bind_some, read_front hFile (by omega),
    Option.bind_some, List.drop_zero, show Block.write _ 0 (file.take first) = _ from hOne, Option.bind_some,
    read_front (List.prefix_append new [0]) (by omega), Option.bind_some, List.drop_zero,
    List.take_length, hTwo, Option.bind_some, checkedSub_of_le (by omega), Option.bind_some,
    checkedSub_of_le (by omega), Option.bind_some, read_front hFile (by omega), Option.bind_some,
    hTail, hThree, Option.map_some, hLength]

structure EditSystem.Succeeds (sys : EditSystem) : Prop where
  reads : ReadsWell sys.reads
  ftruncate : sys.ftruncate = none
  lseek : sys.lseek = none
  writes : WritesWell sys.writes
  close : sys.close = none

/-- A call that names a regular file under the cap and two strings that are not the same. -/
structure RegularEdit (sys : EditSystem) (args : CJson) (path old new file : Bytes) : Prop where
  path_eq : jsonGetCstr args (ascii "path") = some path
  path_ne : path ≠ []
  old_eq : jsonGetCstr args (ascii "old_string") = some old
  new_eq : jsonGetCstr args (ascii "new_string") = some new
  old_ne : old ≠ []
  differ : old ≠ new
  opened : sys.openFile path = .opened true file
  fits : file.length ≤ kToolEditFileCap

variable {args : CJson}

theorem RegularEdit.execute (h : RegularEdit sys args path old new file) :
    editExecute sys args =
      (editFile sys path old new).map fun (result, file) => (result, some file) := by
  rw [editExecute, h.path_eq]
  dsimp only
  rw [if_neg h.path_ne, h.old_eq, h.new_eq]
  dsimp only
  rw [if_neg h.old_ne, if_neg h.differ]

theorem RegularEdit.read (h : RegularEdit sys args path old new file) (hSys : sys.Succeeds) :
    ∃ data, editOpenAndRead sys path = some (.ok (data, file.length)) ∧ file <+: data := by
  have hRoom : file.length ≤ (sys.xmalloc (max file.length 1)).length := by
    rw [EditSystem.xmalloc, List.length_map, List.length_range]
    exact Nat.le_max_left _ _
  obtain ⟨data, hRead, hFront⟩ := editRead_reads hSys.reads (hSys.reads.start 0)
    (List.drop_zero (l := file)) (Nat.zero_le _) List.nil_prefix hRoom
  refine ⟨data, ?_, hFront⟩
  rw [editOpenAndRead, h.opened]
  dsimp only
  rw [if_neg (Nat.not_lt.mpr h.fits), hRead]
  rfl

theorem editRewrite_succeeds (hSys : sys.Succeeds) (hText : text <+: data) (f : OpenFile) :
    editRewrite sys path f data text.length = some (none, text) := by
  have hWrite := writeAll_writes hSys.writes (hSys.writes.start 0) hText
    (Nat.zero_le text.length)
  rw [List.take_zero] at hWrite
  rw [editRewrite, hSys.ftruncate]
  dsimp only
  rw [hSys.lseek]
  dsimp only
  rw [hWrite, Option.map_some]
  dsimp only
  rw [hSys.close]

/-- The file is rewritten when there is one occurrence, and otherwise stays. -/
theorem RegularEdit.editFile_eq (h : RegularEdit sys args path old new file)
    (hSys : sys.Succeeds) :
    editFile sys path old new = some
      (match positions old file with
        | [] => (notFound path, file)
        | [p] => (replaced path, file.take p ++ new ++ file.drop (p + old.length))
        | _ :: _ :: ps => (notUnique (min kToolEditCountCap (ps.length + 2)) path, file)) := by
  obtain ⟨data, hRead, hFront⟩ := h.read hSys
  have hContent : sys.content path = file := by rw [EditSystem.content, h.opened]
  rw [editFile, hRead, Option.bind_some, hContent]
  dsimp only
  rw [countOccurrences_eq hFront (List.prefix_append old [0]) h.old_ne, Option.bind_some]
  cases hPositions : positions old file with
  | nil => rfl
  | cons p ps =>
    cases ps with
    | nil =>
      have hOccurs : Occurs old file p := by
        rw [← mem_positions h.old_ne, hPositions]
        exact List.mem_singleton_self p
      obtain ⟨result, hSplice, hText⟩ := editSplice_eq sys new hFront hOccurs h.old_ne
      have hCount : (Found.add ⟨0, 0⟩ [p]).count = 1 := rfl
      have hFirst : (Found.add ⟨0, 0⟩ [p]).first = p := rfl
      rw [if_pos hCount, hFirst, hSplice, Option.bind_some]
      dsimp only
      rw [editRewrite_succeeds hSys hText]
      rfl
    | cons q ps =>
      have hCount : (Found.add ⟨0, 0⟩ (p :: q :: ps)).count =
          min kToolEditCountCap (ps.length + 2) := by
        rw [Found.add, Nat.zero_add]
        rfl
      have hCap : 1 < kToolEditCountCap := by decide
      rw [hCount, if_neg (by omega), if_neg (by omega)]

/-- The counter gives the number of occurrences up to its cap, and the least of them. With one
occurrence the file is rewritten around it; with none, or with several, the call reports an error
and the file stays. No range leaves its block and no size wraps on the way. -/
theorem editExecute_sound :
    (∀ hay needle file word : Bytes, ∀ first, file <+: hay → word <+: needle → word ≠ [] →
      ∃ found, countOccurrences hay file.length needle word.length first = some found ∧
        found.count = min 100 (positions word file).length ∧
        ∀ p, IsLeast {q | Occurs word file q} p → found.first = p) ∧
    ∀ sys args path old new file, EditSystem.Succeeds sys →
      RegularEdit sys args path old new file →
        (∀ p, positions old file = [p] → editExecute sys args =
          some (replaced path, some (file.take p ++ new ++ file.drop (p + old.length)))) ∧
        ((positions old file).length ≠ 1 →
          ∃ msg, editExecute sys args = some (fail msg, some file)) := by
  refine ⟨fun hay needle file word first hFile hWord hNe => ?_, fun sys args path old new file hSys h => ?_⟩
  · refine ⟨_, countOccurrences_eq hFile hWord hNe first, ?_, fun p hp => ?_⟩
    · rw [Found.add, Nat.zero_add]
      rfl
    · rw [Found.add, if_pos rfl]
      cases hPositions : positions word file with
      | nil =>
        have hMem := (mem_positions hNe).mpr hp.1
        rw [hPositions] at hMem
        cases hMem
      | cons q ps => exact (isLeast_of_positions hNe hPositions).unique hp
  · rw [h.execute, h.editFile_eq hSys, Option.map_some]
    constructor
    · intro p hp
      rw [hp]
    · intro hCount
      cases hPositions : positions old file with
      | nil => exact ⟨_, rfl⟩
      | cons p ps =>
        cases ps with
        | nil =>
          rw [hPositions] at hCount
          exact absurd rfl hCount
        | cons q ps => exact ⟨_, rfl⟩

def deleteWord : CJson :=
  .object [(ascii "path", .string (ascii "f")), (ascii "old_string", .string (ascii "aba")),
    (ascii "new_string", .string [])]

/-- Reads and writes of two bytes at a time, on new memory full of NUL. -/
def stepwise (file : Bytes) : EditSystem where
  openFile := fun _ => .opened true file
  reads := fun _ => .got 2
  ftruncate := none
  lseek := none
  writes := fun _ => .wrote 2
  close := none
  fresh := fun _ => 0

theorem editExecute_sound_sample :
    (∃ found, countOccurrences (ascii "ababa") 5 (ascii "aba\x00") 3 7 = some found ∧
      found.count = 2 ∧ found.first = 0) ∧
    editExecute (stepwise (ascii "xaba")) deleteWord =
      some (replaced (ascii "f"), some (ascii "x")) ∧
    ∃ msg, editExecute (stepwise (ascii "ababa")) deleteWord =
      some (fail msg, some (ascii "ababa")) := by
  have hSys : ∀ file, (stepwise file).Succeeds := fun file =>
    ⟨fun k => ⟨0, by decide, nofun, 2, rfl⟩, rfl, rfl, fun k => ⟨0, by decide, nofun, 2, rfl⟩, rfl⟩
  have hCall : ∀ file, file.length ≤ kToolEditFileCap →
      RegularEdit (stepwise file) deleteWord (ascii "f") (ascii "aba") [] file := by
    intro file hFits
    exact ⟨by decide +kernel, by decide +kernel, by decide +kernel, by decide +kernel,
      by decide +kernel, by decide +kernel, rfl, hFits⟩
  refine ⟨?_, ?_, ?_⟩
  · obtain ⟨found, hFound, hCount, hFirst⟩ := editExecute_sound.1 (ascii "ababa")
      (ascii "aba\x00") (ascii "ababa") (ascii "aba") 7 List.prefix_rfl (by decide +kernel)
      (by decide +kernel)
    have hLeast : IsLeast {q | Occurs (ascii "aba") (ascii "ababa") q} 0 :=
      ⟨by decide +kernel, fun q _ => Nat.zero_le q⟩
    exact ⟨found, hFound, by rw [hCount]; decide +kernel, hFirst 0 hLeast⟩
  · have hOnce := (editExecute_sound.2 _ _ _ _ _ _ (hSys _)
      (hCall (ascii "xaba") (by decide +kernel))).1 1 (by decide +kernel)
    rw [hOnce]
    decide +kernel
  · exact (editExecute_sound.2 _ _ _ _ _ _ (hSys _)
      (hCall (ascii "ababa") (by decide +kernel))).2 (by decide +kernel)

end Mua.Tools
