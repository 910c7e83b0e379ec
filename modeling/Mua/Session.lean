import Mua.Json

/-! # The session store

session.c, function by function. `file` is the content of the file the session's
descriptor appends to; `messages` is the conversation in memory. What the system
calls answer enters as oracles: the n-th answer of write(2) and read(2), the
outcome of each create, the opened file with its content.
-/

namespace Mua.Session

def kSessionIdLen : Nat := 18
def kSessionNameLen : Nat := 24
def kSessionIdAttempts : Nat := 100
def kSessionEintrMax : Nat := 100
def kSessionReadChunk : Nat := 64 * 1024
def sessionMaxLine : Nat := 8 * 1024 * 1024
def sessionMaxMessages : Nat := 4096

def newline : Byte := 10

structure SessionState where
  id : FixedStr (kSessionIdLen + 1)
  path : Bytes
  file : Bytes
  messages : List CJson
  poisoned : Bool
  needsHeal : Bool

inductive WriteResult
  | wrote (n : Nat)
  | eintr
  | failed (reason : Bytes)
  deriving DecidableEq, Repr

inductive ReadResult
  | got (n : Nat)
  | eintr
  | failed (reason : Bytes)
  deriving DecidableEq, Repr

inductive CreateResult
  | created
  | taken
  | failed (reason : Bytes)
  deriving DecidableEq, Repr

/-- What open(2) and fstat(2) make of a path. -/
inductive OpenResult
  | openFailed (reason : Bytes)
  | statFailed (reason : Bytes)
  | opened (regular : Bool) (size : Nat)
  deriving DecidableEq, Repr

def decimalInt (n : Int) : Bytes := ascii (toString n)

/-- The write(2) loop: the first answer that is not EINTR, within `tries` calls. -/
def writeTries (os : Nat → WriteResult) : Nat → WriteResult
  | 0 => .eintr
  | tries + 1 =>
    match os 0 with
    | .eintr => writeTries (fun i => os (i + 1)) tries
    | result => result

def writeFailed (path reason : Bytes) : Error :=
  ⟨.exception, ascii "session: write " ++ path ++ ascii ": " ++ reason⟩

def poison (sess : SessionState) (reason : Bytes) : SessionState × Except Error Unit :=
  ({ sess with poisoned := true }, .error (writeFailed sess.path reason))

/-- A record, after the newline that ends a torn tail when one is due. -/
def recordBytes (sess : SessionState) (line : Bytes) : Bytes :=
  (if sess.needsHeal then [newline] else []) ++ line ++ [newline]

def writeLine (sess : SessionState) (line : Bytes) (os : Nat → WriteResult) :
    SessionState × Except Error Unit :=
  let buf := recordBytes sess line
  match writeTries os kSessionEintrMax with
  | .wrote n =>
    -- write(2) takes at most what it is given
    let written := min n buf.length
    let sess := { sess with file := sess.file ++ buf.take written }
    if written ≠ buf.length then poison sess (ascii "short write")
    else ({ sess with needsHeal := false }, .ok ())
  | .eintr => poison sess (ascii "Interrupted system call")
  | .failed reason => poison sess reason

def headerRecord (id : Bytes) (created : Int) : CJson :=
  jsonAddInt (jsonAddCstr (jsonAddInt (jsonAddCstr jsonNewObj (ascii "type") (ascii "session"))
    (ascii "version") 1) (ascii "id") id) (ascii "created") created

def writeHeader (lib : JsonLib) (sess : SessionState) (created : Int) (os : Nat → WriteResult) :
    SessionState × Except Error Unit :=
  writeLine sess (lib.print (headerRecord sess.id.data created)) os

def hasRole (msg : CJson) : Bool := msg.isObject && (jsonGetCstr msg (ascii "role")).isSome

def sessionAppend (lib : JsonLib) (sess : SessionState) (msg : CJson) (os : Nat → WriteResult) :
    SessionState × Except Error Unit :=
  if ¬ hasRole msg then
    (sess, .error ⟨.validation, ascii "session: a message is an object with a string \"role\""⟩)
  else if sess.poisoned then
    (sess, .error ⟨.exception, ascii "session: " ++ sess.path ++
      ascii ": poisoned by an earlier failed write"⟩)
  else if sess.messages.length ≥ sessionMaxMessages then
    (sess, .error ⟨.validation, ascii "session: " ++ sess.path ++ ascii ": more than " ++
      decimal sessionMaxMessages ++ ascii " messages"⟩)
  else
    let line := lib.print msg
    if line.length > sessionMaxLine then
      (sess, .error ⟨.validation, ascii "session: message of " ++ decimal line.length ++
        ascii " bytes exceeds " ++ decimal sessionMaxLine ++ ascii " bytes"⟩)
    else
      match writeLine sess line os with
      | (sess, .error err) => (sess, .error err)
      -- disk first: the file is the truth
      | (sess, .ok ()) => ({ sess with messages := sess.messages ++ [msg] }, .ok ())

def slash : Byte := 47

def trimSlashes (a : Bytes) : Bytes :=
  let trimmed := (a.reverse.dropWhile fun b => b == slash).reverse
  if trimmed = [] ∧ a ≠ [] then [slash] else trimmed

def pathsJoin (a b : Bytes) : Bytes :=
  let a := trimSlashes (cstr a)
  let sep := if a.getLast? = some slash then [] else [slash]
  a ++ sep ++ cstr b

/-- `%02d`, for a suffix below 100. -/
def twoDigits (nn : Nat) : Bytes := [UInt8.ofNat (48 + nn / 10), UInt8.ofNat (48 + nn % 10)]

def sessionName (stamp : Bytes) (nn : Nat) : Bytes :=
  cstr stamp ++ ascii "_" ++ twoDigits nn ++ ascii ".jsonl"

/-- The id and the path of the file the first free suffix from `nn` on claims. -/
def openFresh (dir stamp : Bytes) (create : Nat → CreateResult) (nn : Nat) :
    Nat → Except Error (FixedStr (kSessionIdLen + 1) × Bytes)
  | 0 => .error ⟨.exception, ascii "session: all " ++ decimal kSessionIdAttempts ++
      ascii " session ids taken this second"⟩
  | attempts + 1 =>
    let name := sessionName stamp nn
    if name.length ≠ kSessionNameLen then
      .error ⟨.exception, ascii "session: bad id stamp " ++ cstr stamp⟩
    else
      match create nn with
      | .created => .ok (FixedStr.truncate kSessionIdLen name, pathsJoin dir name)
      | .taken => openFresh dir stamp create (nn + 1) attempts
      | .failed reason => .error ⟨.exception, ascii "session: create " ++ cstr dir ++ ascii "/" ++
          name ++ ascii ": " ++ reason⟩

def kStampLen : Nat := 15

/-- `stamp` is what gmtime_r and strftime make of `now`, when both succeed. -/
def sessionNew (lib : JsonLib) (dir : Except Error Bytes) (now : Int) (stamp : Option Bytes)
    (create : Nat → CreateResult) (os : Nat → WriteResult) : Except Error SessionState :=
  match dir with
  | .error err => .error err
  | .ok dir =>
    match stamp.filter fun stamp => now ≠ -1 ∧ stamp.length = kStampLen with
    | none => .error ⟨.exception, ascii "session: cannot format a UTC timestamp"⟩
    | some stamp =>
      match openFresh dir stamp create 0 kSessionIdAttempts with
      | .error err => .error err
      | .ok (id, path) =>
        let sess : SessionState := ⟨id, path, [], [], false, false⟩
        match writeHeader lib sess now os with
        | (_, .error err) => .error err
        | (sess, .ok ()) => .ok sess

structure LoadScan where
  sess : SessionState
  lineNo : Nat
  stagedLine : Nat

def notAHeader (path : Bytes) : Error :=
  ⟨.validation, ascii "session: " ++ path ++ ascii ": line 1 is not a session header"⟩

variable (lib : JsonLib)

def headerFields (node : CJson) : Option (FixedStr (kSessionIdLen + 1) × Int) :=
  match jsonGetCstr node (ascii "type"), jsonGetInt lib node (ascii "version"),
    jsonGetCstr node (ascii "id") with
  | some type, some version, some id =>
    if type = ascii "session" ∧ id ≠ [] then
      (FixedStr.copy? (kSessionIdLen + 1) id).map fun id => (id, version)
    else none
  | _, _, _ => none

def consumeHeader (ls : LoadScan) (node : CJson) : Except Error LoadScan :=
  match headerFields lib node with
  | none => .error (notAHeader ls.sess.path)
  | some (id, version) =>
    if version ≠ 1 then
      .error ⟨.validation, ascii "session: " ++ ls.sess.path ++ ascii ": unsupported version " ++
        decimalInt version⟩
    else .ok { ls with sess := { ls.sess with id := id } }

def stage (ls : LoadScan) : LoadScan := { ls with stagedLine := ls.lineNo }

/-- One message or control record below the header; anything else is staged. -/
def consumeRecord (ls : LoadScan) (node : CJson) : Except Error LoadScan :=
  if ¬ node.isObject then .ok (stage ls)
  else if (jsonGetCstr node (ascii "role")).isSome then
    if ls.sess.messages.length ≥ sessionMaxMessages then
      .error ⟨.validation, ascii "session: " ++ ls.sess.path ++ ascii ": more than " ++
        decimal sessionMaxMessages ++ ascii " messages"⟩
    else .ok { ls with sess := { ls.sess with messages := ls.sess.messages ++ [node] } }
  -- unknown control records are the tolerated forward slot
  else if (jsonGetCstr node (ascii "type")).isSome then .ok ls
  else .ok (stage ls)

def consumeLine (ls : LoadScan) (line : Bytes) : Except Error LoadScan :=
  let ls := { ls with lineNo := ls.lineNo + 1 }
  if line = [] then .ok ls
  else if ls.stagedLine ≠ 0 then
    .error ⟨.validation, ascii "session: " ++ ls.sess.path ++ ascii ": corrupt line " ++
      decimal ls.stagedLine⟩
  else
    match jsonParse lib line sessionMaxLine with
    | .error _ => if ls.lineNo = 1 then .error (notAHeader ls.sess.path) else .ok (stage ls)
    | .ok node => if ls.lineNo = 1 then consumeHeader lib ls node else consumeRecord ls node

def lineTooLong (ls : LoadScan) : Error :=
  ⟨.validation, ascii "session: " ++ ls.sess.path ++ ascii ": line " ++ decimal (ls.lineNo + 1) ++
    ascii " exceeds " ++ decimal sessionMaxLine ++ ascii " bytes"⟩

abbrev LineBuf : Type := Buf sessionMaxLine

/-- The terminated lines of one chunk; the rest of the last line stays in the buffer. -/
def scanChunk (ls : LoadScan) (line : LineBuf) (cursor : Bytes) :
    Except Error (LoadScan × LineBuf) :=
  if cursor = [] then .ok (ls, line)
  else
    let seg := cursor.takeWhile fun b => b != newline
    match bufAppend line seg with
    | none => .error (lineTooLong ls)
    | some line =>
      -- no newline: the rest of this line arrives with the next chunk
      if seg.length = cursor.length then .ok (ls, line)
      else
        match consumeLine lib ls line.data with
        | .error err => .error err
        | .ok ls => scanChunk ls (bufReset line) (cursor.drop (seg.length + 1))
termination_by cursor.length
decreasing_by
  have : 0 < cursor.length := List.length_pos_iff.mpr ‹_›
  rw [List.length_drop]
  omega

/-- The bytes one read(2) delivers: at least one, unless the file has ended. -/
def readBytes (rest : Bytes) (want n : Nat) : Bytes := rest.take (min (max n 1) want)

/-- `rest` is what the file holds past the descriptor's offset, `k` the calls made so far. -/
def loadScan (reads : Nat → ReadResult) (k remaining eintr : Nat) (rest : Bytes) (ls : LoadScan)
    (line : LineBuf) : Except Error (LoadScan × LineBuf) :=
  if remaining = 0 then .ok (ls, line)
  else
    let want := min remaining kSessionReadChunk
    match reads k with
    | .failed reason =>
      .error ⟨.exception, ascii "session: read " ++ ls.sess.path ++ ascii ": " ++ reason⟩
    | .eintr =>
      if eintr + 1 ≤ kSessionEintrMax then
        loadScan reads (k + 1) remaining (eintr + 1) rest ls line
      else
        .error ⟨.exception, ascii "session: read " ++ ls.sess.path ++
          ascii ": Interrupted system call"⟩
    | .got n =>
      let chunk := readBytes rest want n
      -- shrank since fstat; treat what we have as the whole file
      if chunk.length = 0 then .ok (ls, line)
      else
        match scanChunk lib ls line chunk with
        | .error err => .error err
        | .ok (ls, line) =>
          loadScan reads (k + 1) (remaining - chunk.length) 0 (rest.drop chunk.length) ls line
termination_by (remaining, kSessionEintrMax - eintr)
decreasing_by
  · exact Prod.Lex.right _ (by omega)
  · exact Prod.Lex.left _ _ (Nat.sub_lt (Nat.pos_of_ne_zero ‹_›) (Nat.pos_of_ne_zero ‹_›))

def loadStart (path file : Bytes) : LoadScan where
  sess := ⟨FixedStr.truncate kSessionIdLen [], path, file, [], false, false⟩
  lineNo := 0
  stagedLine := 0

/-- What remains after the terminated lines is the unterminated tail. -/
def loadTail (ls : LoadScan) (line : Bytes) : Except Error LoadScan :=
  if line = [] then .ok ls
  -- the tail lost its newline; the next append restores it
  else consumeLine lib { ls with sess := { ls.sess with needsHeal := true } } line

/-- `file` is the content of the opened file. -/
def sessionLoad (path : Bytes) (opened : OpenResult) (file : Bytes) (reads : Nat → ReadResult) :
    Except Error SessionState :=
  if path = [] then .error ⟨.validation, ascii "session: empty session path"⟩
  else
    match opened with
    | .openFailed reason =>
      .error ⟨.exception, ascii "session: open " ++ path ++ ascii ": " ++ reason⟩
    | .statFailed reason =>
      .error ⟨.exception, ascii "session: stat " ++ path ++ ascii ": " ++ reason⟩
    | .opened regular size =>
      if ¬ regular then
        .error ⟨.validation, ascii "session: " ++ path ++ ascii " is not a regular file"⟩
      else if size = 0 then
        .error ⟨.validation, ascii "session: " ++ path ++
          ascii ": empty file (missing header)"⟩
      else
        match loadScan lib reads 0 size 0 file (loadStart path file) (bufInit sessionMaxLine) with
        | .error err => .error err
        | .ok (ls, line) => (loadTail lib ls line.data).map fun ls => ls.sess

end Mua.Session
