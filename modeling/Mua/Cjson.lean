import Mua.Number
import Mua.Lib.Separated

/-! # The parser and the printer of cJSON

The position in the buffer is the list of the bytes from it on, and an error carries the
position it leaves. Reading and writing doubles is the C library's. The build sets the
nesting limit to 64.
-/

namespace Mua.Cjson

open Separated

def nestingLimit : Nat := 64

/-- `strtod` with the number of bytes it took, and what `print_number` writes for a double that
is no int. -/
structure NumLib where
  strtod : Bytes → Double × Nat
  taken : ∀ s, (strtod s).2 ≤ s.length
  format : Double → Bytes

def quote : Byte := 34
def backslash : Byte := 92
def comma : Byte := 44
def colon : Byte := 58
def openArray : Byte := 91
def closeArray : Byte := 93
def openObject : Byte := 123
def closeObject : Byte := 125

def isDigit (b : Byte) : Bool := 48 ≤ b && b ≤ 57

/-- At the end of the buffer the offset goes back to the last blank. -/
def skipWhitespace (s : Bytes) : Bytes :=
  match s.dropWhile fun b => b ≤ 32 with
  | [] => s.drop (s.length - 1)
  | rest => rest

def skipBom (s : Bytes) : Bytes :=
  if 4 < s.length ∧ s.take 3 = [0xef, 0xbb, 0xbf] then s.drop 3 else s

def isNumberByte (b : Byte) : Bool :=
  isDigit b || b == 43 || b == 45 || b == 101 || b == 69 || b == 46

/-- The bytes that are copied for `strtod`. -/
def numberText (s : Bytes) : Bytes := (s.take 63).takeWhile isNumberByte

def parseNumber (num : NumLib) : Reader CJson Byte := fun s =>
  let (number, taken) := num.strtod (numberText s)
  if taken = 0 then .error s else .ok (.number number, s.drop taken)

def hexDigit (b : Byte) : Option Nat :=
  if 48 ≤ b ∧ b ≤ 57 then some (b.toNat - 48)
  else if 65 ≤ b ∧ b ≤ 70 then some (10 + b.toNat - 65)
  else if 97 ≤ b ∧ b ≤ 102 then some (10 + b.toNat - 97)
  else none

def parseHex4 (s : Bytes) : Nat :=
  (((s.take 4).mapM hexDigit).map fun digits => digits.foldl (fun h digit => 16 * h + digit) 0).getD 0

def utf8Encode (codepoint : Nat) : Option Bytes :=
  let tail := fun n : Nat => UInt8.ofNat ((n ||| 0x80) &&& 0xbf)
  if codepoint < 0x80 then some [UInt8.ofNat (codepoint &&& 0x7f)]
  else if codepoint < 0x800 then
    some [UInt8.ofNat ((codepoint >>> 6) ||| 0xc0), tail codepoint]
  else if codepoint < 0x10000 then
    some [UInt8.ofNat ((codepoint >>> 12) ||| 0xe0), tail (codepoint >>> 6), tail codepoint]
  else if codepoint ≤ 0x10ffff then
    some [UInt8.ofNat ((codepoint >>> 18) ||| 0xf0), tail (codepoint >>> 12),
      tail (codepoint >>> 6), tail codepoint]
  else none

/-- The bytes of a literal at a backslash, and how much of the text it takes. -/
def utf16LiteralToUtf8 (s : Bytes) : Option (Bytes × Nat) :=
  let firstCode := parseHex4 (s.drop 2)
  if s.length < 6 then none
  else if 0xdc00 ≤ firstCode ∧ firstCode ≤ 0xdfff then none
  else if 0xd800 ≤ firstCode ∧ firstCode ≤ 0xdbff then
    let second := s.drop 6
    let secondCode := parseHex4 (second.drop 2)
    if second.length < 6 then none
    else if second.take 2 ≠ [backslash, 117] then none
    else if secondCode < 0xdc00 ∨ 0xdfff < secondCode then none
    else
      (utf8Encode (0x10000 + (((firstCode &&& 0x3ff) <<< 10) ||| (secondCode &&& 0x3ff)))).map
        fun bytes => (bytes, 12)
  else (utf8Encode firstCode).map fun bytes => (bytes, 6)

/-- Where the string ends: the first quote that no backslash escapes. -/
def findQuote : Bytes → Option Nat
  | [] => none
  | c :: rest =>
    if c = quote then some 0
    else if c = backslash then
      match rest with
      -- the last byte of the buffer is a backslash
      | [] => none
      | _ :: rest => (findQuote rest).map (· + 2)
    else (findQuote rest).map (· + 1)

def simpleEscape (c : Byte) : Option Byte :=
  if c = 98 then some 8
  else if c = 102 then some 12
  else if c = 110 then some 10
  else if c = 114 then some 13
  else if c = 116 then some 9
  else if c = quote ∨ c = backslash ∨ c = 47 then some c
  else none

def unescape : Bytes → Except Bytes Bytes
  | [] => .ok []
  -- a bad literal can have taken the backslash before it, and the quote that ends the string is
  -- read as escaped
  | [c] => .ok [if c = backslash then quote else c]
  | c :: e :: rest =>
    if c ≠ backslash then (unescape (e :: rest)).map (c :: ·)
    else if e = 117 then
      match utf16LiteralToUtf8 (c :: e :: rest) with
      | none => .error (c :: e :: rest)
      | some (bytes, taken) => (unescape (rest.drop (taken - 2))).map (bytes ++ ·)
    else
      match simpleEscape e with
      | none => .error (c :: e :: rest)
      | some b => (unescape rest).map (b :: ·)
termination_by s => s.length
decreasing_by
  · exact Nat.lt_succ_self _
  · rw [List.length_drop, List.length_cons, List.length_cons]
    omega
  · rw [List.length_cons, List.length_cons]
    omega

def parseString : Reader Bytes Byte := fun s =>
  if s.head? ≠ some quote then .error s.tail
  else
    match findQuote s.tail with
    | none => .error s.tail
    | some n =>
      match unescape (s.tail.take n) with
      | .error left => .error (left ++ s.tail.drop n)
      | .ok output => .ok (output, s.tail.drop (n + 1))

def parseMember (value : Reader CJson Byte) : Reader (Bytes × CJson) Byte := fun s =>
  -- nothing comes after the comma
  if s = [] then .error [comma]
  else
    match parseString (skipWhitespace s) with
    | .error left => .error left
    | .ok (name, left) =>
      match skipWhitespace left with
      | [] => .error []
      | c :: left =>
        if c = colon then (value (skipWhitespace left)).map fun r => ((name, r.1), r.2)
        else .error (c :: left)

def parseBody {α : Type} (item : Reader α Byte) (opened close : Byte) : Reader (List α) Byte :=
  fun s =>
    match skipWhitespace s with
    | [] => .error [opened]
    | c :: rest =>
      if c = close then .ok ([], rest)
      else items item skipWhitespace comma close (rest.length + 2) (c :: rest)

/-- `parse_value` with so much room for brackets in brackets. -/
def parseValue (num : NumLib) : Nat → Reader CJson Byte
  | room, s =>
    if s.take 4 = ascii "null" then .ok (.null, s.drop 4)
    else if s.take 5 = ascii "false" then .ok (.bool false, s.drop 5)
    else if s.take 4 = ascii "true" then .ok (.bool true, s.drop 4)
    else
      match s with
      | [] => .error []
      | c :: rest =>
        if c = quote then (parseString s).map fun r => (.string r.1, r.2)
        else if c = 45 ∨ isDigit c then parseNumber num s
        else if c = openArray then
          match room with
          | 0 => .error s
          | room + 1 =>
            (parseBody (fun s => parseValue num room (skipWhitespace s)) openArray closeArray
              rest).map fun r => (.array r.1, r.2)
        else if c = openObject then
          match room with
          | 0 => .error s
          | room + 1 =>
            (parseBody (parseMember (parseValue num room)) openObject closeObject rest).map
              fun r => (.object r.1, r.2)
        else .error s

/-- `cJSON_ParseWithLengthOpts`: the tree and where its text ends, or where parsing stopped. -/
def parseWithLength (num : NumLib) (doc : Bytes) : Except Nat (CJson × Nat) :=
  if doc = [] then .error 0
  else
    match parseValue num nestingLimit (skipWhitespace (skipBom doc)) with
    | .ok (item, rest) => .ok (item, doc.length - rest.length)
    | .error rest => .error (min (doc.length - rest.length) (doc.length - 1))

/-- `valueint`, as `parse_number` and `cJSON_CreateNumber` set it for a finite double. -/
def valueInt (d : Double) : Int := max (-2 ^ 31) (min d.trunc (2 ^ 31 - 1))

def printNumber (num : NumLib) (d : Double) : Bytes :=
  if ¬d.isFinite then ascii "null"
  else if d.equals (.ofInt (valueInt d)) then ascii (toString (valueInt d))
  else num.format d

def hexChar (n : Nat) : Byte := UInt8.ofNat (if n < 10 then 48 + n else 87 + n)

def escape (b : Byte) : Bytes :=
  if 31 < b ∧ b ≠ quote ∧ b ≠ backslash then [b]
  else if b = backslash then [backslash, backslash]
  else if b = quote then [backslash, quote]
  else if b = 8 then [backslash, 98]
  else if b = 12 then [backslash, 102]
  else if b = 10 then [backslash, 110]
  else if b = 13 then [backslash, 114]
  else if b = 9 then [backslash, 116]
  else [backslash, 117, 48, 48, hexChar (b.toNat / 16), hexChar (b.toNat % 16)]

def printString (s : Bytes) : Bytes := quote :: ((cstr s).flatMap escape ++ [quote])

mutual

def printValue (num : NumLib) : CJson → Bytes
  | .null => ascii "null"
  | .bool b => if b then ascii "true" else ascii "false"
  | .number d => printNumber num d
  | .string s => printString s
  | .array children => openArray :: (printItems num children ++ [closeArray])
  | .object members => openObject :: (printMembers num members ++ [closeObject])

def printItems (num : NumLib) : List CJson → Bytes
  | [] => []
  | [item] => printValue num item
  | item :: rest => printValue num item ++ comma :: printItems num rest

def printMembers (num : NumLib) : List (Bytes × CJson) → Bytes
  | [] => []
  | [(name, item)] => printString name ++ colon :: printValue num item
  | (name, item) :: rest =>
    printString name ++ colon :: (printValue num item ++ comma :: printMembers num rest)

end

/-- cJSON for the modules that use it. -/
def cjson (num : NumLib) (castOutside : Double → Int64) : JsonLib where
  parse := parseWithLength num
  print := printValue num
  castOutside := castOutside

end Mua.Cjson
