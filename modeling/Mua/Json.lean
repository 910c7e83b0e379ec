import Mua.Memory

/-! # JSON trees and the getters of json.c

A `CJson` is a cJSON tree. Its strings and keys keep the bytes the parser
stored; the getters read them as the C strings they are, up to the first NUL.
The parser and the printer are cJSON's and enter as the fields of a `JsonLib`.
-/

namespace Mua

structure Double where
  bits : UInt64
  deriving DecidableEq, Repr

namespace Double

def negative (d : Double) : Bool := 2 ^ 63 ≤ d.bits.toNat

def exponent (d : Double) : Nat := d.bits.toNat / 2 ^ 52 % 2048

def fraction (d : Double) : Nat := d.bits.toNat % 2 ^ 52

def isFinite (d : Double) : Bool := d.exponent ≠ 2047

/-- A finite double is `mantissa * 2 ^ (scale - 1075)`, up to its sign. -/
def mantissa (d : Double) : Nat := if d.exponent = 0 then d.fraction else d.fraction + 2 ^ 52

def scale (d : Double) : Nat := max d.exponent 1

def trunc (d : Double) : Int :=
  let floor : Nat :=
    if 1075 ≤ d.scale then d.mantissa * 2 ^ (d.scale - 1075) else d.mantissa / 2 ^ (1075 - d.scale)
  if d.negative then -(floor : Int) else floor

/-- `(int64_t)d`. The result for a value int64_t cannot hold is the compiler's choice. -/
def toInt64 (castOutside : Double → Int64) (d : Double) : Int :=
  if d.isFinite ∧ -2 ^ 63 ≤ d.trunc ∧ d.trunc < 2 ^ 63 then d.trunc else (castOutside d).toInt

/-- The nearest double of a natural number below 2 ^ 64, ties to even. -/
def ofNatBits (n : Nat) : Nat :=
  if n = 0 then 0
  else
    let k := Nat.log2 n
    if k ≤ 52 then (1023 + k) * 2 ^ 52 + (n * 2 ^ (52 - k) - 2 ^ 52)
    else
      let half := 2 ^ (k - 53)
      let quot := n / (2 * half)
      let rem := n % (2 * half)
      let up := if half < rem ∨ (rem = half ∧ quot % 2 = 1) then 1 else 0
      -- a carry out of the fraction lands in the exponent field
      (1023 + k) * 2 ^ 52 + (quot + up - 2 ^ 52)

def ofInt (n : Int) : Double :=
  ⟨UInt64.ofNat (ofNatBits n.natAbs + if n < 0 then 2 ^ 63 else 0)⟩

end Double

inductive CJson
  | null
  | bool (b : Bool)
  | number (valuedouble : Double)
  | string (valuestring : Bytes)
  | array (items : List CJson)
  | object (members : List (Bytes × CJson))

/-- What json.c takes from cJSON and the compiler: `cJSON_ParseWithLengthOpts` with the
offset it stopped at, `cJSON_PrintUnformatted`, and out-of-range casts. -/
structure JsonLib where
  parse : Bytes → Except Nat (CJson × Nat)
  print : CJson → Bytes
  castOutside : Double → Int64

def decimal (n : Nat) : Bytes := ascii (toString n)

theorem length_ascii (s : String) : (ascii s).length = s.length := by
  rw [ascii, List.length_map, String.length_toList]

theorem length_toString_le {n : Int} {k : Nat} (hk : 0 < k) (h : n.natAbs < 10 ^ k) :
    (toString n).length ≤ k + 1 := by
  cases n with
  | ofNat m =>
    have hDigits : (toString m).length ≤ k := (Nat.length_repr_le_iff hk).mpr h
    exact Nat.le_succ_of_le hDigits
  | negSucc m =>
    have hDigits : (Nat.repr (m + 1)).length ≤ k := (Nat.length_repr_le_iff hk).mpr h
    change ("-" ++ Nat.repr (m + 1)).length ≤ k + 1
    rw [String.length_append]
    have : "-".length = 1 := rfl
    omega

theorem nulFree_toString (n : Int) : NulFree (ascii (toString n)) := by
  have hDigits : ∀ m : Nat, ∀ c ∈ (Nat.repr m).toList, UInt8.ofNat c.toNat ≠ 0 := by
    intro m c hc
    rw [Nat.repr, String.toList_ofList] at hc
    have hDigit := Nat.isDigit_of_mem_toDigits (by decide) (by decide) hc
    rw [Char.isDigit, Bool.and_eq_true, decide_eq_true_eq, decide_eq_true_eq] at hDigit
    have hLow : 48 ≤ c.toNat := UInt32.le_iff_toNat_le.mp hDigit.1
    have hHigh : c.toNat ≤ 57 := UInt32.le_iff_toNat_le.mp hDigit.2
    intro hZero
    have hZero := congrArg UInt8.toNat hZero
    rw [UInt8.toNat_ofNat'] at hZero
    have hZero : c.toNat % 256 = 0 := hZero
    omega
  intro hMem
  obtain ⟨c, hc, hZero⟩ := List.mem_map.mp hMem
  cases n with
  | ofNat m => exact hDigits m c hc hZero
  | negSucc m =>
    have hc : c ∈ ("-" ++ Nat.repr (m + 1)).toList := hc
    rw [String.toList_append, List.mem_append] at hc
    rcases hc with hc | hc
    · obtain rfl : c = '-' := by simpa using hc
      exact absurd hZero (by decide)
    · exact hDigits (m + 1) c hc hZero

def isJsonSpace (b : Byte) : Bool := b == 32 || b == 9 || b == 13 || b == 10

def jsonParse (lib : JsonLib) (doc : Bytes) (maxSize : Nat) : Except Error CJson :=
  if doc.length > maxSize then
    .error ⟨.validation, ascii "json: document of " ++ decimal doc.length ++
      ascii " bytes exceeds cap of " ++ decimal maxSize⟩
  else
    match lib.parse doc with
    | .error offset => .error ⟨.validation, ascii "json: parse failed near byte " ++ decimal offset⟩
    | .ok (node, parseEnd) =>
      match (doc.drop parseEnd).dropWhile isJsonSpace with
      | [] => .ok node
      | b :: rest =>
        if b = 0 then .ok node
        else .error ⟨.validation, ascii "json: trailing bytes after document at offset " ++
          decimal (doc.length - (rest.length + 1))⟩

namespace CJson

/-- `cJSON_GetObjectItemCaseSensitive`. The children of an array carry no key. -/
def getObjectItem : CJson → Bytes → Option CJson
  | .object members, key => (members.find? fun m => cstr m.1 = key).map (·.2)
  | _, _ => none

def children : CJson → List CJson
  | .array items => items
  | .object members => members.map (·.2)
  | _ => []

def getArrayItem (array : CJson) (index : Nat) : Option CJson := array.children[index]?

def isArray : CJson → Bool
  | .array _ => true
  | _ => false

def isObject : CJson → Bool
  | .object _ => true
  | _ => false

end CJson

def jsonGetString (obj : CJson) (key : Bytes) : Option Bytes :=
  match obj.getObjectItem key with
  | some (.string s) => some s
  | _ => none

def jsonGetCstr (obj : CJson) (key : Bytes) : Option Bytes := (jsonGetString obj key).map cstr

def jsonGetInt (lib : JsonLib) (obj : CJson) (key : Bytes) : Option Int :=
  match obj.getObjectItem key with
  | some (.number d) => some (d.toInt64 lib.castOutside)
  | _ => none

def jsonGetBool (obj : CJson) (key : Bytes) : Option Bool :=
  match obj.getObjectItem key with
  | some (.bool b) => some b
  | _ => none

def jsonGetObj (obj : CJson) (key : Bytes) : Option CJson :=
  (obj.getObjectItem key).filter CJson.isObject

def jsonGetArr (obj : CJson) (key : Bytes) : Option CJson :=
  (obj.getObjectItem key).filter CJson.isArray

def jsonNewObj : CJson := .object []

def CJson.addItem (obj : CJson) (key : Bytes) (item : CJson) : CJson :=
  match obj with
  | .object members => .object (members ++ [(key, item)])
  | other => other

def jsonAddStr (obj : CJson) (key val : Bytes) : CJson := obj.addItem key (.string (cstr val))

def jsonAddCstr (obj : CJson) (key val : Bytes) : CJson := obj.addItem key (.string (cstr val))

def jsonAddInt (obj : CJson) (key : Bytes) (val : Int) : CJson :=
  obj.addItem key (.number (Double.ofInt val))

def jsonAddBool (obj : CJson) (key : Bytes) (val : Bool) : CJson := obj.addItem key (.bool val)

theorem nulFree_jsonGetCstr {obj : CJson} {key s : Bytes} (h : jsonGetCstr obj key = some s) :
    NulFree s := by
  obtain ⟨raw, _, rfl⟩ := Option.map_eq_some_iff.mp h
  exact nulFree_cstr raw

end Mua
