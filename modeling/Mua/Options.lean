import Mathlib.Logic.Function.Basic
import Mua.Json

/-! # The options store and its environment overrides

options.c, and the part of agent.c that resolves a setting from the environment,
then the store, then the built-in default. A store carries the proof that every
slot holds a value its option accepts, so a getter cannot leave the range.
-/

namespace Mua

inductive Object
  | nil
  | boolean (b : Bool)
  | integer (n : Int64)
  | float (d : Double)
  | string (s : Bytes)
  | array (items : List Object)
  | dict (items : List (Bytes × Object))
  | session

inductive ObjectType
  | nil
  | boolean
  | integer
  | float
  | string
  | array
  | dict
  | session
  deriving DecidableEq, Repr

def Object.type : Object → ObjectType
  | .nil => .nil
  | .boolean _ => .boolean
  | .integer _ => .integer
  | .float _ => .float
  | .string _ => .string
  | .array _ => .array
  | .dict _ => .dict
  | .session => .session

structure OptionDef where
  name : Bytes
  type : ObjectType
  strDefault : Option Bytes
  intDefault : Int
  intMin : Int
  intMax : Int
  boolDefault : Bool

inductive OptionKey
  | systemPrompt
  | model
  | stepCap
  | markdown
  | contextPct
  | contextWarnPct
  deriving DecidableEq, Repr

def stepCapMin : Int := 1
def stepCapMax : Int := 50
def contextPctMin : Int := 1
def contextPctMax : Int := 100
def contextWarnPctMin : Int := 0
def contextWarnPctMax : Int := 100

def defaultSystemPrompt : Bytes :=
  ascii "You are mua, a minimal coding agent. Use the provided tools to read, " ++
  ascii "write, and edit files and to run shell commands in the current working " ++
  ascii "directory. Keep responses brief."

def optionDef : OptionKey → OptionDef
  | .systemPrompt => ⟨ascii "system_prompt", .string, some defaultSystemPrompt, 0, 0, 0, false⟩
  | .model => ⟨ascii "model", .string, none, 0, 0, 0, false⟩
  | .stepCap => ⟨ascii "step_cap", .integer, none, stepCapMax, stepCapMin, stepCapMax, false⟩
  | .markdown => ⟨ascii "markdown", .boolean, none, 0, 0, 0, false⟩
  | .contextPct => ⟨ascii "context_pct", .integer, none, 90, contextPctMin, contextPctMax, false⟩
  | .contextWarnPct =>
    ⟨ascii "context_warn_pct", .integer, none, 75, contextWarnPctMin, contextWarnPctMax, false⟩

def optionKeys : List OptionKey :=
  [.systemPrompt, .model, .stepCap, .markdown, .contextPct, .contextWarnPct]

def optionIndex (name : Bytes) : Option OptionKey :=
  optionKeys.find? fun key => (optionDef key).name = name

def InRange (option : OptionDef) : Object → Prop
  | .integer n => option.intMin ≤ n.toInt ∧ n.toInt ≤ option.intMax
  | _ => True

instance (option : OptionDef) (value : Object) : Decidable (InRange option value) :=
  match value with
  | .integer n =>
    inferInstanceAs (Decidable (option.intMin ≤ n.toInt ∧ n.toInt ≤ option.intMax))
  | .nil | .boolean _ | .float _ | .string _ | .array _ | .dict _ | .session => isTrue trivial

structure OptionStore where
  slots : OptionKey → Option Object
  typed : ∀ key value, slots key = some value → value.type = (optionDef key).type
  inRange : ∀ key value, slots key = some value → InRange (optionDef key) value

def OptionStore.empty : OptionStore where
  slots _ := none
  typed _ _ h := by cases h
  inRange _ _ h := by cases h

def typeName : ObjectType → Bytes
  | .string => ascii "a string"
  | .integer => ascii "an integer"
  | .boolean => ascii "a boolean"
  | .float => ascii "a number"
  | _ => ascii "a value"

def OptionStore.put (store : OptionStore) (key : OptionKey) (value : Object)
    (hType : value.type = (optionDef key).type) (hRange : InRange (optionDef key) value) :
    OptionStore where
  slots := Function.update store.slots key (some value)
  typed k v h := by
    by_cases hk : k = key
    · subst hk
      rw [Function.update_self] at h
      exact Option.some.inj h ▸ hType
    · rw [Function.update_of_ne hk] at h
      exact store.typed k v h
  inRange k v h := by
    by_cases hk : k = key
    · subst hk
      rw [Function.update_self] at h
      exact Option.some.inj h ▸ hRange
    · rw [Function.update_of_ne hk] at h
      exact store.inRange k v h

def unknownOption (name : Bytes) : Error :=
  ⟨.validation, ascii "unknown option '" ++ cstr name ++ ascii "'"⟩

def optionsSet (store : OptionStore) (name : Bytes) (value : Object) : Except Error OptionStore :=
  match optionIndex name with
  | none => .error (unknownOption name)
  | some key =>
    if hType : value.type = (optionDef key).type then
      if hRange : InRange (optionDef key) value then .ok (store.put key value hType hRange)
      else
        .error ⟨.validation, ascii "option '" ++ (optionDef key).name ++ ascii "' out of range [" ++
          ascii (toString (optionDef key).intMin) ++ ascii ", " ++
          ascii (toString (optionDef key).intMax) ++ ascii "]"⟩
    else
      .error ⟨.validation, ascii "option '" ++ (optionDef key).name ++ ascii "' expects " ++
        typeName (optionDef key).type⟩

def defaultObject (option : OptionDef) : Object :=
  match option.type, option.strDefault with
  | .string, some s => .string (cstr s)
  | .integer, _ => .integer (Int64.ofInt option.intDefault)
  | .boolean, _ => .boolean option.boolDefault
  | _, _ => .nil

def optionsGet (store : OptionStore) (name : Bytes) : Except Error Object :=
  match optionIndex name with
  | none => .error (unknownOption name)
  | some key => .ok ((store.slots key).getD (defaultObject (optionDef key)))

def optionsString (store : OptionStore) (key : OptionKey) : Option Bytes :=
  match store.slots key with
  | some (.string s) => some s
  | _ => (optionDef key).strDefault

def optionsInt (store : OptionStore) (key : OptionKey) : Int :=
  match store.slots key with
  | some (.integer n) => n.toInt
  | _ => (optionDef key).intDefault

def optionsSystemPrompt (store : OptionStore) : Bytes :=
  (optionsString store .systemPrompt).getD []

def optionsStepCap (store : OptionStore) : Int := optionsInt store .stepCap

def optionsContextPct (store : OptionStore) : Int := optionsInt store .contextPct

def optionsContextWarnPct (store : OptionStore) : Int := optionsInt store .contextWarnPct

theorem optionsInt_range (store : OptionStore) (key : OptionKey)
    (hDefault : (optionDef key).intMin ≤ (optionDef key).intDefault ∧
      (optionDef key).intDefault ≤ (optionDef key).intMax) :
    (optionDef key).intMin ≤ optionsInt store key ∧
      optionsInt store key ≤ (optionDef key).intMax := by
  unfold optionsInt
  split
  · rename_i n hSlot
    exact store.inRange key _ hSlot
  · exact hDefault

def isSpace (b : Byte) : Bool := b == 32 || (9 ≤ b && b ≤ 13)

def isDigit (b : Byte) : Bool := 48 ≤ b && b ≤ 57

def digitsValue (digits : Bytes) : Nat := digits.foldl (fun n b => 10 * n + (b.toNat - 48)) 0

/-- `strtol(s, &end, 10)`: the value, clamped to a long, and the text at `end`; none when
there is no digit to read. -/
def strtol (s : Bytes) : Option (Int × Bytes) :=
  let s := (cstr s).dropWhile isSpace
  let negative := s.head? = some 45
  let s := if negative ∨ s.head? = some 43 then s.tail else s
  let digits := s.takeWhile isDigit
  if digits = [] then none
  else
    let value : Int := if negative then -(digitsValue digits : Int) else digitsValue digits
    some (max (-2 ^ 63) (min value (2 ^ 63 - 1)), s.drop digits.length)

/-- The integer an environment variable sets, when it is one within the bounds. -/
def envInt (env : Option Bytes) (low high : Int) : Option Int :=
  match env.bind strtol with
  | some (value, []) => if low ≤ value ∧ value ≤ high then some value else none
  | _ => none

structure Env where
  systemPrompt : Option Bytes
  stepCap : Option Bytes
  contextPct : Option Bytes
  contextWarnPct : Option Bytes

/-- Empty, at the environment or in the store, omits the system message. -/
def resolveSystemPrompt (store : OptionStore) (env : Env) : Option Bytes :=
  let prompt := cstr (env.systemPrompt.getD (optionsSystemPrompt store))
  if prompt = [] then none else some prompt

def resolveStepCap (store : OptionStore) (env : Env) : Int :=
  (envInt env.stepCap stepCapMin stepCapMax).getD (optionsStepCap store)

def resolveContextPct (store : OptionStore) (env : Env) : Int :=
  (envInt env.contextPct contextPctMin contextPctMax).getD (optionsContextPct store)

def resolveContextWarnPct (store : OptionStore) (env : Env) : Int :=
  (envInt env.contextWarnPct contextWarnPctMin contextWarnPctMax).getD
    (optionsContextWarnPct store)

theorem envInt_range {env : Option Bytes} {low high value : Int}
    (h : envInt env low high = some value) : low ≤ value ∧ value ≤ high := by
  unfold envInt at h
  split at h
  · obtain ⟨hRange, hValue⟩ := Option.ite_none_right_eq_some.mp h
    exact Option.some.inj hValue ▸ hRange
  · cases h

theorem resolveStepCap_range (store : OptionStore) (env : Env) :
    stepCapMin ≤ resolveStepCap store env ∧ resolveStepCap store env ≤ stepCapMax := by
  unfold resolveStepCap
  cases h : envInt env.stepCap stepCapMin stepCapMax with
  | none => exact optionsInt_range store .stepCap (by decide)
  | some value => exact envInt_range h

end Mua
