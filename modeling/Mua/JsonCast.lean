import Mua.Json

/-! # Casts of JSON numbers

The three places of json.c and tools.c that cast a number of a document to
int64_t: `json_get_int`, `opt_pos_int` and `bash_parse_args`. The cast is defined
for a double whose truncation int64_t holds; a `none` below is an undefined one.
-/

namespace Mua

def Double.FitsInt64 (d : Double) : Prop :=
  d.isFinite = true ∧ -2 ^ 63 ≤ d.trunc ∧ d.trunc < 2 ^ 63

instance (d : Double) : Decidable d.FitsInt64 :=
  inferInstanceAs (Decidable (d.isFinite = true ∧ -2 ^ 63 ≤ d.trunc ∧ d.trunc < 2 ^ 63))

/-- `(int64_t)d`, where it is defined. -/
def Double.castInt64 (d : Double) : Option Int := if d.FitsInt64 then some d.trunc else none

def jsonGetIntCast (obj : CJson) (key : Bytes) : Option (Option Int) :=
  match obj.getObjectItem key with
  | some (.number d) => d.castInt64.map some
  | _ => some none

def optPosInt (args : CJson) (key : Bytes) (fallback : Int) : Option (Option Int) :=
  match args.getObjectItem key with
  | none => some (some fallback)
  | some (.number d) => d.castInt64.map fun value => if value < 1 then none else some value
  | some _ => some none

def kToolBashDefaultTimeoutMs : Int := 30000
def kToolBashMaxTimeoutMs : Int := 120000

/-- The command and the timeout, or the message of the failed result. -/
def bashParseArgs (args : CJson) : Option (Except Bytes (Bytes × Int)) :=
  match jsonGetCstr args (ascii "command") with
  | none | some [] => some (.error (ascii "bash: command is required"))
  | some command =>
    match args.getObjectItem (ascii "timeout_ms") with
    | none => some (.ok (command, kToolBashDefaultTimeoutMs))
    | some (.number d) => d.castInt64.map fun timeoutMs =>
      let timeoutMs := if timeoutMs < 1 then 1 else timeoutMs
      let timeoutMs := if timeoutMs > kToolBashMaxTimeoutMs then kToolBashMaxTimeoutMs else timeoutMs
      .ok (command, timeoutMs)
    | some _ => some (.error (ascii "bash: timeout_ms must be a number"))

theorem jsonGetInt_cast {obj : CJson} {key : Bytes} {value : Option Int} (lib : JsonLib)
    (h : jsonGetIntCast obj key = some value) : jsonGetInt lib obj key = value := by
  unfold jsonGetIntCast at h
  unfold jsonGetInt
  generalize obj.getObjectItem key = item at h ⊢
  cases item with
  | none =>
    cases h
    rfl
  | some item =>
    cases item with
    | number d =>
      obtain ⟨n, hCast, rfl⟩ := Option.map_eq_some_iff.mp h
      obtain ⟨hFits, hTrunc⟩ := Option.ite_none_right_eq_some.mp hCast
      cases hTrunc
      exact congrArg some (if_pos hFits)
    | _ =>
      cases h
      rfl

/-- `json_get_int` gives the number truncated toward zero. -/
def GetsTrunc (d : Double) : Prop :=
  ∀ obj key, obj.getObjectItem key = some (.number d) →
    jsonGetIntCast obj key = some (some d.trunc)

/-- `opt_pos_int` accepts the number when its truncation is positive, and gives that. -/
def AcceptsPositive (d : Double) : Prop :=
  ∀ args key fallback, args.getObjectItem key = some (.number d) →
    optPosInt args key fallback = some (if 1 ≤ d.trunc then some d.trunc else none)

/-- `bash_parse_args` clamps the truncation. -/
def ClampsTimeout (d : Double) : Prop :=
  ∀ args command, jsonGetCstr args (ascii "command") = some command → command ≠ [] →
    args.getObjectItem (ascii "timeout_ms") = some (.number d) →
      bashParseArgs args = some (.ok (command, min (max d.trunc 1) kToolBashMaxTimeoutMs))

variable {d : Double}

theorem castInt64_fits (h : d.FitsInt64) : d.castInt64 = some d.trunc := if_pos h

theorem castInt64_undefined (h : ¬d.FitsInt64) : d.castInt64 = none := if_neg h

theorem getsTrunc_iff : GetsTrunc d ↔ d.FitsInt64 := by
  constructor
  · intro hGets
    by_contra hNot
    have hItem : (CJson.object [(ascii "n", .number d)]).getObjectItem (ascii "n") =
        some (.number d) := rfl
    have hCast := hGets _ _ hItem
    rw [jsonGetIntCast, hItem] at hCast
    dsimp only at hCast
    rw [castInt64_undefined hNot] at hCast
    cases hCast
  · intro hFits obj key hItem
    rw [jsonGetIntCast, hItem]
    dsimp only
    rw [castInt64_fits hFits, Option.map_some]

theorem acceptsPositive_iff : AcceptsPositive d ↔ d.FitsInt64 := by
  constructor
  · intro hAccepts
    by_contra hNot
    have hItem : (CJson.object [(ascii "n", .number d)]).getObjectItem (ascii "n") =
        some (.number d) := rfl
    have hCast := hAccepts _ _ 0 hItem
    rw [optPosInt, hItem] at hCast
    dsimp only at hCast
    rw [castInt64_undefined hNot] at hCast
    cases hCast
  · intro hFits args key fallback hItem
    rw [optPosInt, hItem]
    dsimp only
    rw [castInt64_fits hFits, Option.map_some]
    by_cases hPos : 1 ≤ d.trunc
    · rw [if_pos hPos, if_neg (by omega)]
    · rw [if_neg hPos, if_pos (by omega)]

def timeoutArgs (d : Double) : CJson :=
  .object [(ascii "command", .string (ascii "true")), (ascii "timeout_ms", .number d)]

theorem bashParseArgs_number {args : CJson} {command : Bytes}
    (hCommand : jsonGetCstr args (ascii "command") = some command) (hNe : command ≠ [])
    (hItem : args.getObjectItem (ascii "timeout_ms") = some (.number d)) :
    bashParseArgs args = d.castInt64.map fun timeoutMs =>
      .ok (command, min (max timeoutMs 1) kToolBashMaxTimeoutMs) := by
  have hClamp : ∀ n : Int, (if (if n < 1 then 1 else n) > kToolBashMaxTimeoutMs then
      kToolBashMaxTimeoutMs else if n < 1 then 1 else n) = min (max n 1) kToolBashMaxTimeoutMs := by
    intro n
    have hMax : kToolBashMaxTimeoutMs = 120000 := rfl
    rw [hMax]
    split <;> split <;> omega
  unfold bashParseArgs
  rw [hCommand]
  cases command with
  | nil => exact absurd rfl hNe
  | cons b rest =>
    dsimp only
    rw [hItem]
    dsimp only
    simp only [hClamp]

theorem clampsTimeout_iff : ClampsTimeout d ↔ d.FitsInt64 := by
  constructor
  · intro hClamps
    by_contra hNot
    have hCommand : jsonGetCstr (timeoutArgs d) (ascii "command") = some (ascii "true") := rfl
    have hItem : (timeoutArgs d).getObjectItem (ascii "timeout_ms") = some (.number d) := rfl
    have hCast := hClamps _ _ hCommand (by decide) hItem
    rw [bashParseArgs_number hCommand (by decide) hItem, castInt64_undefined hNot] at hCast
    cases hCast
  · intro hFits args command hCommand hNe hItem
    rw [bashParseArgs_number hCommand hNe hItem, castInt64_fits hFits, Option.map_some]

/-- Each of the three is right about a number if and only if int64_t holds its truncation. -/
theorem casts_exact_iff (d : Double) :
    (GetsTrunc d ↔ d.FitsInt64) ∧ (AcceptsPositive d ↔ d.FitsInt64) ∧
      (ClampsTimeout d ↔ d.FitsInt64) :=
  ⟨getsTrunc_iff, acceptsPositive_iff, clampsTimeout_iff⟩

/-! 1e300 as a timeout. -/

def hugeDouble : Double := ⟨0x7e37e43c8800759c⟩

theorem huge_timeout_undefined :
    hugeDouble.isFinite = true ∧ bashParseArgs (timeoutArgs hugeDouble) = none ∧
      optPosInt (timeoutArgs hugeDouble) (ascii "timeout_ms") 1 = none ∧
        jsonGetIntCast (timeoutArgs hugeDouble) (ascii "timeout_ms") = none := by
  have hNot : ¬hugeDouble.FitsInt64 := by decide +kernel
  have hCommand : jsonGetCstr (timeoutArgs hugeDouble) (ascii "command") = some (ascii "true") := rfl
  have hItem : (timeoutArgs hugeDouble).getObjectItem (ascii "timeout_ms") =
      some (.number hugeDouble) := rfl
  refine ⟨by decide, ?_, ?_, ?_⟩
  · rw [bashParseArgs_number hCommand (by decide) hItem, castInt64_undefined hNot, Option.map_none]
  · rw [optPosInt, hItem]
    dsimp only
    rw [castInt64_undefined hNot, Option.map_none]
  · rw [jsonGetIntCast, hItem]
    dsimp only
    rw [castInt64_undefined hNot, Option.map_none]

end Mua
