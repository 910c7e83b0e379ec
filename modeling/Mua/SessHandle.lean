import Mua.Api
import Mua.SessionLoad

/-! # Session handles

The two session accessors take an optional integer. It is 64 bits wide in the
call, 32 bits wide in a handle, and compared with 0 in `session_resolve`.
-/

namespace Mua.Api

open Session

def resolveHandle (st : Stores) (args : List Object) : Except Error SessionState :=
  (sessHandle args).bind (sessionResolve st)

def ApiFn.takesHandle : ApiFn → Bool
  | .sessGetMessages | .sessGetId => true
  | _ => false

variable {fn : ApiFn} {st : Stores} {args : List Object} {n : Int64} {sess : SessionState}

theorem call_eq (st : Stores) (hFn : fn.takesHandle = true) :
    ∃ answer : SessionState → Except Error (Object × Stores), ∀ caller args,
      fn.call caller st args = some ((resolveHandle st args).bind answer) := by
  have hBind : ∀ (args : List Object) (answer : SessionState → Except Error (Object × Stores)),
      (sessHandle args).bind (fun handle => (sessionResolve st handle).bind answer) =
        (resolveHandle st args).bind answer := by
    intro args answer
    rw [resolveHandle]
    cases sessHandle args <;> rfl
  have hMap : ∀ (args : List Object) (answer : SessionState → Object × Stores),
      (sessHandle args).bind (fun handle => (sessionResolve st handle).map answer) =
        (resolveHandle st args).bind fun sess => .ok (answer sess) := by
    intro args answer
    rw [resolveHandle]
    cases sessHandle args with
    | error err => rfl
    | ok handle =>
      change (sessionResolve st handle).map answer = (sessionResolve st handle).bind _
      cases sessionResolve st handle <;> rfl
  cases fn with
  | sessGetMessages => exact ⟨_, fun caller args => congrArg some (hBind args _)⟩
  | sessGetId => exact ⟨_, fun caller args => congrArg some (hMap args _)⟩
  | _ => cases hFn

theorem toInt32_eq_zero : n.toInt32 = 0 ↔ 2 ^ 32 ∣ n.toInt := by
  rw [← Int32.toInt_inj, Int64.toInt_toInt32]
  exact Int.dvd_iff_bmod_eq_zero.symm

theorem resolveHandle_integer (st : Stores) (n : Int64) :
    (2 ^ 32 ∣ n.toInt ∧ resolveHandle st [.integer n] = resolveHandle st []) ∨
      ¬2 ^ 32 ∣ n.toInt ∧ ∃ err, resolveHandle st [.integer n] = .error err ∧
        err.type = .validation := by
  have hResolve : resolveHandle st [.integer n] = sessionResolve st n.toInt32 := rfl
  rw [hResolve]
  by_cases hDvd : 2 ^ 32 ∣ n.toInt
  · left
    rw [toInt32_eq_zero.mpr hDvd]
    exact ⟨hDvd, rfl⟩
  · refine .inr ⟨hDvd, ?_⟩
    rw [sessionResolve, if_pos (mt toInt32_eq_zero.mp hDvd)]
    exact ⟨_, rfl, rfl⟩

theorem resolveHandle_nil (st : Stores) :
    resolveHandle st [] =
      match st.session with
      | none => .error (validation "no current session")
      | some sess => .ok sess := rfl

/-- The contract of a handle: 0 and no handle stand for the current session, and any other value
is an error of both accessors. -/
structure HandleLaw (st : Stores) (n : Int64) : Prop where
  resolves : ∀ sess, resolveHandle st [.integer n] = .ok sess ↔ n = 0 ∧ st.session = some sess
  absent : ∀ sess, resolveHandle st [] = .ok sess ↔ st.session = some sess
  others : n ≠ 0 → ∀ fn : ApiFn, fn.takesHandle = true → ∀ caller, ∃ err,
    fn.call caller st [.integer n] = some (.error err) ∧ err.type = .validation

/-- The contract holds of a handle unless there is a current session, and the handle is another
multiple of 2^32 than 0. -/
theorem handleLaw_iff (st : Stores) (n : Int64) :
    HandleLaw st n ↔ n = 0 ∨ ¬2 ^ 32 ∣ n.toInt ∨ st.session = none := by
  have hAbsent : ∀ sess, resolveHandle st [] = .ok sess ↔ st.session = some sess := by
    intro sess
    rw [resolveHandle_nil]
    cases st.session with
    | none => exact iff_of_false nofun nofun
    | some current => exact ⟨fun h => congrArg some (Except.ok.inj h), fun h => by cases h; rfl⟩
  -- an accessor reports the error of its handle
  have hError : ∀ {err : Error}, resolveHandle st [.integer n] = .error err →
      err.type = .validation → ∀ fn : ApiFn, fn.takesHandle = true → ∀ caller, ∃ err,
        fn.call caller st [.integer n] = some (.error err) ∧ err.type = .validation := by
    intro err hErr hType fn hFn caller
    obtain ⟨answer, hCall⟩ := call_eq st hFn
    refine ⟨err, ?_, hType⟩
    rw [hCall, hErr]
    rfl
  constructor
  · intro hLaw
    by_contra hNot
    obtain ⟨hNe, hDvd, hSome⟩ : n ≠ 0 ∧ 2 ^ 32 ∣ n.toInt ∧ st.session ≠ none := by
      simpa only [not_or, not_not] using hNot
    obtain ⟨sess, hSess⟩ := Option.ne_none_iff_exists'.mp hSome
    rcases resolveHandle_integer st n with ⟨-, hSame⟩ | ⟨hOdd, -⟩
    · have hOk := (hLaw.resolves sess).mp (hSame.trans ((hAbsent sess).mpr hSess))
      exact hNe hOk.1
    · exact hOdd hDvd
  · intro hCase
    rcases resolveHandle_integer st n with ⟨hDvd, hSame⟩ | ⟨hOdd, err, hErr, hType⟩
    · by_cases hZero : n = 0
      · subst hZero
        refine ⟨fun sess => ?_, hAbsent, fun hNe => absurd rfl hNe⟩
        rw [hSame, hAbsent]
        exact ⟨fun h => ⟨rfl, h⟩, fun h => h.2⟩
      · have hNone : st.session = none :=
          (hCase.resolve_left hZero).resolve_left fun hOdd => hOdd hDvd
        have hErr : resolveHandle st [.integer n] = .error (validation "no current session") := by
          rw [hSame, resolveHandle_nil, hNone]
        refine ⟨fun sess => ?_, hAbsent, fun _ => hError hErr rfl⟩
        rw [hErr]
        exact iff_of_false nofun fun h => hZero h.1
    · refine ⟨fun sess => ?_, hAbsent, fun _ => hError hErr hType⟩
      rw [hErr]
      refine iff_of_false nofun ?_
      rintro ⟨rfl, -⟩
      exact hOdd (Int.dvd_zero _)

/-! The handle 2^32 answers with the id of the current session. -/

def handleStores : Stores := ⟨.empty, .empty, some sampleSession⟩

theorem high_handle_answers :
    (4294967296 : Int64) ≠ 0 ∧ ApiFn.sessGetId.call .lua handleStores [.integer 4294967296] =
      some (.ok (.string sampleSession.id.data, handleStores)) := ⟨by decide, rfl⟩

end Mua.Api
