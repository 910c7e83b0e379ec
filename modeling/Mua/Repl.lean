import Mua.Models
import Mua.UserPrompt
import Mua.Options
import Mua.SessionLoad
import Mua.Lib.Lines

/-! # The prompt loop

`run_repl` reads lines from standard input into a buffer of fixed size, lets the UserPromptPre
hooks look at each, and runs a turn on what they leave. The gate of a turn asks on the same input.
The model of a turn is read from the options after the hooks; its window is looked up again when the
model has changed.
-/

namespace Mua.Repl

open Models Prompt Tools Lines Session

def kReplLine : Nat := 8192

def kReplDrainMax : Nat := 2 ^ 20

def kExitOk : Nat := 0

/-- `fgets` with room for so many bytes: what it reads, and what is left. -/
def fgetsLine : Nat → Bytes → Bytes × Bytes
  | 0, input => ([], input)
  | _ + 1, [] => ([], [])
  | room + 1, b :: input =>
    if b = newline then ([b], input)
    else
      let (line, rest) := fgetsLine room input
      (b :: line, rest)

def drainLine : Nat → Bytes → Bytes
  | 0, input => input
  | _ + 1, [] => []
  | left + 1, b :: input => if b = newline then input else drainLine left input

/-- One turn of the loop up to a line that is not empty: none at the end of the input, and no line
where the loop prompts again. -/
def readLine (input : Bytes) : Option (Option Bytes × Bytes) :=
  if input = [] then none
  else
    let (bytes, rest) := fgetsLine (kReplLine - 1) input
    let line := cstr bytes
    let given (line : Bytes) := if line = [] then none else some line
    if line.getLast? = some newline then some (given line.dropLast, rest)
    else if line.length = kReplLine - 1 then some (none, drainLine kReplDrainMax rest)
    else some (given line, rest)

def kAgentGateLine : Nat := 64

def kAgentGateDrainMax : Nat := 8192

def approves (line : Bytes) : Bool := line.head? = some 121 || line.head? = some 89

/-- `agent_gate_interactive` reads its answer from the same input: yes or no, and what is left. -/
def gateAnswer (input : Bytes) : Bool × Bytes :=
  if input = [] then (false, [])
  else
    let (bytes, rest) := fgetsLine (kAgentGateLine - 1) input
    let line := cstr bytes
    (approves line, if newline ∈ line then rest else drainLine kAgentGateDrainMax rest)

structure TurnEnd where
  options : OptionStore
  code : Nat
  hardStop : Bool

/-- A turn as the loop sees it: it is over, or it asks at the gate and goes on with the answer. With
`--yes` none asks. -/
inductive TurnRun
  | ended (e : TurnEnd)
  | asks (next : Bool → TurnRun)

def TurnRun.run : TurnRun → Bytes → TurnEnd × Bytes
  | .ended e, input => (e, input)
  | .asks next, input => (next (gateAnswer input).1).run (gateAnswer input).2

/-- What `resolve_turn_model` finds: the model of the command line, or that of the options. -/
def turnModel (cliModel : Option Bytes) (options : OptionStore) : Option Bytes :=
  match cliModel with
  | some model => some model
  | none => (optionsString options .model).map cstr

/-- What surrounds the loop, by the number of lines that were read before: the hooks, the answers of
the server, and the turn on the options as they are. -/
structure ReplWorld where
  lua : LuaLib
  lib : JsonLib
  checkStack : Nat → Bool
  hooks : Nat → List (PromptHook OptionStore)
  answer : Nat → Option (List FetchEvent)
  turn : Nat → OptionStore → TurnRun

structure ReplTurn where
  text : Bytes
  model : Option Bytes
  window : Int
  deriving DecidableEq, Repr

structure ReplState where
  options : OptionStore
  catalog : Catalog
  ctxModel : Option Bytes
  window : Int
  given : List Bytes := []
  turns : List ReplTurn := []
  /-- For each time the catalog was asked for, whether it came. -/
  asked : List Bool := []

/-- The window is looked up again on an actual change of the model. -/
def refetch (w : ReplWorld) (locked : Bool) (model : Option Bytes) (k : Nat) (r : ReplState) :
    ReplState :=
  if locked = false ∧ model ≠ r.ctxModel then
    let (window, catalog, asked) := modelsContextLength w.lib r.catalog model (w.answer k)
    { r with
      window
      catalog
      ctxModel := model
      asked := if asked then r.asked ++ [catalog.fetched] else r.asked }
  else r

def replPrompt (w : ReplWorld) (cliModel : Option Bytes) (locked : Bool) (r : ReplState)
    (line : Bytes) : ReplState × Option TurnRun :=
  let k := r.given.length
  let result := luaAutocmdUserPromptPre w.lua (w.checkStack k) (w.hooks k) r.options line
  let r := { r with options := result.state, given := r.given ++ [line] }
  match turnText result line with
  | none => (r, none)
  | some text =>
    let model := turnModel cliModel r.options
    let r := refetch w locked model k r
    ({ r with turns := r.turns ++ [⟨text, model, r.window⟩] }, some (w.turn k r.options))

def quits (line : Bytes) : Bool := line = ascii "exit" || line = ascii "quit"

theorem fgetsLine_rest (room : Nat) (input : Bytes) :
    (fgetsLine room input).2.length ≤ input.length := by
  induction room generalizing input with
  | zero => exact Nat.le_refl _
  | succ room ih =>
    cases input with
    | nil => exact Nat.le_refl _
    | cons b input =>
      rw [fgetsLine]
      split
      · exact Nat.le_succ _
      · exact Nat.le_succ_of_le (ih input)

theorem drainLine_rest (left : Nat) (input : Bytes) :
    (drainLine left input).length ≤ input.length := by
  induction left generalizing input with
  | zero => exact Nat.le_refl _
  | succ left ih =>
    cases input with
    | nil => exact Nat.le_refl _
    | cons b input =>
      rw [drainLine]
      split
      · exact Nat.le_succ _
      · exact Nat.le_succ_of_le (ih input)

theorem readLine_shorter {input rest : Bytes} {line : Option Bytes}
    (h : readLine input = some (line, rest)) : rest.length < input.length := by
  cases input with
  | nil => cases h
  | cons b input =>
    have hFgets : (fgetsLine (kReplLine - 1) (b :: input)).2.length ≤ input.length := by
      rw [kReplLine, fgetsLine]
      split
      · exact Nat.le_refl _
      · exact fgetsLine_rest _ input
    rw [readLine, if_neg (List.cons_ne_nil b input)] at h
    dsimp only at h
    rw [List.length_cons]
    split at h
    · cases h
      omega
    split at h
    · cases h
      have hDrain := drainLine_rest kReplDrainMax (fgetsLine (kReplLine - 1) (b :: input)).2
      omega
    · cases h
      omega

theorem gateAnswer_rest (input : Bytes) : (gateAnswer input).2.length ≤ input.length := by
  have hFgets := fgetsLine_rest (kAgentGateLine - 1) input
  have hDrain := drainLine_rest kAgentGateDrainMax (fgetsLine (kAgentGateLine - 1) input).2
  rw [gateAnswer]
  split
  · exact Nat.zero_le _
  · dsimp only
    split
    · exact hFgets
    · exact hDrain.trans hFgets

theorem TurnRun.run_rest (turn : TurnRun) (input : Bytes) :
    (turn.run input).2.length ≤ input.length := by
  induction turn generalizing input with
  | ended e => exact Nat.le_refl _
  | asks next ih => exact (ih _ _).trans (gateAnswer_rest input)

def runRepl (w : ReplWorld) (cliModel : Option Bytes) (locked : Bool) (r : ReplState)
    (input : Bytes) : ReplState × Nat :=
  match _hLine : readLine input with
  | none => (r, kExitOk)
  | some (none, rest) => runRepl w cliModel locked r rest
  | some (some line, rest) =>
    if quits line then (r, kExitOk)
    else
      match replPrompt w cliModel locked r line with
      | (r, none) => runRepl w cliModel locked r rest
      | (r, some turn) =>
        let r := { r with options := (turn.run rest).1.options }
        if (turn.run rest).1.hardStop then (r, (turn.run rest).1.code)
        else runRepl w cliModel locked r (turn.run rest).2
termination_by input.length
decreasing_by
  · exact readLine_shorter _hLine
  · exact readLine_shorter _hLine
  · exact Nat.lt_of_le_of_lt (turn.run_rest rest) (readLine_shorter _hLine)

/-- `run_agent` up to the loop: the window of the model at the start, or the one of the
environment; then the SessionStart hooks, and the model as they leave it. -/
def startRepl (w : ReplWorld) (cliModel : Option Bytes) (env : Option Int)
    (answer : Option (List FetchEvent)) (sessionStart : OptionStore → OptionStore)
    (options : OptionStore) : ReplState :=
  let options' := sessionStart options
  let ctxModel := turnModel cliModel options'
  match env with
  | some window => { options := options', catalog := {}, ctxModel, window }
  | none =>
    let (window, catalog, asked) :=
      modelsContextLength w.lib {} (turnModel cliModel options) answer
    { options := options'
      catalog
      ctxModel
      window
      asked := if asked then [catalog.fetched] else [] }

/-- The texts the loop makes of one line: a line that does not fit the buffer is dropped, with the
part of its rest that is drained; a NUL in the buffer hides that it was full. -/
def texts (line : Bytes) : List Bytes :=
  if line.length < kReplLine - 1 then [cstr line]
  else if (0 : Byte) ∈ line.take (kReplLine - 1) then
    cstr line :: texts (line.drop (kReplLine - 1))
  else texts (line.drop (kReplLine - 1 + kReplDrainMax))
termination_by line.length
decreasing_by
  all_goals
    simp only [List.length_drop, kReplLine, kReplDrainMax] at *
    omega

def promptLines (input : Bytes) : List Bytes :=
  ((lines newline input).flatMap fun line => texts (front newline line)).filter (· ≠ [])

/-- The turn on the lines that follow its own: each answer at the gate takes one of them. -/
def TurnRun.answered : TurnRun → List Bytes → TurnEnd × List Bytes
  | .ended e, rest => (e, rest)
  | .asks next, [] => (next false).answered []
  | .asks next, line :: rest => (next (approves line)).answered rest

theorem TurnRun.answered_rest (turn : TurnRun) (rest : List Bytes) :
    (turn.answered rest).2.length ≤ rest.length := by
  induction turn generalizing rest with
  | ended e => exact Nat.le_refl _
  | asks next ih =>
    cases rest with
    | nil => exact ih false []
    | cons line rest => exact Nat.le_succ_of_le (ih _ rest)

def replLines (w : ReplWorld) (cliModel : Option Bytes) (locked : Bool) (r : ReplState) :
    List Bytes → ReplState × Nat
  | [] => (r, kExitOk)
  | line :: rest =>
    if line = [] then replLines w cliModel locked r rest
    else if quits line then (r, kExitOk)
    else
      match replPrompt w cliModel locked r line with
      | (r, none) => replLines w cliModel locked r rest
      | (r, some turn) =>
        let r := { r with options := (turn.answered rest).1.options }
        if (turn.answered rest).1.hardStop then (r, (turn.answered rest).1.code)
        else replLines w cliModel locked r (turn.answered rest).2
termination_by given => given.length
decreasing_by
  · exact Nat.lt_succ_self _
  · exact Nat.lt_succ_self _
  · exact Nat.lt_succ_of_le (turn.answered_rest rest)

end Mua.Repl
