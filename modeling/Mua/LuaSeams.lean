import Mua.LuaStack
import Mua.ToolPre

/-! # The seams into Lua

The calls of bridge.c from C into Lua, with the height of the Lua stack: the hooks of
each event and the callback of a tool. A seam pops a fixed number of values, so what a
refused value leaves on the stack stays there.
-/

namespace Mua.Lua

open Agent Openrouter

/-- `lua_pcall`: the function and its arguments go, the results or one error object come. -/
def luaPcall (height nargs nresults : Nat) (ok : Bool) : Nat :=
  height - (nargs + 1) + (if ok then nresults else 1)

/-- A value is pushed, and `lua_setfield` pops it. -/
def setFields (height : Nat) : Nat → Nat
  | 0 => height
  | fields + 1 => setFields (height + 1 - 1) fields

def autocmdPayload (height : Nat) : Nat := setFields (height + 1) 1

/-- The hooks in turn, with the payload on top; `returns` says which of them return. -/
def autocmdFire (height : Nat) : List Bool → Nat
  | [] => height
  | ok :: rest =>
    let height := luaPcall (height + 2) 1 0 ok
    autocmdFire (if ok then height else height - 1) rest

def autocmdEvent (fields limit height : Nat) (returns : List Bool) : Nat :=
  if returns = [] then height
  else if ¬luaCheckstack limit height 4 then height
  else autocmdFire (setFields (autocmdPayload height) fields) returns - 1

def luaAutocmdSession : Nat → Nat → List Bool → Nat := autocmdEvent 1

def luaAutocmdStreamDelta : Nat → Nat → List Bool → Nat := autocmdEvent 1

def luaAutocmdToolPost : Nat → Nat → List Bool → Nat := autocmdEvent 3

structure PromptLoop where
  height : Nat
  swallowed : Bool
  rewritten : Bool

/-- One hook; none is a throw. Each branch pops the one value that the call has left. -/
def fireUserPromptPre (loop : PromptLoop) (result : Option (HookReturn Unit)) : PromptLoop :=
  let height := luaPcall (loop.height + 2) 1 1 result.isSome
  match result with
  | none => { loop with height := height - 1 }
  | some (.string _) => { loop with height := height - 1, rewritten := true }
  | some (.boolean false) => { loop with height := height - 1, swallowed := true }
  | some _ => { loop with height := height - 1 }

def fireUserPromptPres (loop : PromptLoop) : List (Option (HookReturn Unit)) → PromptLoop
  | [] => loop
  | result :: rest =>
    if loop.swallowed then loop else fireUserPromptPres (fireUserPromptPre loop result) rest

def luaAutocmdUserPromptPre (limit height : Nat) (results : List (Option (HookReturn Unit))) : Nat :=
  if results = [] then height
  else if ¬luaCheckstack limit height 6 then height
  else
    let loop := fireUserPromptPres ⟨setFields (autocmdPayload height) 1, false, false⟩ results
    let height := if ¬loop.swallowed ∧ loop.rewritten then loop.height + 1 - 1 else loop.height
    height - 1

section ToolPre

variable (hooks : LuaHooks) (castOutside : Double → Int64)
  (view : hooks.Value → Heap × Value) (limit : Nat)

/-- The hooks over a stack of that height, with the code's own walks; `view` shows the value
behind a handle, with the heap its tables are on. -/
abbrev onStack (height : Nat) : LuaHooks :=
  { hooks with
    checkStack := fun _ => luaCheckstack limit height 6
    objectToLua := fun out obj =>
      match (objectToLuaOnStack limit obj (height + 1)).1 with
      | .ok _ => hooks.objectToLua out obj
      | .error _ => none
    luaPopObject := fun _ value =>
      (luaPopOnStack limit castOutside (view value).1 (view value).2 (height + 2)).1.toOption }

/-- The arguments become a field of the payload, or nil does after `lua_settop`. -/
def marshalArgs (args : Object) (tidx : Nat) : Nat :=
  match objectToLuaOnStack limit args tidx with
  | (.ok _, height) => height - 1
  | (.error _, _) => setFields tidx 1

/-- The dispatch loop. What a hook returns is popped, or set as a field of the payload. -/
def fireToolPres (hooks : LuaHooks) (out : History) (height : Nat) (loop : ToolPreLoop hooks.Value) :
    List (Hook hooks.Value) → Nat
  | [] => height
  | hook :: rest =>
    if loop.vetoed then height
    else
      let height := luaPcall (height + 2) 1 1 (hook out loop.payload).1.isSome
      fireToolPres hooks out (height - 1) (fireHook hooks out loop hook) rest

def captureToolPreArgsOnStack (value : Heap × Value) (height : Nat) : Nat :=
  (luaPopOnStack limit castOutside value.1 value.2 (height + 1)).2 - 1

/-- What the hooks decide, and the height of the stack afterwards. -/
def luaAutocmdToolPreOnStack (out : History) (name : Bytes) (args : Object) (height : Nat) :
    ToolPreResult × Nat :=
  let hooks' := onStack hooks castOutside view limit height
  let result := luaAutocmdToolPre hooks' out name args
  if hooks.callbacks out = [] then (result, height)
  else if ¬luaCheckstack limit height 6 then (result, height)
  else
    let tidx := setFields (autocmdPayload height) 1
    let payload : Payload hooks.Value :=
      ⟨hooks.pushString name, (hooks'.objectToLua out args).getD hooks.nil⟩
    let fired := fireToolPres hooks' out (marshalArgs limit args tidx)
      ⟨0, payload, false, false, false, none⟩ (hooks.callbacks out)
    let loop := toolPreLoop hooks' out name args
    let height :=
      if ¬loop.vetoed ∧ loop.rewritten then
        captureToolPreArgsOnStack castOutside limit (view loop.payload.args) fired
      else fired
    (result, height - 1)

end ToolPre

/-- What the callback of a tool leaves: an error object, as a string when it has one, or a
value. -/
inductive PcallResult
  | raised (msg : Option Bytes)
  | returned (heap : Heap) (value : Value)

structure Invoked where
  result : Object
  isError : Bool

def luaToolInvokeOnStack (castOutside : Double → Int64) (limit : Nat) (args : Object)
    (callback : PcallResult) (height : Nat) : Invoked × Nat :=
  if ¬luaCheckstack limit height 4 then
    (⟨.string (ascii "tool callback: lua stack exhausted"), true⟩, height)
  else
    match objectToLuaOnStack limit args (height + 1) with
    -- one value is popped, as if it were the function
    | (.error err, height) => (⟨.string (cstr err.msg), true⟩, height - 1)
    | (.ok _, height) =>
      match callback with
      | .raised msg =>
        (⟨.string (msg.getD (ascii "tool callback raised")), true⟩, luaPcall height 1 1 false - 1)
      | .returned heap value =>
        let height := luaPcall height 1 1 true
        match value with
        | .string s => (⟨.string s, false⟩, height - 1)
        | .nil => (⟨.string [], false⟩, height - 1)
        | value =>
          match luaPopOnStack limit castOutside heap value height with
          | (.ok built, height) => (⟨(apiCopyObject built).getD .nil, false⟩, height - 1)
          | (.error err, height) => (⟨.string (cstr err.msg), true⟩, height - 1)

inductive SeamCall
  | session (returns : List Bool)
  | streamDelta (returns : List Bool)
  | toolPost (returns : List Bool)
  | userPromptPre (results : List (Option (HookReturn Unit)))
  | toolPre (hooks : LuaHooks) (view : hooks.Value → Heap × Value) (out : History) (name : Bytes)
    (args : Object)
  | toolInvoke (args : Object) (callback : PcallResult)

def SeamCall.run (castOutside : Double → Int64) (limit : Nat) (call : SeamCall) (height : Nat) : Nat :=
  match call with
  | .session returns => luaAutocmdSession limit height returns
  | .streamDelta returns => luaAutocmdStreamDelta limit height returns
  | .toolPost returns => luaAutocmdToolPost limit height returns
  | .userPromptPre results => luaAutocmdUserPromptPre limit height results
  | .toolPre hooks view out name args =>
    (luaAutocmdToolPreOnStack hooks castOutside view limit out name args height).2
  | .toolInvoke args callback => (luaToolInvokeOnStack castOutside limit args callback height).2

def runAll (castOutside : Double → Int64) (limit : Nat) (calls : List SeamCall) (height : Nat) : Nat :=
  calls.foldl (fun height call => call.run castOutside limit height) height

/-- The call leaves nothing on the stack: its tool's arguments fit, and the value that it
hands to `lua_pop_object`, if any, unwinds. -/
def SeamCall.Unwinds (castOutside : Double → Int64) (limit height : Nat) : SeamCall → Prop
  | .toolPre hooks view out name args =>
    let loop := toolPreLoop (onStack hooks castOutside view limit height) out name args
    hooks.callbacks out = [] ∨ limit < height + 6 ∨ loop.vetoed = true ∨ loop.rewritten = false ∨
      Lua.Unwinds castOutside (view loop.payload.args).1 (limit - (height + 5))
        (view loop.payload.args).2
  | .toolInvoke args callback =>
    limit < height + 5 ∨
      (Pushes kMarshalDepthCap (limit - (height + 7)) args ∧
        match callback with
        | .raised _ => True
        | .returned heap value => Lua.Unwinds castOutside heap (limit - (height + 4)) value)
  | _ => True

/-- Every call of a process leaves nothing on the stack as it finds it. -/
def AllUnwind (castOutside : Double → Int64) (limit : Nat) : List SeamCall → Nat → Prop
  | [], _ => True
  | call :: rest, height =>
    call.Unwinds castOutside limit height ∧
      AllUnwind castOutside limit rest (call.run castOutside limit height)

theorem luaPcall_one (height : Nat) (ok : Bool) : luaPcall (height + 2) 1 1 ok - 1 = height := by
  cases ok <;> simp [luaPcall]

@[simp] theorem setFields_eq (height fields : Nat) : setFields height fields = height := by
  induction fields with
  | zero => rfl
  | succ fields ih => exact ih

theorem autocmdFire_eq (height : Nat) (returns : List Bool) : autocmdFire height returns = height := by
  induction returns with
  | nil => rfl
  | cons ok rest ih =>
    rw [autocmdFire]
    cases ok <;> simpa [luaPcall] using ih

theorem autocmdEvent_eq (fields limit height : Nat) (returns : List Bool) :
    autocmdEvent fields limit height returns = height := by
  unfold autocmdEvent
  split
  · rfl
  split
  · rfl
  · simp [autocmdFire_eq, autocmdPayload]

theorem fireUserPromptPre_height (loop : PromptLoop) (result : Option (HookReturn Unit)) :
    (fireUserPromptPre loop result).height = loop.height := by
  have hCall := luaPcall_one loop.height result.isSome
  unfold fireUserPromptPre
  dsimp only
  split <;> exact hCall

theorem fireUserPromptPres_height (loop : PromptLoop) (results : List (Option (HookReturn Unit))) :
    (fireUserPromptPres loop results).height = loop.height := by
  induction results generalizing loop with
  | nil => rfl
  | cons result rest ih =>
    rw [fireUserPromptPres]
    split
    · rfl
    · exact (ih _).trans (fireUserPromptPre_height loop result)

theorem luaAutocmdUserPromptPre_eq (limit height : Nat) (results : List (Option (HookReturn Unit))) :
    luaAutocmdUserPromptPre limit height results = height := by
  unfold luaAutocmdUserPromptPre
  split
  · rfl
  split
  · rfl
  · simp [fireUserPromptPres_height, autocmdPayload]

theorem fireToolPres_eq {hooks : LuaHooks} (out : History) (height : Nat)
    (loop : ToolPreLoop hooks.Value) (callbacks : List (Hook hooks.Value)) :
    fireToolPres hooks out height loop callbacks = height := by
  induction callbacks generalizing loop with
  | nil => rfl
  | cons hook rest ih =>
    rw [fireToolPres]
    split
    · rfl
    · dsimp only
      rw [luaPcall_one]
      exact ih _

theorem marshalArgs_eq (limit : Nat) (args : Object) (tidx : Nat) :
    marshalArgs limit args tidx = tidx := by
  unfold marshalArgs
  rcases objectToLuaOnStack_cases limit args tidx with ⟨-, hStack⟩ | ⟨-, -, value, -, hStack⟩ |
    ⟨-, -, err, k, hStack⟩
  · rw [hStack, setFields_eq]
  · rw [hStack]
    rfl
  · rw [hStack, setFields_eq]

section Exact

variable {castOutside : Double → Int64} {limit height : Nat}

theorem sub_one_eq_iff {n : Nat} (h : height + 1 ≤ n) : n - 1 = height ↔ n = height + 1 := by
  omega

theorem captureToolPreArgs_height_le {value : Heap × Value} :
    height ≤ captureToolPreArgsOnStack castOutside limit value height := by
  have : height + 1 ≤ (luaPopOnStack limit castOutside value.1 value.2 (height + 1)).2 :=
    luaPopOnStack_height_le
  rw [captureToolPreArgsOnStack]
  omega

theorem captureToolPreArgs_height_iff {value : Heap × Value} (hRoom : height + 5 ≤ limit) :
    captureToolPreArgsOnStack castOutside limit value height = height ↔
      Unwinds castOutside value.1 (limit - (height + 4)) value.2 := by
  rw [captureToolPreArgsOnStack, sub_one_eq_iff luaPopOnStack_height_le, luaPopOnStack_height_iff,
    or_iff_right (by omega)]

theorem luaAutocmdToolPre_height_iff {hooks : LuaHooks} {view : hooks.Value → Heap × Value}
    {out : History} {name : Bytes} {args : Object} :
    (luaAutocmdToolPreOnStack hooks castOutside view limit out name args height).2 = height ↔
      (SeamCall.toolPre hooks view out name args).Unwinds castOutside limit height := by
  unfold luaAutocmdToolPreOnStack SeamCall.Unwinds
  dsimp only
  split
  · rename_i hNone
    exact ⟨fun _ => .inl hNone, fun _ => rfl⟩
  rename_i hSome
  rw [or_iff_right hSome]
  split
  · rename_i hCheck
    refine ⟨fun _ => .inl ?_, fun _ => rfl⟩
    have := of_decide_eq_false (Bool.eq_false_iff.mpr hCheck)
    omega
  · rename_i hCheck
    have hRoom : height + 6 ≤ limit := of_decide_eq_true (not_not.mp hCheck)
    rw [or_iff_right (by omega)]
    -- whatever the hooks do, the payload is on top again after the last of them
    have hFired : ∀ payload, fireToolPres (onStack hooks castOutside view limit height) out
        (marshalArgs limit args (setFields (autocmdPayload height) 1)) payload
        (hooks.callbacks out) = height + 1 := by
      intro payload
      refine (fireToolPres_eq out _ payload _).trans ?_
      rw [marshalArgs_eq, setFields_eq]
      exact setFields_eq (height + 1) 1
    generalize toolPreLoop (onStack hooks castOutside view limit height) out name args = loop
    dsimp only
    rw [hFired]
    split
    · rename_i hCapture
      rw [or_iff_right hCapture.1, or_iff_right (by simp [hCapture.2]),
        sub_one_eq_iff captureToolPreArgs_height_le, captureToolPreArgs_height_iff (by omega)]
    · rename_i hCapture
      refine ⟨fun _ => ?_, fun _ => rfl⟩
      by_cases hVetoed : loop.vetoed = true
      · exact .inl hVetoed
      · have hKept : ¬loop.rewritten = true := fun hRewritten => hCapture ⟨hVetoed, hRewritten⟩
        exact .inr (.inl (Bool.eq_false_iff.mpr hKept))

theorem returned_height_iff {heap : Heap} {value : Value} (hRoom : height + 5 ≤ limit) :
    (match value with
      | .string s => ((⟨.string s, false⟩, height + 1 - 1) : Invoked × Nat)
      | .nil => (⟨.string [], false⟩, height + 1 - 1)
      | value =>
        match luaPopOnStack limit castOutside heap value (height + 1) with
        | (.ok built, height) => (⟨(apiCopyObject built).getD .nil, false⟩, height - 1)
        | (.error err, height) => (⟨.string (cstr err.msg), true⟩, height - 1)).2 = height ↔
      Unwinds castOutside heap (limit - (height + 4)) value := by
  have hPop : (luaPopOnStack limit castOutside heap value (height + 1)).2 = height + 1 ↔
      Unwinds castOutside heap (limit - (height + 4)) value := by
    rw [luaPopOnStack_height_iff, or_iff_right (by omega)]
  have hLe : height + 1 ≤ (luaPopOnStack limit castOutside heap value (height + 1)).2 :=
    luaPopOnStack_height_le
  rw [← sub_one_eq_iff hLe] at hPop
  cases value with
  | string s => exact ⟨fun _ => trivial, fun _ => rfl⟩
  | nil => exact ⟨fun _ => trivial, fun _ => rfl⟩
  | _ =>
    rw [← hPop]
    dsimp only
    split <;> rename_i hStack <;> rw [hStack]

theorem luaToolInvoke_height_iff {args : Object} {callback : PcallResult} :
    (luaToolInvokeOnStack castOutside limit args callback height).2 = height ↔
      (SeamCall.toolInvoke args callback).Unwinds castOutside limit height := by
  have hUnwinds : (SeamCall.toolInvoke args callback).Unwinds castOutside limit height ↔
      limit < height + 5 ∨ (Pushes kMarshalDepthCap (limit - (height + 7)) args ∧
        match callback with
        | .raised _ => True
        | .returned heap value => Unwinds castOutside heap (limit - (height + 4)) value) := .rfl
  rw [hUnwinds]
  unfold luaToolInvokeOnStack
  split
  · rename_i hCheck
    have := of_decide_eq_false (Bool.eq_false_iff.mpr hCheck)
    exact ⟨fun _ => .inl (by omega), fun _ => rfl⟩
  · rcases objectToLuaOnStack_cases limit args (height + 1) with ⟨hRoom, hStack⟩ |
      ⟨hRoom, hPushes, value, -, hStack⟩ | ⟨hRoom, hSome, err, k, hStack⟩
    · rw [hStack]
      exact ⟨fun _ => .inl hRoom, fun _ => rfl⟩
    · rw [hStack, or_iff_right (by omega), and_iff_right hPushes]
      cases callback with
      | raised msg => exact ⟨fun _ => trivial, fun _ => luaPcall_one height false⟩
      | returned heap value => exact returned_height_iff hRoom
    · rw [hStack, or_iff_right (by omega)]
      refine ⟨fun hHeight => ?_, fun hPushes => absurd hPushes.1 hSome⟩
      change height + 1 + 1 + k - 1 = height at hHeight
      omega

theorem run_height_iff (call : SeamCall) :
    call.run castOutside limit height = height ↔ call.Unwinds castOutside limit height := by
  cases call with
  | session returns => exact ⟨fun _ => trivial, fun _ => autocmdEvent_eq 1 limit height returns⟩
  | streamDelta returns => exact ⟨fun _ => trivial, fun _ => autocmdEvent_eq 1 limit height returns⟩
  | toolPost returns => exact ⟨fun _ => trivial, fun _ => autocmdEvent_eq 3 limit height returns⟩
  | userPromptPre results =>
    exact ⟨fun _ => trivial, fun _ => luaAutocmdUserPromptPre_eq limit height results⟩
  | toolPre hooks view out name args => exact luaAutocmdToolPre_height_iff
  | toolInvoke args callback => exact luaToolInvoke_height_iff

theorem runAll_height {calls : List SeamCall} (h : AllUnwind castOutside limit calls height) :
    runAll castOutside limit calls height = height := by
  induction calls with
  | nil => rfl
  | cons call rest ih =>
    have hCall := run_height_iff call |>.mpr h.1
    have hRest := h.2
    rw [hCall] at hRest
    change runAll castOutside limit rest (call.run castOutside limit height) = height
    rw [hCall]
    exact ih hRest

theorem AllUnwind.before {before after : List SeamCall}
    (h : AllUnwind castOutside limit (before ++ after) height) :
    AllUnwind castOutside limit before height := by
  induction before generalizing height with
  | nil => trivial
  | cons call rest ih => exact ⟨h.1, ih h.2⟩

theorem luaAutocmdToolPreOnStack_result {hooks : LuaHooks} {view : hooks.Value → Heap × Value}
    {out : History} {name : Bytes} {args : Object} :
    (luaAutocmdToolPreOnStack hooks castOutside view limit out name args height).1 =
      luaAutocmdToolPre (onStack hooks castOutside view limit height) out name args := by
  unfold luaAutocmdToolPreOnStack
  dsimp only
  split
  · rfl
  split
  · rfl
  · rfl

theorem luaAutocmdToolPre_onStack_vetoed {hooks : LuaHooks} {view : hooks.Value → Heap × Value}
    {out : History} {hook : Hook hooks.Value} (hMem : hook ∈ hooks.callbacks out)
    (hVeto : hook.AlwaysVetoes) (hRoom : height + 6 ≤ limit) (name : Bytes) (args : Object) :
    (luaAutocmdToolPreOnStack hooks castOutside view limit out name args height).1.vetoed = true := by
  have hCheck : luaCheckstack limit height 6 = true := decide_eq_true hRoom
  have hVetoed : (luaAutocmdToolPre (onStack hooks castOutside view limit height) out name
      args).vetoed = true := by
    have hSome : ¬(onStack hooks castOutside view limit height).callbacks out = [] :=
      List.ne_nil_of_mem hMem
    have hStack : ¬¬(onStack hooks castOutside view limit height).checkStack out = true :=
      not_not_intro hCheck
    unfold luaAutocmdToolPre
    dsimp only
    rw [if_neg hSome, if_neg hStack]
    exact @fireHooks_vetoed (onStack hooks castOutside view limit height) hook hVeto out _ hMem _
  rw [luaAutocmdToolPreOnStack_result]
  exact hVetoed

theorem luaAutocmdToolPre_onStack_skipped {hooks : LuaHooks} {view : hooks.Value → Heap × Value}
    (hRoom : luaCheckstack limit height 6 = false) (out : History) (name : Bytes) (args : Object) :
    (luaAutocmdToolPreOnStack hooks castOutside view limit out name args height).1.vetoed = false := by
  have hSkipped : (luaAutocmdToolPre (onStack hooks castOutside view limit height) out name
      args).vetoed = false := by
    unfold luaAutocmdToolPre
    dsimp only
    split
    · rfl
    · rw [if_pos (Bool.eq_false_iff.mp hRoom)]
  rw [luaAutocmdToolPreOnStack_result]
  exact hSkipped

end Exact

/-- A call of a seam returns with the stack as high as on entry exactly when the value it hands
to `lua_pop_object` unwinds and its arguments fit. In a process of such calls the height stays,
so a veto that had the stack to be asked at the start has it throughout. -/
theorem seams_balanced_iff (castOutside : Double → Int64) (limit height : Nat) :
    (∀ call, SeamCall.run castOutside limit call height = height ↔
      call.Unwinds castOutside limit height) ∧
    ∀ before call after, AllUnwind castOutside limit (before ++ call :: after) height →
      runAll castOutside limit before height = height ∧
      ∀ hooks view out name args hook, call = .toolPre hooks view out name args →
        hook ∈ hooks.callbacks out → hook.AlwaysVetoes → luaCheckstack limit height 6 = true →
        (luaAutocmdToolPreOnStack hooks castOutside view limit out name args
          (runAll castOutside limit before height)).1.vetoed = true := by
  refine ⟨run_height_iff, fun before call after h => ?_⟩
  have hHeight := runAll_height h.before
  refine ⟨hHeight, fun hooks view out name args hook hCall hMem hVeto hCheck => ?_⟩
  rw [hHeight]
  exact luaAutocmdToolPre_onStack_vetoed hMem hVeto (of_decide_eq_true hCheck) name args

/-! A callback that returns a record in a record, with a function in it: the inner table stays
on the stack. -/

def nestedHeap : Heap
  | 0 => ⟨[(.string [97], .table 1)], by decide, by decide, by decide, by decide⟩
  | _ => ⟨[(.string [97], .other .function 0)], by decide, by decide, by decide, by decide⟩

def nestedCall : SeamCall := .toolInvoke (.dict []) (.returned nestedHeap (.table 0))

theorem nested_refusal {room : Nat} (h : 0 < room) :
    refusalAll (refusal (fun _ => 0) nestedHeap 31 (room - 1)) room
      (tableChildren (classifyTable (fun _ => 0) (nestedHeap 0)) (nestedHeap 0)) = some 1 := by
  have hInner : refusal (fun _ => 0) nestedHeap 31 (room - 1) (.table 1) = some 1 := by
    rw [refusal_table rfl (by decide)]
    change (refusalAll _ (room - 1) [([97], .other .function 0)]).map (· + 1) = _
    rw [refusalAll]
    split <;> rfl
  change refusalAll _ room [([97], .table 1)] = _
  rw [refusalAll, if_neg (Nat.ne_of_gt h), hInner]
  rfl

theorem nestedCall_run {limit height : Nat} (h : height + 5 ≤ limit) :
    nestedCall.run (fun _ => 0) limit height = height + 1 := by
  have hCheck : ∀ n, n + 4 ≤ limit → luaCheckstack limit n 4 = true := fun n => decide_eq_true
  have hPushes : Pushes kMarshalDepthCap (limit - (height + 1 + 6)) (.dict []) :=
    fun _ => ⟨.inl rfl, nofun⟩
  have hValid : classifyTable (fun _ => 0) (nestedHeap 0) ≠ .invalid := by decide
  have hPop := luaPopOnStack_table (hCheck (height + 1) (by omega)) hValid
  rw [nested_refusal (by omega)] at hPop
  obtain ⟨err, hPop⟩ := hPop
  change (luaToolInvokeOnStack (fun _ => 0) limit (.dict []) (.returned nestedHeap (.table 0))
    height).2 = height + 1
  unfold luaToolInvokeOnStack
  rw [if_neg (not_not_intro (hCheck height (by omega)))]
  rcases objectToLuaOnStack_cases limit (.dict []) (height + 1) with ⟨hRoom, -⟩ |
    ⟨-, -, value, -, hStack⟩ | ⟨-, hSome, -⟩
  · omega
  · rw [hStack]
    change (match luaPopOnStack limit (fun _ => 0) nestedHeap (.table 0) (height + 1) with
      | (.ok built, height) => ((⟨(apiCopyObject built).getD .nil, false⟩, height - 1) : Invoked × Nat)
      | (.error err, height) => (⟨.string (cstr err.msg), true⟩, height - 1)).2 = height + 1
    rw [hPop]
    rfl
  · exact absurd hPushes hSome

theorem nestedCalls_run {limit n : Nat} (h : n + 4 ≤ limit) :
    runAll (fun _ => 0) limit (List.replicate n nestedCall) 0 = n := by
  induction n with
  | zero => rfl
  | succ n ih =>
    rw [List.replicate_succ', runAll, List.foldl_append]
    change nestedCall.run (fun _ => 0) limit (runAll (fun _ => 0) limit _ 0) = n + 1
    rw [ih (by omega)]
    exact nestedCall_run (by omega)

def refusingHooks : LuaHooks where
  Value := Heap × Value
  nil := (nestedHeap, .nil)
  pushString s := (nestedHeap, .string s)
  checkStack _ := true
  objectToLua _ _ := none
  luaPopObject _ _ := none
  callbacks _ := [fun _ payload => (some (.boolean false), payload)]

/-- A callback that returns a function in a record leaves nothing, and the veto is asked. -/
theorem seams_balanced_iff_sample :
    runAll (fun _ => 0) 8000 [.toolInvoke (.dict []) (.returned nestedHeap (.table 1))] 0 = 0 ∧
      (luaAutocmdToolPreOnStack refusingHooks (fun _ => 0) id 8000 [] (ascii "bash") (.dict [])
        (runAll (fun _ => 0) 8000 [.toolInvoke (.dict []) (.returned nestedHeap (.table 1))]
          0)).1.vetoed = true := by
  have hUnwinds : Unwinds (fun _ => 0) nestedHeap (8000 - 4) (.table 1) := by
    refine .inr (.inr ⟨.other .function 0, ⟨[], [97], [], rfl, nofun, ?_⟩, rfl⟩)
    exact fun h => h
  have hVetoed : ∀ height, (toolPreLoop (onStack refusingHooks (fun _ => 0) id 8000 height) []
      (ascii "bash") (.dict [])).vetoed = true := fun _ => rfl
  have hAll := (seams_balanced_iff (fun _ => 0) 8000 0).2
    [.toolInvoke (.dict []) (.returned nestedHeap (.table 1))]
    (.toolPre refusingHooks id [] (ascii "bash") (.dict [])) []
    ⟨.inr ⟨fun _ => ⟨.inl rfl, nofun⟩, hUnwinds⟩, .inr (.inr (.inl (hVetoed _))), trivial⟩
  refine ⟨hAll.1, hAll.2 refusingHooks id [] _ _ _ rfl List.mem_cons_self ?_ (by decide)⟩
  exact fun _ _ => .inl rfl

/-- One such call leaves a table on the stack. With 8000 slots, after 7995 of them the hook is
skipped and nothing vetoes. -/
theorem nestedCall_leaks :
    nestedCall.run (fun _ => 0) 8000 0 = 1 ∧
      (luaAutocmdToolPreOnStack refusingHooks (fun _ => 0) id 8000 [] (ascii "bash") (.dict [])
        (runAll (fun _ => 0) 8000 (List.replicate 7995 nestedCall) 0)).1.vetoed = false := by
  refine ⟨nestedCall_run (by decide), ?_⟩
  rw [nestedCalls_run (by decide)]
  exact luaAutocmdToolPre_onStack_skipped (by decide) _ _ _

end Mua.Lua
