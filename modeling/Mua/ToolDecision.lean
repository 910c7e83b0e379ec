import Mua.ToolVeto

/-! # What decides a tool call

A chain of ToolPre hooks, each given the payload the ones before it left. The
first false or string is a veto and ends the chain; without one, a hook that
returned true or the base gate approves, and a returned table replaces the
arguments for the base gate and for the tool alike.
-/

namespace Mua.Agent

open Session Openrouter

variable {hooks : LuaHooks} {base : AgentGate}

section

variable {V : Type}

abbrev Reply (V : Type) : Type := Option (HookReturn V)

def Reply.vetoes : Reply V → Bool
  | some (.string _) | some (.boolean false) => true
  | _ => false

def Reply.approves : Reply V → Bool
  | some (.boolean true) => true
  | _ => false

def Reply.rewrites : Reply V → Bool
  | some (.table _) => true
  | _ => false

def Hook.reply (hook : Hook V) (out : History) (payload : Payload V) : Reply V :=
  (hook out payload).1

/-- The payload a hook leaves: changed in place, and with the table it returned as arguments. -/
def Hook.leave (hook : Hook V) (out : History) (payload : Payload V) : Payload V :=
  match hook out payload with
  | (some (.table t), left) => { left with args := t }
  | (_, left) => left

def leaveAll (out : History) (payload : Payload V) (chain : List (Hook V)) : Payload V :=
  chain.foldl (fun payload hook => hook.leave out payload) payload

/-- What the hooks of a chain reply, in order, each on the payload left by those before it. -/
def replies (out : History) (payload : Payload V) : List (Hook V) → List (Reply V)
  | [] => []
  | hook :: rest => hook.reply out payload :: replies out (hook.leave out payload) rest

def Passes (out : History) (payload : Payload V) (chain : List (Hook V)) : Prop :=
  ∀ r ∈ replies out payload chain, r.vetoes = false

/-- The hook after `before` is reached and vetoes with `r`. -/
def VetoedBy (out : History) (payload : Payload V) (chain before : List (Hook V)) (r : Reply V) :
    Prop :=
  ∃ hook after, chain = before ++ hook :: after ∧ Passes out payload before ∧
    r = hook.reply out (leaveAll out payload before) ∧ r.vetoes = true

theorem passes_cons {out : History} {payload : Payload V} {hook : Hook V} {rest : List (Hook V)} :
    Passes out payload (hook :: rest) ↔ (hook.reply out payload).vetoes = false ∧
      Passes out (hook.leave out payload) rest := by
  simp [Passes, replies]

theorem replies_append {out : History} (before after : List (Hook V)) (payload : Payload V) :
    replies out payload (before ++ after) =
      replies out payload before ++ replies out (leaveAll out payload before) after := by
  induction before generalizing payload with
  | nil => rfl
  | cons hook rest ih =>
    rw [List.cons_append, replies, replies, ih]
    rfl

theorem Passes.not_vetoed {out : History} {payload : Payload V} {chain : List (Hook V)}
    (h : Passes out payload chain) (before : List (Hook V)) (r : Reply V) :
    ¬ VetoedBy out payload chain before r := by
  rintro ⟨hook, after, rfl, -, rfl, hVeto⟩
  have hMem : hook.reply out (leaveAll out payload before) ∈
      replies out payload (before ++ hook :: after) := by
    rw [replies_append]
    exact List.mem_append_right _ List.mem_cons_self
  rw [h _ hMem] at hVeto
  cases hVeto

theorem passes_or_vetoed (out : History) (payload : Payload V) (chain : List (Hook V)) :
    Passes out payload chain ∨ ∃ before r, VetoedBy out payload chain before r := by
  induction chain generalizing payload with
  | nil => exact .inl (by simp [Passes, replies])
  | cons hook rest ih =>
    cases hVeto : (hook.reply out payload).vetoes with
    | true =>
      refine .inr ⟨[], _, hook, rest, rfl, ?_, rfl, hVeto⟩
      simp [Passes, replies]
    | false =>
      rcases ih (hook.leave out payload) with hPass | ⟨before, r, h⟩
      · exact .inl (passes_cons.mpr ⟨hVeto, hPass⟩)
      · obtain ⟨last, after, hChain, hBefore, hReply, hLast⟩ := h
        refine .inr ⟨hook :: before, r, last, after, ?_, passes_cons.mpr ⟨hVeto, hBefore⟩,
          hReply, hLast⟩
        rw [hChain]
        rfl

end

theorem fireHook_pass {hook : Hook hooks.Value} {out : History} {loop : ToolPreLoop hooks.Value}
    (h : (hook.reply out loop.payload).vetoes = false) :
    fireHook hooks out loop hook =
      { loop with
        called := loop.called + 1
        payload := hook.leave out loop.payload
        rewritten := loop.rewritten || (hook.reply out loop.payload).rewrites
        approved := loop.approved || (hook.reply out loop.payload).approves } := by
  unfold fireHook Hook.leave
  unfold Hook.reply at h ⊢
  generalize hook out loop.payload = called at h
  obtain ⟨result, payload⟩ := called
  match result with
  | none => simp [Reply.rewrites, Reply.approves]
  | some (.string reason) => cases h
  | some (.boolean true) => simp [Reply.rewrites, Reply.approves]
  | some (.boolean false) => cases h
  | some (.table t) => simp [Reply.rewrites, Reply.approves]
  | some .other => simp [Reply.rewrites, Reply.approves]

def vetoReason {V : Type} : Reply V → Option Bytes
  | some (.string reason) => some (cstr reason)
  | _ => none

theorem fireHook_veto {hook : Hook hooks.Value} {out : History} {loop : ToolPreLoop hooks.Value}
    (h : (hook.reply out loop.payload).vetoes = true) (hReason : loop.reason = none) :
    (fireHook hooks out loop hook).vetoed = true ∧
      (fireHook hooks out loop hook).called = loop.called + 1 ∧
      (fireHook hooks out loop hook).reason = vetoReason (hook.reply out loop.payload) := by
  unfold fireHook
  unfold Hook.reply at h ⊢
  generalize hook out loop.payload = called at h
  obtain ⟨result, payload⟩ := called
  match result with
  | none => cases h
  | some (.string reason) => exact ⟨rfl, rfl, rfl⟩
  | some (.boolean true) => cases h
  | some (.boolean false) => exact ⟨rfl, rfl, hReason⟩
  | some (.table t) => cases h
  | some .other => cases h

theorem fireHooks_vetoed_stop {out : History} {loop : ToolPreLoop hooks.Value}
    (h : loop.vetoed = true) (chain : List (Hook hooks.Value)) :
    fireHooks hooks out loop chain = loop := by
  cases chain with
  | nil => rfl
  | cons hook rest => rw [fireHooks, if_pos h]

theorem fireHooks_pass {out : History} {chain : List (Hook hooks.Value)}
    {loop : ToolPreLoop hooks.Value} (hOpen : loop.vetoed = false)
    (h : Passes out loop.payload chain) :
    fireHooks hooks out loop chain =
      { loop with
        called := loop.called + chain.length
        payload := leaveAll out loop.payload chain
        rewritten := loop.rewritten || (replies out loop.payload chain).any Reply.rewrites
        approved := loop.approved || (replies out loop.payload chain).any Reply.approves } := by
  induction chain generalizing loop with
  | nil => simp [fireHooks, leaveAll, replies]
  | cons hook rest ih =>
    obtain ⟨hHook, hRest⟩ := passes_cons.mp h
    rw [fireHooks, if_neg (by simp [hOpen]), fireHook_pass hHook, ih]
    · simp [leaveAll, replies, Bool.or_assoc, Nat.add_assoc, Nat.add_comm 1]
    · exact hOpen
    · exact hRest

theorem fireHooks_append {out : History} (before after : List (Hook hooks.Value))
    (loop : ToolPreLoop hooks.Value) :
    fireHooks hooks out loop (before ++ after) =
      fireHooks hooks out (fireHooks hooks out loop before) after := by
  induction before generalizing loop with
  | nil => rfl
  | cons hook rest ih =>
    rw [List.cons_append, fireHooks, fireHooks]
    split
    · rename_i hVetoed
      rw [fireHooks_vetoed_stop hVetoed]
    · exact ih _

theorem fireHooks_veto {out : History} {chain before : List (Hook hooks.Value)}
    {loop : ToolPreLoop hooks.Value} {r : Reply hooks.Value} (hOpen : loop.vetoed = false)
    (hReason : loop.reason = none) (h : VetoedBy out loop.payload chain before r) :
    (fireHooks hooks out loop chain).vetoed = true ∧
      (fireHooks hooks out loop chain).called = loop.called + before.length + 1 ∧
      (fireHooks hooks out loop chain).reason = vetoReason r := by
  obtain ⟨hook, after, rfl, hBefore, rfl, hVeto⟩ := h
  have hLast : ∀ passed : ToolPreLoop hooks.Value,
      passed.payload = leaveAll out loop.payload before → passed.reason = none →
      (fireHook hooks out passed hook).vetoed = true ∧
        (fireHook hooks out passed hook).called = passed.called + 1 ∧
        (fireHook hooks out passed hook).reason =
          vetoReason (hook.reply out (leaveAll out loop.payload before)) := by
    intro passed hPayload hNone
    rw [← hPayload] at hVeto ⊢
    exact fireHook_veto hVeto hNone
  rw [fireHooks_append, fireHooks_pass hOpen hBefore, fireHooks, if_neg (by simp [hOpen]),
    fireHooks_vetoed_stop]
  · apply hLast
    · rfl
    · exact hReason
  · refine (hLast _ ?_ ?_).1
    · rfl
    · exact hReason

def startPayload (hooks : LuaHooks) (out : History) (name : Bytes) (args : Object) :
    Payload hooks.Value :=
  ⟨hooks.pushString name, (hooks.objectToLua out args).getD hooks.nil⟩

def vetoText {V : Type} (r : Reply V) : Bytes :=
  (vetoReason r).getD (ascii "vetoed by a ToolPre hook")

/-- The arguments left to run with: what the chain left, once some hook returned a table. -/
def finalArgs (hooks : LuaHooks) (out : History) (payload : Payload hooks.Value)
    (chain : List (Hook hooks.Value)) (args : CJson) : CJson :=
  if (replies out payload chain).any Reply.rewrites then
    ((hooks.luaPopObject out (leaveAll out payload chain).args).getD .nil).json
  else args

/-- A chain that returned a table left a table of string keys, not empty, that marshals. -/
def LeavesDict (hooks : LuaHooks) (out : History) (payload : Payload hooks.Value)
    (chain : List (Hook hooks.Value)) : Prop :=
  (replies out payload chain).any Reply.rewrites = true →
    ∃ items, hooks.luaPopObject out (leaveAll out payload chain).args = some (.dict items) ∧
      items ≠ [] ∧ (Object.dict items).nulFree = true

variable {out : History} {tool : ToolDef} {args : CJson} {obj : Object}

theorem gateWithAutocmds_veto (base : AgentGate) (hStack : hooks.checkStack out = true)
    (hObj : cjsonToObject args = .ok obj) {before : List (Hook hooks.Value)}
    {r : Reply hooks.Value}
    (h : VetoedBy out (startPayload hooks out tool.name obj) (hooks.callbacks out) before r) :
    gateWithAutocmds hooks base out tool args = ⟨.refuse, none, some (vetoText r)⟩ ∧
      (toolPreLoop hooks out tool.name obj).vetoed = true ∧
      (toolPreLoop hooks out tool.name obj).called = before.length + 1 := by
  have hChain : hooks.callbacks out ≠ [] := by
    obtain ⟨hook, after, hChain, -⟩ := h
    simp [hChain]
  have hLoop : (toolPreLoop hooks out tool.name obj).vetoed = true ∧
      (toolPreLoop hooks out tool.name obj).called = 0 + before.length + 1 ∧
      (toolPreLoop hooks out tool.name obj).reason = vetoReason r := by
    unfold toolPreLoop
    apply fireHooks_veto
    · rfl
    · rfl
    · exact h
  obtain ⟨hVetoed, hCalled, hReason⟩ := hLoop
  refine ⟨?_, hVetoed, by omega⟩
  unfold gateWithAutocmds luaAutocmdToolPre
  rw [if_neg hChain, hObj]
  simp [hChain, hStack, hVetoed, hReason, vetoText]

theorem baseGate_reply (hPolicy : ∀ out tool args, (base out tool args).rewrite = none)
    (out : History) (tool : ToolDef) (args : CJson) (rewrite : Option CJson) :
    (baseGate base out tool args rewrite).rewrite = rewrite ∧
      (baseGate base out tool args rewrite).decision =
        (base out tool (rewrite.getD args)).decision ∧
      (baseGate base out tool args rewrite).refusal =
        (base out tool (rewrite.getD args)).refusal := by
  refine ⟨?_, rfl, rfl⟩
  simp [baseGate, hPolicy]

theorem rewriteArgs_dict {items : List (Bytes × Object)}
    (h : (Object.dict items).nulFree = true) :
    rewriteArgs (.dict items) = some (Object.dict items).json := by
  rw [rewriteArgs, objectToCJson_of_nulFree h]
  · rfl
  · nofun

theorem gateWithAutocmds_pass (hPolicy : ∀ out tool args, (base out tool args).rewrite = none)
    (hStack : hooks.checkStack out = true) (hObj : cjsonToObject args = .ok obj)
    (h : Passes out (startPayload hooks out tool.name obj) (hooks.callbacks out))
    (hFinal : LeavesDict hooks out (startPayload hooks out tool.name obj) (hooks.callbacks out)) :
    let payload := startPayload hooks out tool.name obj
    let final := finalArgs hooks out payload (hooks.callbacks out) args
    let reply := gateWithAutocmds hooks base out tool args
    (toolPreLoop hooks out tool.name obj).vetoed = false ∧
      reply.rewrite.getD args = final ∧
      (reply.decision = .approve ↔
        (replies out payload (hooks.callbacks out)).any Reply.approves = true ∨
          (base out tool final).decision = .approve) ∧
      (reply.decision = .refuse → reply.refusal = (base out tool final).refusal) := by
  intro payload final reply
  have hLoop : toolPreLoop hooks out tool.name obj =
      ⟨0 + (hooks.callbacks out).length, leaveAll out payload (hooks.callbacks out), false,
        (replies out payload (hooks.callbacks out)).any Reply.rewrites,
        (replies out payload (hooks.callbacks out)).any Reply.approves, none⟩ := by
    rw [toolPreLoop, fireHooks_pass]
    · simp [startPayload, payload]
    · rfl
    · exact h
  refine ⟨by rw [hLoop], ?_⟩
  by_cases hChain : hooks.callbacks out = []
  · have hReply : reply = baseGate base out tool args none := by
      simp only [reply, gateWithAutocmds, if_pos hChain]
    have hArgs : final = args := by simp [final, finalArgs, hChain, replies]
    obtain ⟨hRewrite, hDecision, hRefusal⟩ := baseGate_reply hPolicy out tool args none
    rw [hReply, hRewrite, hDecision, hRefusal, hArgs]
    simp [hChain, replies]
  · obtain ⟨rewrite, hPre, hRewrite⟩ : ∃ rewrite,
        rewriteArgs (luaAutocmdToolPre hooks out tool.name obj).rewrite = rewrite ∧
          rewrite.getD args = final := by
      cases hAny : (replies out payload (hooks.callbacks out)).any Reply.rewrites with
      | false =>
        refine ⟨none, ?_, ?_⟩
        · simp [luaAutocmdToolPre, hChain, hStack, hLoop, hAny, rewriteArgs]
        · simp [final, finalArgs, hAny]
      | true =>
        obtain ⟨items, hPop, -, hFree⟩ := hFinal hAny
        change hooks.luaPopObject out (leaveAll out payload _).args = _ at hPop
        refine ⟨some (Object.dict items).json, ?_, ?_⟩
        · simp [luaAutocmdToolPre, hChain, hStack, hLoop, hAny, captureToolPreArgs, hPop,
            rewriteArgs_dict hFree]
        · simp [final, finalArgs, hAny, hPop]
    have hPass : (luaAutocmdToolPre hooks out tool.name obj).vetoed = false ∧
        (luaAutocmdToolPre hooks out tool.name obj).approve =
          (replies out payload (hooks.callbacks out)).any Reply.approves := by
      simp [luaAutocmdToolPre, hChain, hStack, hLoop]
    obtain ⟨hVetoed, hApprove⟩ := hPass
    have hReply : reply =
        if (replies out payload (hooks.callbacks out)).any Reply.approves then
          ⟨.approve, rewrite, none⟩
        else baseGate base out tool args rewrite := by
      simp only [reply, gateWithAutocmds, if_neg hChain, hObj, hVetoed, hApprove, hPre]
      rfl
    rw [hReply]
    cases (replies out payload (hooks.callbacks out)).any Reply.approves with
    | true => simp [hRewrite]
    | false =>
      obtain ⟨hSame, hDecision, hRefusal⟩ := baseGate_reply hPolicy out tool args rewrite
      rw [hRewrite] at hDecision hRefusal
      rw [if_neg Bool.false_ne_true, hSame, hDecision, hRefusal]
      simp [hRewrite]

variable {lib : JsonLib} {w : World} {turn turn' : AgentTurn}

def AgentOutput.message : AgentOutput → Option CJson
  | .append _ msg _ => some msg
  | _ => none

theorem fire_index (turn : AgentTurn) (o : AgentOutput) :
    (fire w turn o).toolIndex = turn.toolIndex := by
  have hFinish : ∀ (turn : AgentTurn) outcome err,
      (finishTurn turn outcome err).toolIndex = turn.toolIndex := by
    intro turn outcome err
    unfold finishTurn
    split <;> rfl
  have hError : ∀ (turn : AgentTurn) err,
      (providerOnError turn err).toolIndex = turn.toolIndex := by
    intro turn err
    unfold providerOnError
    dsimp only
    split
    · exact hFinish _ _ _
    · exact hFinish _ _ _
  unfold fire agentTurnCancel cancelStream
  dsimp only
  split
  · split
    · rfl
    split
    · split
      · exact hError _ _
      · rfl
    · split <;> rfl
  · rfl

theorem control_entries {new : History} (h : ∀ o ∈ new, o.control) :
    new.filterMap AgentOutput.message = [] ∧ (∀ name result, .onToolResult name result ∉ new) ∧
      ∀ o ∈ new, o.isExecute = false := by
  refine ⟨?_, ?_, fun o ho => (h o ho).passive.1⟩
  · rw [List.filterMap_eq_nil_iff]
    intro o ho
    have hControl := h o ho
    cases o with
    | append sess msg ok => cases hControl
    | _ => rfl
  · intro name result hMem
    cases h _ hMem

/-- The entries that answer a call: one tool message, and every result reported is `result`. -/
structure Answers (id : Bytes) (result : ToolResult) (new : History) : Prop where
  message : new.filterMap AgentOutput.message = [toolMessage id result.content]
  results : ∀ name result', .onToolResult name result' ∈ new → result' = result
  executes : ∀ o ∈ new, o.isExecute = false

/-- A call that is answered without a run: one tool message, and its result is an error. -/
theorem syntheticResult_entries (lib : JsonLib) (w : World) (turn : AgentTurn) (content : Bytes) :
    ∃ new, (syntheticResult lib w turn content).out = turn.out ++ new ∧
      Answers ((turn.calls[turn.toolIndex]?.bind callId).getD []) ⟨content, true⟩ new := by
  unfold syntheticResult toolCompleted appendToolMessage append
  dsimp only
  generalize hMsg : toolMessage ((turn.calls[turn.toolIndex]?.bind callId).getD []) content = msg
  obtain ⟨sess, result⟩ := sessionAppend lib turn.session msg (w.write turn.out)
  have hAppend : ∀ ok, Answers ((turn.calls[turn.toolIndex]?.bind callId).getD []) ⟨content, true⟩
      [.append turn.session msg ok] := by
    intro ok
    refine ⟨?_, ?_, ?_⟩
    · rw [hMsg]
      rfl
    · simp
    · simp [AgentOutput.isExecute]
  have hFire : ∀ (next : AgentTurn) name, next.out = turn.out ++ [.append turn.session msg true] →
      ∃ new, (fire w next (.onToolResult name ⟨content, true⟩)).out = turn.out ++ new ∧
        Answers ((turn.calls[turn.toolIndex]?.bind callId).getD []) ⟨content, true⟩ new := by
    intro next name hNext
    obtain ⟨control, hOut, hControl⟩ := (fire_adds w next
      (.onToolResult name ⟨content, true⟩)).entries
    obtain ⟨hMessages, hResults, hExecutes⟩ := control_entries hControl
    refine ⟨.append turn.session msg true :: .onToolResult name ⟨content, true⟩ :: control,
      ?_, ?_, ?_, ?_⟩
    · rw [hOut, AgentTurn.emit, hNext]
      simp
    · rw [hMsg]
      show msg :: control.filterMap AgentOutput.message = [msg]
      rw [hMessages]
    · simp [hResults]
    · simpa [AgentOutput.isExecute] using hExecutes
  cases result with
  | error err => exact ⟨_, rfl, hAppend false⟩
  | ok u =>
    dsimp only
    split
    · exact hFire _ _ rfl
    · exact ⟨_, rfl, hAppend true⟩

theorem startTool_gated {gate : AgentGate} (hGate : w.gate = some gate) {idx : Nat}
    (hTool : callTool w turn idx = some tool) (hArgs : callArgs lib turn.calls[idx]? = .ok args) :
    let gated := fire w turn (.gate tool args)
    let reply := gate gated.out tool args
    let final := reply.rewrite.getD args
    let started := if w.hasToolStart then fire w gated (.onToolStart tool.name final) else gated
    (reply.decision = .refuse → startTool lib w turn idx =
      (syntheticResult lib w gated (reply.refusal.getD (ascii "refused by the tool gate")), none)) ∧
    (reply.decision = .approve → startTool lib w turn idx =
      runTool lib w started (started.step, idx) tool final) := by
  intro gated reply final started
  unfold callTool at hTool
  unfold callArgs at hArgs
  dsimp only at hTool hArgs
  unfold startTool
  dsimp only
  rw [hTool]
  dsimp only
  rw [hArgs]
  dsimp only
  unfold consultGate
  rw [hGate]
  dsimp only
  constructor
  · intro hRefuse
    have : (gate (fire w turn (.gate tool args)).out tool args).decision = .refuse := hRefuse
    rw [this]
  · intro hApprove
    have : (gate (fire w turn (.gate tool args)).out tool args).decision = .approve := hApprove
    rw [this]

structure Decided (hooks : LuaHooks) (base : AgentGate) (out : History) (tool : ToolDef)
    (args : CJson) (payload : Payload hooks.Value) (loop : ToolPreLoop hooks.Value) (id : Bytes)
    (new : History) : Prop where
  /-- A veto is a false or a string from a hook that is reached. -/
  vetoed_iff : loop.vetoed = true ↔ ∃ before r, VetoedBy out payload (hooks.callbacks out) before r
  stops : ∀ before r, VetoedBy out payload (hooks.callbacks out) before r →
    loop.called = before.length + 1
  /-- The tool runs, and on which arguments, as the hooks and the base gate say. -/
  executed_iff : ∀ args', (∃ key, .execute key tool args' ∈ new) ↔
    loop.vetoed = false ∧
    ((replies out payload (hooks.callbacks out)).any Reply.approves = true ∨
      (base out tool (finalArgs hooks out payload (hooks.callbacks out) args)).decision =
        .approve) ∧
    args' = finalArgs hooks out payload (hooks.callbacks out) args
  vetoed : ∀ before r, VetoedBy out payload (hooks.callbacks out) before r →
    Answers id ⟨vetoText r, true⟩ new
  /-- A refusal of the base gate is answered with its text. -/
  refused : loop.vetoed = false →
    (replies out payload (hooks.callbacks out)).any Reply.approves = false →
    (base out tool (finalArgs hooks out payload (hooks.callbacks out) args)).decision = .refuse →
    Answers id ⟨((base out tool (finalArgs hooks out payload (hooks.callbacks out)
      args)).refusal.getD (ascii "refused by the tool gate")), true⟩ new

theorem gated_synthetic (lib : JsonLib) (w : World) (turn : AgentTurn) (tool : ToolDef) (args : CJson) (content : Bytes) :
    ∃ new, (syntheticResult lib w (fire w turn (.gate tool args)) content).out = turn.out ++ new ∧
      Answers ((turn.calls[turn.toolIndex]?.bind callId).getD []) ⟨content, true⟩ new := by
  have hFire := fire_adds w turn (.gate tool args)
  obtain ⟨control, hOut, hControl⟩ := hFire.entries
  obtain ⟨hMessages, hResults, hExecutes⟩ := control_entries hControl
  obtain ⟨new, hNew, hAnswers⟩ := syntheticResult_entries lib w
    (fire w turn (.gate tool args)) content
  rw [fire_index, hFire.calls] at hAnswers
  refine ⟨.gate tool args :: control ++ new, ?_, ?_, ?_, ?_⟩
  · rw [hNew, hOut, AgentTurn.emit]
    simp
  · rw [List.filterMap_append]
    show control.filterMap AgentOutput.message ++ new.filterMap AgentOutput.message = _
    rw [hMessages, List.nil_append]
    exact hAnswers.message
  · intro name result hMem
    rcases List.mem_append.mp hMem with hMem | hMem
    · rcases List.mem_cons.mp hMem with hGate | hMem
      · cases hGate
      · exact absurd hMem (hResults name result)
    · exact hAnswers.results name result hMem
  · intro o hMem
    rcases List.mem_append.mp hMem with hMem | hMem
    · rcases List.mem_cons.mp hMem with rfl | hMem
      · rfl
      · exact hExecutes o hMem
    · exact hAnswers.executes o hMem

theorem gated_run (turn : AgentTurn) (tool : ToolDef) (args final : CJson) (key : CallKey)
    (started : AgentTurn) (hStarted : Adds AgentOutput.passive (fire w turn (.gate tool args)) started) :
    ∃ new, (runTool lib w started key tool final).1.out = turn.out ++ new ∧
      ∀ args', (∃ key, .execute key tool args' ∈ new) ↔ args' = final := by
  have hGate := (fire_passive w turn (o := .gate tool args) ⟨rfl, rfl⟩).trans hStarted
  obtain ⟨before, hBefore, hQuiet⟩ := hGate.entries
  obtain ⟨after, hAfter, hRest⟩ := (runTool_adds lib w started key tool final).entries
  refine ⟨before ++ .execute key tool final :: after, ?_, ?_⟩
  · rw [hAfter, AgentTurn.emit, hBefore]
    simp
  · intro args'
    constructor
    · rintro ⟨key', hMem⟩
      rcases List.mem_append.mp hMem with hMem | hMem
      · cases (hQuiet _ hMem).1
      · rcases List.mem_cons.mp hMem with hSame | hMem
        · cases hSame
          rfl
        · cases (hRest _ hMem).1
    · rintro rfl
      exact ⟨key, List.mem_append_right _ List.mem_cons_self⟩

theorem started_passive (turn : AgentTurn) (tool : ToolDef) (args final : CJson) :
    Adds AgentOutput.passive (fire w turn (.gate tool args))
      (if w.hasToolStart then
        fire w (fire w turn (.gate tool args)) (.onToolStart tool.name final)
      else fire w turn (.gate tool args)) := by
  split
  · exact fire_passive w _ ⟨rfl, rfl⟩
  · exact Adds.refl _

/-- The hooks, in the order they were registered, and the base gate decide a call; the tool and
the base gate see the same arguments, and a refused call gets one answer. -/
theorem startTool_decided (hGate : w.gate = some (gateWithAutocmds hooks base))
    (hPolicy : ∀ out tool args, (base out tool args).rewrite = none)
    (hStack : ∀ out, hooks.checkStack out = true)
    (hTool : callTool w turn turn.toolIndex = some tool)
    (hArgs : callArgs lib turn.calls[turn.toolIndex]? = .ok args)
    (hObj : cjsonToObject args = .ok obj) :
    let out := (fire w turn (.gate tool args)).out
    let payload := startPayload hooks out tool.name obj
    (Passes out payload (hooks.callbacks out) → LeavesDict hooks out payload (hooks.callbacks out)) →
    ∃ new, (startTool lib w turn turn.toolIndex).1.out = turn.out ++ new ∧
      Decided hooks base out tool args payload (toolPreLoop hooks out tool.name obj)
        ((turn.calls[turn.toolIndex]?.bind callId).getD []) new := by
  intro out payload hFinal
  obtain ⟨hRefused, hApproved⟩ := startTool_gated hGate hTool hArgs
  rcases passes_or_vetoed out payload (hooks.callbacks out) with hPass | ⟨before, r, hVeto⟩
  · obtain ⟨hOpen, hRewrite, hDecision, hRefusal⟩ :=
      gateWithAutocmds_pass hPolicy (hStack out) hObj hPass (hFinal hPass)
    have hNone := hPass.not_vetoed
    have hFree : (toolPreLoop hooks out tool.name obj).vetoed ≠ true := by simp [hOpen]
    cases hReply : (gateWithAutocmds hooks base out tool args).decision with
    | approve =>
      rw [hApproved hReply]
      obtain ⟨new, hNew, hExecuted⟩ := gated_run turn tool args
        ((gateWithAutocmds hooks base out tool args).rewrite.getD args) _ _
        (started_passive turn tool args _)
      refine ⟨new, hNew, ⟨?_, ?_, ?_, ?_, ?_⟩⟩
      · exact iff_of_false hFree fun ⟨before, r, h⟩ => hNone before r h
      · exact fun before r h => absurd h (hNone before r)
      · intro args'
        rw [hExecuted, hRewrite]
        exact ⟨fun h => ⟨hOpen, hDecision.mp hReply, h⟩, fun h => h.2.2⟩
      · exact fun before r h => absurd h (hNone before r)
      · intro _ hNoHook hBase
        rcases hDecision.mp hReply with hHook | hApprove
        · rw [hNoHook] at hHook
          cases hHook
        · rw [hBase] at hApprove
          cases hApprove
    | refuse =>
      rw [hRefused hReply]
      obtain ⟨new, hNew, hAnswers⟩ := gated_synthetic lib w turn tool args
        ((gateWithAutocmds hooks base out tool args).refusal.getD
          (ascii "refused by the tool gate"))
      refine ⟨new, hNew, ⟨?_, ?_, ?_, ?_, ?_⟩⟩
      · exact iff_of_false hFree fun ⟨before, r, h⟩ => hNone before r h
      · exact fun before r h => absurd h (hNone before r)
      · intro args'
        refine iff_of_false ?_ ?_
        · rintro ⟨key, hMem⟩
          cases hAnswers.executes _ hMem
        · rintro ⟨-, hApprove, -⟩
          rw [hDecision.mpr hApprove] at hReply
          cases hReply
      · exact fun before r h => absurd h (hNone before r)
      · intro _ _ _
        rw [← hRefusal hReply]
        exact hAnswers
  · obtain ⟨hReply, hVetoed, -⟩ := gateWithAutocmds_veto base (hStack out) hObj hVeto
    have hRefuse : (gateWithAutocmds hooks base out tool args).decision = .refuse := by
      rw [hReply]
    rw [hRefused hRefuse]
    obtain ⟨new, hNew, hAnswers⟩ := gated_synthetic lib w turn tool args
      ((gateWithAutocmds hooks base out tool args).refusal.getD (ascii "refused by the tool gate"))
    refine ⟨new, hNew, ⟨?_, ?_, ?_, ?_, ?_⟩⟩
    · exact iff_of_true hVetoed ⟨before, r, hVeto⟩
    · intro before' r' hVeto'
      exact (gateWithAutocmds_veto base (hStack out) hObj hVeto').2.2
    · intro args'
      refine iff_of_false ?_ ?_
      · rintro ⟨key, hMem⟩
        cases hAnswers.executes _ hMem
      · rintro ⟨hOpen, -⟩
        rw [hVetoed] at hOpen
        cases hOpen
    · intro before' r' hVeto'
      rw [(gateWithAutocmds_veto base (hStack out) hObj hVeto').1] at hAnswers
      exact hAnswers
    · intro hOpen
      rw [hVetoed] at hOpen
      cases hOpen

/-! One hook rewrites the command and the next approves it. -/

def rewriteHooks : LuaHooks where
  Value := Object
  nil := .nil
  pushString s := .string s
  checkStack _ := true
  objectToLua _ obj := some obj
  luaPopObject _ value := some value
  callbacks _ :=
    [fun _ payload => (some (.table (.dict [(ascii "command", .string (ascii "ls"))])), payload),
      fun _ payload => (some (.boolean true), payload)]

def rewriteWorld : World :=
  { vetoWorld with gate := some (gateWithAutocmds rewriteHooks agentGateAutoRefuse) }

def rewriteTurn : AgentTurn := { vetoTurn with timer := false, calls := [bashCall flatArgsText] }

theorem startTool_decided_sample :
    ∃ new, (startTool vetoLib rewriteWorld rewriteTurn 0).1.out = rewriteTurn.out ++ new ∧
      ∃ key, .execute key ⟨ascii "bash", true⟩
        (.object [(ascii "command", .string (ascii "ls"))]) ∈ new := by
  have hGate : rewriteWorld.gate = some (gateWithAutocmds rewriteHooks agentGateAutoRefuse) := rfl
  have hPolicy : ∀ out tool args, (agentGateAutoRefuse out tool args).rewrite = none := by
    intro out tool args
    unfold agentGateAutoRefuse
    split <;> rfl
  have hStack : ∀ out, rewriteHooks.checkStack out = true := fun _ => rfl
  have hTool : callTool rewriteWorld rewriteTurn rewriteTurn.toolIndex =
      some ⟨ascii "bash", true⟩ := rfl
  have hArgs : callArgs vetoLib rewriteTurn.calls[rewriteTurn.toolIndex]? = .ok flatArgs := rfl
  have hObj : cjsonToObject flatArgs =
      .ok (.dict [(ascii "command", .string (ascii "id"))]) := rfl
  obtain ⟨new, hNew, hDecided⟩ := startTool_decided hGate hPolicy hStack hTool hArgs hObj
    (fun _ _ => ⟨_, rfl, by simp, by decide⟩)
  exact ⟨new, hNew, (hDecided.executed_iff _).mpr ⟨rfl, .inl rfl, rfl⟩⟩

end Mua.Agent
