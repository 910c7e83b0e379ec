import Mua.BashRun
import Mua.Lib.Block

/-! # The output of a bash child and what is said of it

Reads come in pieces of any size. What is kept and what is counted depends on the
stream alone. The content is written into a block whose size is computed first.
-/

namespace Mua.Bash

open Agent Session

variable {exec exec' : ToolExec} {stream seg bytes : Bytes}

def visible (stream : Bytes) : Bytes := stream.filter fun b => b != 0

structure Accounts (exec : ToolExec) (stream : Bytes) : Prop where
  output : exec.output.data = (visible stream).take kToolBashOutputCap
  dropped : exec.dropped = ((visible stream).length - kToolBashOutputCap) % 2 ^ 64
  nuls : exec.nuls = stream.count 0 % 2 ^ 64

theorem visible_append (s t : Bytes) : visible (s ++ t) = visible s ++ visible t :=
  List.filter_append s t

theorem visible_of_nulFree (h : NulFree seg) : visible seg = seg := by
  apply List.filter_eq_self.mpr
  intro b hb
  have : b ≠ 0 := fun h0 => h (h0 ▸ hb)
  simpa using this

theorem Accounts.segment (h : Accounts exec stream) (hSeg : NulFree seg) :
    Accounts (appendSegment exec seg) (stream ++ seg) := by
  have hLength : exec.output.data.length = min kToolBashOutputCap (visible stream).length := by
    rw [h.output, List.length_take]
  let take := min seg.length (kToolBashOutputCap - exec.output.data.length)
  -- what is taken fits exactly, so the append cannot refuse it
  have hFits : exec.output.data.length + (seg.take take).length ≤ kToolBashOutputCap := by
    have hTake : take ≤ kToolBashOutputCap - exec.output.data.length := Nat.min_le_right _ _
    have hCap := exec.output.fits
    have hSegment := List.length_take_le take seg
    omega
  have hAppend : bufAppend exec.output (seg.take take) =
      some ⟨exec.output.data ++ seg.take take, by rw [List.length_append]; exact hFits⟩ :=
    dif_pos hFits
  have hOutput : (appendSegment exec seg).output.data = exec.output.data ++ seg.take take := by
    show ((bufAppend exec.output (seg.take take)).getD exec.output).data = _
    rw [hAppend, Option.getD_some]
  constructor
  · rw [hOutput, visible_append, visible_of_nulFree hSeg, List.take_append, h.output]
    congr 1
    rw [List.take_eq_take_iff]
    show min (min seg.length (kToolBashOutputCap - exec.output.data.length)) seg.length = _
    omega
  · show (exec.dropped + (seg.length - take)) % 2 ^ 64 = _
    have hTake : take = min seg.length (kToolBashOutputCap - exec.output.data.length) := rfl
    have hSplit : (visible stream).length + seg.length - kToolBashOutputCap =
        (visible stream).length - kToolBashOutputCap + (seg.length - take) := by omega
    rw [h.dropped, visible_append, visible_of_nulFree hSeg, List.length_append, hSplit,
      Nat.mod_add_mod]
  · show exec.nuls = _
    rw [List.count_append, List.count_eq_zero_of_not_mem hSeg, Nat.add_zero, h.nuls]

theorem Accounts.nul (h : Accounts exec stream) :
    Accounts { exec with nuls := (exec.nuls + 1) % 2 ^ 64 } (stream ++ [0]) := by
  have hVisible : visible (stream ++ [0]) = visible stream := by
    rw [visible_append, show visible [0] = [] from rfl, List.append_nil]
  constructor
  · rw [hVisible]
    exact h.output
  · rw [hVisible]
    exact h.dropped
  · show (exec.nuls + 1) % 2 ^ 64 = _
    rw [h.nuls, Nat.mod_add_mod, List.count_append, List.count_singleton_self]

theorem nul_of_drop_cstr {nul : Byte} {rest : Bytes}
    (h : bytes.drop (cstr bytes).length = nul :: rest) : nul = 0 := by
  induction bytes with
  | nil => cases h
  | cons b bytes ih =>
    by_cases hb : b = 0
    · subst hb
      exact (List.cons.inj h).1.symm
    · rw [cstr_cons hb, List.length_cons, List.drop_succ_cons] at h
      exact ih h

theorem cstr_append_drop (bytes : Bytes) : cstr bytes ++ bytes.drop (cstr bytes).length = bytes :=
  List.prefix_iff_eq_append.mp (List.takeWhile_prefix _)

theorem Accounts.append (h : Accounts exec stream) (bytes : Bytes) :
    Accounts (bashAppendOutput exec bytes) (stream ++ bytes) := by
  fun_induction bashAppendOutput exec bytes generalizing stream with
  | case1 exec => rwa [List.append_nil]
  | case2 exec bytes hLoop seg =>
    have hBytes : cstr bytes = bytes := by
      have hSplit := cstr_append_drop bytes
      rwa [show bytes.drop (cstr bytes).length = [] from ‹_›, List.append_nil] at hSplit
    have hSegment := h.segment (nulFree_cstr bytes)
    show Accounts (appendSegment exec (cstr bytes)) _
    rw [hBytes] at hSegment ⊢
    exact hSegment
  | case3 exec bytes hLoop seg nul rest hNul exec' =>
    have hSplit := cstr_append_drop bytes
    have hDrop : bytes.drop (cstr bytes).length = nul :: rest := hNul
    rw [hDrop, nul_of_drop_cstr hDrop] at hSplit
    have hMid := (h.segment (nulFree_cstr bytes)).nul
    rw [← hSplit, show (0 : Byte) :: rest = [0] ++ rest from rfl, ← List.append_assoc,
      ← List.append_assoc]
    rename_i ih
    exact ih hMid

def ToolExec.told (exec : ToolExec) : Buf kToolBashOutputCap × Nat × Nat × Int × Int × Int :=
  (exec.output, exec.dropped, exec.nuls, exec.timeoutMs, exec.exitStatus, exec.termSignal)

def IsInt (width : Nat) (n : Int) : Prop := -2 ^ (width - 1) ≤ n ∧ n < 2 ^ (width - 1)

instance (width : Nat) (n : Int) : Decidable (IsInt width n) := inferInstanceAs (Decidable (_ ∧ _))

structure Typed (exec : ToolExec) : Prop where
  timeoutMs : IsInt 64 exec.timeoutMs
  exitStatus : IsInt 64 exec.exitStatus
  termSignal : IsInt 32 exec.termSignal

/-- What libuv reports of an exit is of its types. -/
def Event.Typed : Event → Prop
  | .exit _ exitStatus termSignal => IsInt 64 exitStatus ∧ IsInt 32 termSignal
  | _ => True

def Event.delivered : Event → Bytes
  | .read _ nread scratch => if 0 < nread then scratch.take nread.toNat else []
  | _ => []

structure Heard (exec : ToolExec) (stream : Bytes) : Prop where
  accounts : Accounts exec stream
  typed : Typed exec

theorem Heard.congr (h : Heard exec stream) (hTold : exec'.told = exec.told) :
    Heard exec' stream := by
  simp only [ToolExec.told, Prod.mk.injEq] at hTold
  obtain ⟨hOutput, hDropped, hNuls, hTimeout, hExit, hSignal⟩ := hTold
  constructor
  · exact ⟨hOutput ▸ h.accounts.output, hDropped ▸ h.accounts.dropped, hNuls ▸ h.accounts.nuls⟩
  · exact ⟨hTimeout ▸ h.typed.timeoutMs, hExit ▸ h.typed.exitStatus, hSignal ▸ h.typed.termSignal⟩

variable {w w' : Loop} {b : Bool}

@[simp] theorem bashMaybeFinish_told (b : Bool) (w : Loop) :
    (bashMaybeFinish b w).exec.told = w.exec.told := by
  unfold bashMaybeFinish
  split
  · rfl
  split
  · split <;> rfl
  split
  · cases b <;> rfl
  · rfl

@[simp] theorem bashForcePipeClose_told (b : Bool) (w : Loop) :
    (bashForcePipeClose b w).exec.told = w.exec.told := by
  unfold bashForcePipeClose
  split
  · rfl
  · exact bashMaybeFinish_told b _

theorem bashCloseCb_told (w : Loop) : (bashCloseCb w).exec.told = w.exec.told := by
  unfold bashCloseCb
  dsimp only
  split
  · rfl
  split <;> rfl

theorem bashAppendOutput_typed (h : Typed exec) (bytes : Bytes) :
    Typed (bashAppendOutput exec bytes) := by
  obtain ⟨output, dropped, nuls, hAppend⟩ := bashAppendOutput_flags exec bytes
  rw [hAppend]
  exact ⟨h.timeoutMs, h.exitStatus, h.termSignal⟩

theorem bashReadCb_heard {nread : Int} {scratch : Bytes} (h : Heard w.exec stream) :
    Heard (bashReadCb b nread scratch w).exec
      (stream ++ if 0 < nread then scratch.take nread.toNat else []) := by
  unfold bashReadCb
  split
  · exact ⟨h.accounts.append _, bashAppendOutput_typed h.typed _⟩
  · rw [List.append_nil]
    split
    · exact h.congr (bashForcePipeClose_told b w)
    · exact h

theorem step_heard (h : Heard w.exec stream) {e : Event} (hTyped : e.Typed)
    (hStep : step w e = some w') : Heard w'.exec (stream ++ e.delivered) := by
  cases e with
  | exit timerStarts exitStatus termSignal =>
    rw [step] at hStep
    split at hStep
    · obtain rfl := Option.some.inj hStep
      rw [show stream ++ (Event.exit timerStarts exitStatus termSignal).delivered = stream from List.append_nil _]
      have hExit : Heard { w.exec with exited := true, exitStatus, termSignal } stream :=
        ⟨⟨h.accounts.output, h.accounts.dropped, h.accounts.nuls⟩,
          ⟨h.typed.timeoutMs, hTyped.1, hTyped.2⟩⟩
      exact hExit.congr (bashMaybeFinish_told timerStarts _)
    · cases hStep
  | read timerStarts nread scratch =>
    rw [step] at hStep
    split at hStep
    · obtain rfl := Option.some.inj hStep
      exact bashReadCb_heard h
    · cases hStep
  | timer timerStarts =>
    rw [show stream ++ (Event.timer timerStarts).delivered = stream from List.append_nil _]
    rw [step] at hStep
    split at hStep
    · cases hStep
    split at hStep
    · cases hStep
    · obtain rfl := Option.some.inj hStep
      apply h.congr
      unfold bashTimeoutCb
      split <;> rfl
    · obtain rfl := Option.some.inj hStep
      exact h.congr (bashForcePipeClose_told timerStarts _)
  | cancel timerStarts =>
    rw [show stream ++ (Event.cancel timerStarts).delivered = stream from List.append_nil _]
    rw [step] at hStep
    split at hStep
    · obtain rfl := Option.some.inj hStep
      apply h.congr
      unfold toolsCancel
      dsimp only
      split
      · rfl
      · exact bashForcePipeClose_told timerStarts _
    · cases hStep
  | closed n =>
    rw [show stream ++ (Event.closed n).delivered = stream from List.append_nil _]
    rw [step] at hStep
    split at hStep
    · obtain rfl := Option.some.inj hStep
      exact h.congr (bashCloseCb_told _)
    · cases hStep

theorem run_heard {es : List Event} (h : Heard w.exec stream) (hTyped : ∀ e ∈ es, e.Typed)
    (hRun : Run.run step w es = some w') : Heard w'.exec (stream ++ es.flatMap Event.delivered) := by
  induction es generalizing w stream with
  | nil =>
    obtain rfl := Option.some.inj hRun
    rwa [List.flatMap_nil, List.append_nil]
  | cons e es ih =>
    obtain ⟨mid, hStep, hRest⟩ := Run.run_cons_eq_some.mp hRun
    have hMid := step_heard h (hTyped e List.mem_cons_self) hStep
    rw [List.flatMap_cons, ← List.append_assoc]
    exact ih hMid (fun e' he' => hTyped e' (List.mem_cons_of_mem e he')) hRest

theorem bashExecute_told (setup : Setup) :
    (bashExecute setup).exec.told = (bufInit _, 0, 0, setup.timeoutMs, 0, 0) := by
  obtain ⟨timeoutMs, pipeInit, pipeOpen, timerInit, spawn, readStart, timerStart⟩ := setup
  cases pipeInit
  · rfl
  cases pipeOpen
  · rfl
  cases timerInit
  · rfl
  cases spawn
  · cases readStart
    · cases timerStart <;> rfl
    · rfl
  · rfl

theorem bashExecute_heard {setup : Setup} (hSetup : IsInt 64 setup.timeoutMs) :
    Heard (bashExecute setup).exec [] := by
  have hNew : Heard { timeoutMs := setup.timeoutMs } [] :=
    ⟨⟨rfl, rfl, rfl⟩, ⟨hSetup, (by decide : IsInt 64 0), (by decide : IsInt 32 0)⟩⟩
  exact hNew.congr (bashExecute_told setup)

/-- The note on how the child ended, before it is put into its slot. -/
def outcomeTexts (exec : ToolExec) : List Bytes :=
  if exec.timedOut then
    [ascii "[bash: timed out after " ++ decimalInt exec.timeoutMs ++ ascii " ms (SIGKILL)]"]
  else if exec.canceled then [ascii "[bash: canceled]"]
  else if exec.termSignal ≠ 0 then
    [ascii "[bash: killed by signal " ++ decimalInt exec.termSignal ++ ascii "]"]
  else if exec.exitStatus ≠ 0 then
    [ascii "[bash: exit code " ++ decimalInt exec.exitStatus ++ ascii "]"]
  else []

def truncationText : Bytes := ascii "[bash: output truncated at 64 KiB]"

def graceText : Bytes :=
  ascii ("[bash: stopped reading 500 ms after exit; " ++
    "a background process still holds the output pipe]")

def nulText (nuls : Nat) : Bytes := ascii "[bash: " ++ decimal nuls ++ ascii " NUL bytes removed]"

def noteTexts (exec : ToolExec) : List Bytes :=
  outcomeTexts exec ++ (if 0 < exec.dropped then [truncationText] else []) ++
    (if exec.graceForced then [graceText] else []) ++
    if 0 < exec.nuls then [nulText exec.nuls] else []

/-- A text that its slot holds whole, with its NUL, and that is not empty. -/
structure Slotted (text : Bytes) : Prop where
  fits : text.length < 96
  nulFree : NulFree text
  ne_nil : text ≠ []

theorem Slotted.note_eq {text : Bytes} (h : Slotted text) : note text = text := by
  rw [note, FixedStr.truncate_data, List.take_of_length_le (Nat.le_of_lt_succ h.fits),
    cstr_of_nulFree h.nulFree]

theorem slotted_number {front back : String} {n : Int} (hRoom : front.length + back.length < 75)
    (hFront : NulFree (ascii front)) (hBack : NulFree (ascii back)) (hNe : 0 < front.length)
    (hSmall : n.natAbs < 10 ^ 20) : Slotted (ascii front ++ ascii (toString n) ++ ascii back) where
  fits := by
    have hDigits := length_toString_le (by decide : 0 < 20) hSmall
    simp only [List.length_append, length_ascii]
    omega
  nulFree := by
    rw [nulFree_append, nulFree_append]
    exact ⟨⟨hFront, nulFree_toString n⟩, hBack⟩
  ne_nil := by
    apply List.ne_nil_of_length_pos
    simp only [List.length_append, length_ascii]
    omega

theorem slotted_text {s : String} (hRoom : s.length < 96) (hFree : NulFree (ascii s))
    (hNe : 0 < s.length) : Slotted (ascii s) := by
  refine ⟨?_, hFree, ?_⟩
  · rwa [length_ascii]
  · apply List.ne_nil_of_length_pos
    rwa [length_ascii]

theorem IsInt.natAbs_lt {n : Int} {width : Nat} (h : IsInt width n) (hWidth : width ≤ 64) :
    n.natAbs < 10 ^ 20 := by
  have hPow : (2 : Int) ^ (width - 1) ≤ 2 ^ 63 := by
    have hLe : (2 : Nat) ^ (width - 1) ≤ 2 ^ 63 := Nat.pow_le_pow_right Nat.two_pos (by omega)
    exact_mod_cast hLe
  obtain ⟨hLow, hHigh⟩ := h
  omega

theorem outcomeTexts_slotted (h : Typed exec) : ∀ text ∈ outcomeTexts exec, Slotted text := by
  intro text hText
  rw [outcomeTexts] at hText
  split at hText
  · obtain rfl := List.mem_singleton.mp hText
    exact slotted_number (by decide) (by decide +kernel) (by decide +kernel) (by decide)
      (h.timeoutMs.natAbs_lt (by decide))
  split at hText
  · obtain rfl := List.mem_singleton.mp hText
    exact slotted_text (by decide) (by decide +kernel) (by decide)
  split at hText
  · obtain rfl := List.mem_singleton.mp hText
    exact slotted_number (by decide) (by decide +kernel) (by decide +kernel) (by decide)
      (h.termSignal.natAbs_lt (by decide))
  split at hText
  · obtain rfl := List.mem_singleton.mp hText
    exact slotted_number (by decide) (by decide +kernel) (by decide +kernel) (by decide)
      (h.exitStatus.natAbs_lt (by decide))
  · cases hText

theorem forall_mem_ite {α : Type*} {p : Prop} [Decidable p] {a : α} {P : α → Prop} (h : P a) :
    ∀ b ∈ if p then [a] else [], P b := by
  intro b hb
  split at hb
  · obtain rfl := List.mem_singleton.mp hb
    exact h
  · cases hb

theorem noteTexts_slotted (h : Typed exec) (hNuls : exec.nuls < 2 ^ 64) :
    ∀ text ∈ noteTexts exec, Slotted text := by
  have hTruncation : Slotted truncationText :=
    slotted_text (by decide) (by decide +kernel) (by decide)
  have hGrace : Slotted graceText := slotted_text (by decide) (by decide +kernel) (by decide)
  have hNul : Slotted (nulText exec.nuls) := by
    have hSmall : (exec.nuls : Int).natAbs < 10 ^ 20 := by omega
    have hText : nulText exec.nuls =
        ascii "[bash: " ++ ascii (toString (exec.nuls : Int)) ++ ascii " NUL bytes removed]" := rfl
    rw [hText]
    exact slotted_number (by decide) (by decide +kernel) (by decide +kernel) (by decide) hSmall
  intro text hText
  rw [noteTexts, List.mem_append, List.mem_append, List.mem_append] at hText
  rcases hText with ((hText | hText) | hText) | hText
  · exact outcomeTexts_slotted h text hText
  · exact forall_mem_ite hTruncation text hText
  · exact forall_mem_ite hGrace text hText
  · exact forall_mem_ite hNul text hText

theorem outcomeNotes_eq_map (exec : ToolExec) :
    outcomeNotes exec = (outcomeTexts exec).map note := by
  unfold outcomeNotes outcomeTexts
  split
  · rfl
  split
  · rfl
  split
  · rfl
  split <;> rfl

theorem notes_eq_map (exec : ToolExec) : notes exec = (noteTexts exec).map note := by
  unfold notes noteTexts
  rw [List.map_append, List.map_append, List.map_append, outcomeNotes_eq_map]
  congr 1
  · congr 1
    · congr 1
      split <;> rfl
    · split <;> rfl
  · split <;> rfl

theorem notes_whole (h : ∀ text ∈ noteTexts exec, Slotted text) : notes exec = noteTexts exec := by
  rw [notes_eq_map]
  conv_rhs => rw [← List.map_id (noteTexts exec)]
  apply List.map_congr_left
  intro text hText
  exact (h text hText).note_eq

theorem outcomeTexts_length_le (exec : ToolExec) : (outcomeTexts exec).length ≤ 1 := by
  unfold outcomeTexts
  split
  · exact Nat.le_refl 1
  split
  · exact Nat.le_refl 1
  split
  · exact Nat.le_refl 1
  split
  · exact Nat.le_refl 1
  · exact Nat.zero_le 1

theorem noteTexts_length_le (exec : ToolExec) : (noteTexts exec).length ≤ 4 := by
  have hOutcome := outcomeTexts_length_le exec
  have hOne : ∀ (p : Prop) [Decidable p] (text : Bytes),
      (if p then [text] else []).length ≤ 1 := by
    intro p _ text
    split <;> simp
  have hTruncation := hOne (0 < exec.dropped) truncationText
  have hGrace := hOne (exec.graceForced = true) graceText
  have hNul := hOne (0 < exec.nuls) (nulText exec.nuls)
  rw [noteTexts, List.length_append, List.length_append, List.length_append]
  omega

/-- The size `bash_content` computes: every note with a joiner, whether it has one or not. -/
def contentSize (exec : ToolExec) : Nat :=
  exec.output.data.length + ((notes exec).map fun n => n.length + 1).sum

def writeNote (s : Bytes × Nat) (n : Bytes) : Option (Bytes × Nat) :=
  (if 0 < s.2 then (Block.write s.1 s.2 [10]).map fun block => (block, s.2 + 1) else some s).bind
    fun s => (Block.write s.1 s.2 n).map fun block => (block, s.2 + n.length)

def writeNotes (s : Bytes × Nat) : List Bytes → Option (Bytes × Nat)
  | [] => some s
  | n :: ns => (writeNote s n).bind fun s => writeNotes s ns

/-- The copies of `bash_content` into a new block, with the position of the NUL. -/
def bashContentBlock (fresh : Bytes) (exec : ToolExec) : Option (Bytes × Nat) :=
  (Block.write fresh 0 exec.output.data).bind fun block =>
    (writeNotes (block, exec.output.data.length) (notes exec)).bind fun s =>
      (Block.write s.1 s.2 [0]).map fun block => (block, s.2)

def joinNote (content n : Bytes) : Bytes := if content = [] then n else content ++ 10 :: n

theorem bashContent_eq_foldl (exec : ToolExec) :
    bashContent exec = (notes exec).foldl joinNote exec.output.data := rfl

theorem joinNote_length_le (content n : Bytes) :
    (joinNote content n).length ≤ content.length + (n.length + 1) := by
  rw [joinNote]
  split
  · omega
  · rw [List.length_append, List.length_cons]

theorem writeNote_behind {block content n : Bytes} (hContent : content <+: block)
    (hRoom : content.length + (n.length + 1) ≤ block.length) :
    ∃ block', writeNote (block, content.length) n = some (block', (joinNote content n).length) ∧
      block'.length = block.length ∧ joinNote content n <+: block' := by
  rw [writeNote, joinNote]
  by_cases hEmpty : content = []
  · subst hEmpty
    obtain ⟨block', hWrite, hLength, hFront⟩ :=
      Block.write_behind n hContent (by rw [List.length_nil] at hRoom ⊢; omega)
    refine ⟨block', ?_, hLength, ?_⟩
    · show (Block.write block 0 n).map _ = _
      rw [show Block.write block 0 n = some block' from hWrite]
      simp
    · rwa [if_pos rfl]
  · have hPos : 0 < content.length := List.length_pos_iff.mpr hEmpty
    obtain ⟨mid, hJoin, hMidLength, hMid⟩ :=
      Block.write_behind [10] hContent (by rw [List.length_singleton]; omega)
    obtain ⟨block', hWrite, hLength, hFront⟩ := Block.write_behind n hMid
      (by rw [List.length_append, List.length_singleton, hMidLength]; omega)
    rw [List.append_assoc, List.singleton_append] at hFront
    rw [List.length_append, List.length_singleton] at hWrite
    refine ⟨block', ?_, hLength.trans hMidLength, ?_⟩
    · rw [if_pos hPos, hJoin, if_neg hEmpty]
      show (Block.write mid (content.length + 1) n).map _ = _
      rw [hWrite]
      simp only [Option.map_some, List.length_append, List.length_cons]
      congr 2
      omega
    · rwa [if_neg hEmpty]

theorem writeNotes_behind {block content : Bytes} {ns : List Bytes} (hContent : content <+: block)
    (hRoom : content.length + (ns.map fun n => n.length + 1).sum ≤ block.length) :
    ∃ block', writeNotes (block, content.length) ns =
        some (block', (ns.foldl joinNote content).length) ∧
      block'.length = block.length ∧ ns.foldl joinNote content <+: block' ∧
      (ns.foldl joinNote content).length ≤
        content.length + (ns.map fun n => n.length + 1).sum := by
  induction ns generalizing block content with
  | nil => exact ⟨block, rfl, rfl, hContent, Nat.le_add_right _ _⟩
  | cons n ns ih =>
    rw [List.map_cons, List.sum_cons] at hRoom ⊢
    have hNext := joinNote_length_le content n
    have hFits : content.length + (n.length + 1) ≤ block.length := by omega
    obtain ⟨mid, hNote, hMidLength, hMid⟩ := writeNote_behind hContent hFits
    obtain ⟨block', hNotes, hLength, hFront, hSize⟩ := ih hMid (by omega)
    refine ⟨block', ?_, hLength.trans hMidLength, hFront, ?_⟩
    · rw [writeNotes, hNote]
      exact hNotes
    · rw [List.foldl_cons]
      omega

theorem bashContentBlock_eq (exec : ToolExec) {fresh : Bytes}
    (hFresh : fresh.length = contentSize exec + 1) :
    ∃ block, bashContentBlock fresh exec = some (block, (bashContent exec).length) ∧
      block.length = fresh.length ∧ (bashContent exec).length ≤ contentSize exec ∧
      bashContent exec ++ [0] <+: block := by
  rw [contentSize] at hFresh ⊢
  obtain ⟨first, hFirst, hFirstLength, hOutput⟩ :=
    Block.write_behind exec.output.data (List.nil_prefix (l := fresh))
      (by rw [List.length_nil]; omega)
  rw [List.nil_append] at hOutput
  have hRoom : exec.output.data.length + ((notes exec).map fun n => n.length + 1).sum ≤
      first.length := by omega
  obtain ⟨mid, hNotes, hMidLength, hMid, hSize⟩ := writeNotes_behind hOutput hRoom
  obtain ⟨block, hNul, hLength, hFront⟩ :=
    Block.write_behind [0] hMid (by rw [List.length_singleton]; omega)
  refine ⟨block, ?_, ?_, hSize, hFront⟩
  · rw [bashContentBlock, show Block.write fresh 0 exec.output.data = some first from hFirst,
      Option.bind_some, hNotes, Option.bind_some]
    show (Block.write mid _ [0]).map _ = _
    rw [hNul]
    rfl
  · omega

theorem foldl_joinNote {content : Bytes} (hContent : content ≠ []) (ns : List Bytes) :
    ns.foldl joinNote content = [10].intercalate (content :: ns) := by
  induction ns generalizing content with
  | nil => simp [List.intercalate]
  | cons n ns ih =>
    rw [List.foldl_cons, joinNote, if_neg hContent, ih (by simp)]
    cases ns <;> simp [List.intercalate, List.intersperse]

theorem bashContent_eq_intercalate (h : ∀ n ∈ notes exec, n ≠ []) :
    bashContent exec = [10].intercalate
      ((if exec.output.data = [] then [] else [exec.output.data]) ++ notes exec) := by
  rw [bashContent_eq_foldl]
  split
  · rename_i hEmpty
    rw [hEmpty, List.nil_append]
    cases hNotes : notes exec with
    | nil => rfl
    | cons n ns =>
      rw [hNotes] at h
      rw [List.foldl_cons, joinNote, if_pos rfl, foldl_joinNote (h n List.mem_cons_self)]
  · rename_i hSome
    exact foldl_joinNote hSome _

theorem joinNote_nulFree {content n : Bytes} (hContent : NulFree content) (hn : NulFree n) :
    NulFree (joinNote content n) := by
  rw [joinNote]
  split
  · exact hn
  · rw [nulFree_append]
    refine ⟨hContent, ?_⟩
    intro hMem
    rcases List.mem_cons.mp hMem with hNl | hMem
    · exact absurd hNl (by decide)
    · exact hn hMem

theorem foldl_joinNote_nulFree {content : Bytes} {ns : List Bytes} (hContent : NulFree content)
    (hNotes : ∀ n ∈ ns, NulFree n) : NulFree (ns.foldl joinNote content) := by
  induction ns generalizing content with
  | nil => exact hContent
  | cons n ns ih =>
    have hNext := joinNote_nulFree hContent (hNotes n List.mem_cons_self)
    exact ih hNext fun m hm => hNotes m (List.mem_cons_of_mem n hm)

/-- What is said of a child: its output and whole notes on lines of their own, within the block
that was sized for them. -/
structure ContentSound (exec : ToolExec) : Prop where
  whole : notes exec = noteTexts exec
  notes_le : (notes exec).length ≤ 4
  outcome_le : (outcomeTexts exec).length ≤ 1
  content_eq : bashContent exec = [10].intercalate
    ((if exec.output.data = [] then [] else [exec.output.data]) ++ noteTexts exec)
  nulFree : NulFree (bashContent exec)
  written : ∀ fresh : Bytes, fresh.length = contentSize exec + 1 →
    ∃ block pos, bashContentBlock fresh exec = some (block, pos) ∧ pos ≤ contentSize exec ∧
      block.length = fresh.length ∧ cstr block = bashContent exec

theorem Heard.sound (h : Heard exec stream) : ContentSound exec := by
  have hNuls : exec.nuls < 2 ^ 64 := by
    rw [h.accounts.nuls]
    exact Nat.mod_lt _ (Nat.two_pow_pos 64)
  have hSlotted := noteTexts_slotted h.typed hNuls
  have hWhole := notes_whole hSlotted
  have hOutput : NulFree exec.output.data := by
    rw [h.accounts.output]
    intro hMem
    have hVisible := List.mem_of_mem_take hMem
    simp [visible] at hVisible
  have hFree : NulFree (bashContent exec) := by
    apply foldl_joinNote_nulFree hOutput
    rw [hWhole]
    exact fun n hn => (hSlotted n hn).nulFree
  constructor
  · exact hWhole
  · rw [hWhole]
    exact noteTexts_length_le exec
  · exact outcomeTexts_length_le exec
  · rw [← hWhole]
    apply bashContent_eq_intercalate
    rw [hWhole]
    exact fun n hn => (hSlotted n hn).ne_nil
  · exact hFree
  · intro fresh hFresh
    obtain ⟨block, hBlock, hLength, hSize, rest, rfl⟩ := bashContentBlock_eq exec hFresh
    refine ⟨_, _, hBlock, hSize, hLength, ?_⟩
    rw [List.append_assoc]
    exact cstr_append_nul hFree rest

theorem closed_results {n : HandleName} (hStep : step w (.closed n) = some w') :
    w'.results = w.results ∨
      ∃ isError, w'.results = w.results ++ [⟨bashContent w.exec, isError⟩] := by
  rw [step] at hStep
  split at hStep
  · obtain rfl := Option.some.inj hStep
    unfold bashCloseCb
    dsimp only
    split
    · exact .inl rfl
    split
    · exact .inl rfl
    · exact .inr ⟨_, rfl⟩
  · cases hStep

/-- Whatever the stream of a child and however it is read: what is kept and counted is decided by
the stream alone, and the result that is built of it is whole. -/
theorem bash_output_sound (setup : Setup) (hSetup : IsInt 64 setup.timeoutMs) {es : List Event}
    (hTyped : ∀ e ∈ es, e.Typed) (hRun : Run.run step (bashExecute setup) es = some w) :
    Accounts w.exec (es.flatMap Event.delivered) ∧
      ((es.flatMap Event.delivered).length < 2 ^ 64 →
        w.exec.dropped = (visible (es.flatMap Event.delivered)).length - kToolBashOutputCap ∧
          w.exec.nuls = (es.flatMap Event.delivered).count 0) ∧
      ContentSound w.exec ∧
      ∀ n w', step w (.closed n) = some w' → w'.results = w.results ∨
        ∃ isError, w'.results = w.results ++ [⟨bashContent w.exec, isError⟩] := by
  have h := run_heard (bashExecute_heard hSetup) hTyped hRun
  rw [List.nil_append] at h
  refine ⟨h.accounts, ?_, h.sound, fun n w' hStep => closed_results hStep⟩
  intro hShort
  have hVisible : (visible (es.flatMap Event.delivered)).length ≤ _ := List.length_filter_le _ _
  have hCount : (es.flatMap Event.delivered).count 0 ≤ _ := List.count_le_length
  rw [h.accounts.dropped, h.accounts.nuls]
  exact ⟨Nat.mod_eq_of_lt (by omega), Nat.mod_eq_of_lt (by omega)⟩

/-- A child writes a NUL between two letters, exits with 3 and closes its pipe. -/
def spokenEvents : List Event :=
  [.read true 2 [104, 0, 7], .read true 1 [105], .exit true 3 0, .read true (-4095) [],
    .closed .proc, .closed .out]

theorem bash_output_sound_sample :
    ∃ w, Run.run step (bashExecute ⟨30000, true, true, true, none, none, none⟩) spokenEvents =
        some w ∧ w.exec.output.data = [104, 105] ∧ w.exec.nuls = 1 ∧ ContentSound w.exec := by
  have hEnd : (Run.run step (bashExecute ⟨30000, true, true, true, none, none, none⟩)
      spokenEvents).map (fun w => (w.exec.output.data, w.exec.nuls)) = some ([104, 105], 1) := by
    decide +kernel
  obtain ⟨w, hRun, hW⟩ := Option.map_eq_some_iff.mp hEnd
  obtain ⟨hOutput, hNuls⟩ := Prod.mk.inj hW
  have hTyped : ∀ e ∈ spokenEvents, e.Typed := by
    simp [spokenEvents, Event.Typed, IsInt]
  obtain ⟨-, -, hSound, -⟩ := bash_output_sound _ (by decide) hTyped hRun
  exact ⟨w, hRun, hOutput, hNuls, hSound⟩

end Mua.Bash
