import Mua.Http
import Mua.Lib.Run
import Mua.Lib.After

/-! # What a request is told

The callbacks of one request, read off the history: its status at most once, then
chunks, then its completion. `Sound` ties that to the flags of the request and to
the nodes the list of live requests has; every step keeps it, whatever the
callbacks start and cancel meanwhile.
-/

namespace Mua.Http

open Openrouter Linked Run

inductive Kind
  | status
  | chunk
  | complete
  deriving DecidableEq, Repr

/-- The callback of `req` that an entry is. -/
def Entry.kindFor (req : Nat) : Entry → Option Kind
  | .status i _ _ => if i = req then some .status else none
  | .chunk i _ => if i = req then some .chunk else none
  | .complete i _ => if i = req then some .complete else none
  | _ => none

def Entry.req : Entry → Nat
  | .accepted i _ | .cancelled i | .status i _ _ | .chunk i _ | .complete i _ => i

def callbacksOf (req : Nat) (out : History) : List Kind := out.filterMap (Entry.kindFor req)

variable {out : History} {e : Entry} {i req : Nat} {r r' : HttpRequest} {live : Bool}

theorem callbacksOf_snoc :
    callbacksOf i (out ++ [e]) = callbacksOf i out ++ (e.kindFor i).toList := by
  rw [callbacksOf, List.filterMap_append, callbacksOf]
  cases h : e.kindFor i <;> simp [h]

theorem Entry.kindFor_ne (h : e.req ≠ i) : e.kindFor i = none := by
  cases e with
  | accepted j cb => rfl
  | cancelled j => rfl
  | status j s t => exact if_neg h
  | chunk j bytes => exact if_neg h
  | complete j res => exact if_neg h

/-- The status, `n` chunks and the completion, as far as they have come. -/
def callbackShape (r : HttpRequest) (n : Nat) (live : Bool) : List Kind :=
  (if r.statusReported && r.cb.onStatus then [.status] else []) ++ List.replicate n .chunk ++
    if !live && r.cb.onComplete then [.complete] else []

/-- What the history tells of a request agrees with its flags. -/
structure Told (out : History) (r : HttpRequest) (live : Bool) (i : Nat) : Prop where
  shape : ∃ n, callbacksOf i out = callbackShape r n live ∧ (0 < n → r.statusReported = true)
  cancelled : .cancelled i ∈ out → r.cancelRequested = true
  accepted : ∀ cb, .accepted i cb ∈ out → r.cb = cb

theorem Told.other (h : Told out r live i) (hReq : e.req ≠ i) : Told (out ++ [e]) r live i := by
  constructor
  · rw [callbacksOf_snoc, Entry.kindFor_ne hReq, Option.toList_none, List.append_nil]
    exact h.shape
  · intro hMem
    rcases List.mem_append.mp hMem with hOut | hLast
    · exact h.cancelled hOut
    · exact absurd (congrArg Entry.req (List.mem_singleton.mp hLast)).symm hReq
  · intro cb hMem
    rcases List.mem_append.mp hMem with hOut | hLast
    · exact h.accepted cb hOut
    · exact absurd (congrArg Entry.req (List.mem_singleton.mp hLast)).symm hReq

theorem Told.next (h : Told out r live i) (next : Option Nat) :
    Told out { r with next := next } live i := ⟨h.shape, h.cancelled, h.accepted⟩

theorem Told.cancel (h : Told out r live i) :
    Told (out ++ [.cancelled i]) { r with cancelRequested := true } live i := by
  refine ⟨?_, fun _ => rfl, fun cb hMem => ?_⟩
  · rw [callbacksOf_snoc]
    exact (List.append_nil _).symm ▸ h.shape
  · rcases List.mem_append.mp hMem with hOut | hLast
    · exact h.accepted cb hOut
    · exact absurd (List.mem_singleton.mp hLast) nofun

theorem Told.callback (h : Told out r live i) {live' : Bool} {kind : Kind}
    (hKind : e.kindFor i = some kind)
    (hShape : ∃ n, callbacksOf i out ++ [kind] = callbackShape r' n live' ∧
      (0 < n → r'.statusReported = true))
    (hCancelled : r'.cancelRequested = r.cancelRequested) (hCb : r'.cb = r.cb) :
    Told (out ++ [e]) r' live' i := by
  constructor
  · rw [callbacksOf_snoc, hKind]
    exact hShape
  · intro hMem
    rw [hCancelled]
    rcases List.mem_append.mp hMem with hOut | hLast
    · exact h.cancelled hOut
    · rw [← List.mem_singleton.mp hLast] at hKind
      exact absurd hKind nofun
  · intro cb hMem
    rw [hCb]
    rcases List.mem_append.mp hMem with hOut | hLast
    · exact h.accepted cb hOut
    · rw [← List.mem_singleton.mp hLast] at hKind
      exact absurd hKind nofun

theorem Told.unreported (h : Told out r true i) (hReported : r.statusReported = false) :
    callbacksOf i out = [] := by
  obtain ⟨n, hShape, hChunks⟩ := h.shape
  have hNone : n = 0 := by
    apply Nat.eq_zero_of_not_pos
    intro hPos
    exact absurd (hReported.symm.trans (hChunks hPos)) Bool.false_ne_true
  rw [hShape, hNone, callbackShape, hReported]
  rfl

theorem Told.status (h : Told out r true i) (hReported : r.statusReported = false)
    (hCb : r.cb.onStatus = true) (status : Int) (contentType : Option Bytes) :
    Told (out ++ [.status i status contentType]) { r with statusReported := true } true i := by
  refine h.callback (if_pos rfl) ⟨0, ?_, fun _ => rfl⟩ rfl rfl
  rw [h.unreported hReported, callbackShape, hCb]
  rfl

theorem Told.noStatus (h : Told out r true i) (hReported : r.statusReported = false)
    (hCb : r.cb.onStatus = false) : Told out { r with statusReported := true } true i := by
  refine ⟨⟨0, ?_, fun _ => rfl⟩, h.cancelled, h.accepted⟩
  rw [h.unreported hReported, callbackShape, hCb]
  rfl

theorem Told.chunk (h : Told out r true i) (hReported : r.statusReported = true) (bytes : Bytes) :
    Told (out ++ [.chunk i bytes]) r true i := by
  obtain ⟨n, hShape, -⟩ := h.shape
  refine h.callback (if_pos rfl) ⟨n + 1, ?_, fun _ => hReported⟩ rfl rfl
  rw [hShape]
  simp [callbackShape, List.replicate_succ']

theorem Told.complete (h : Told out r true i) (hCb : r.cb.onComplete = true) (res : HttpResult) :
    Told (out ++ [.complete i res]) r false i := by
  obtain ⟨n, hShape, hChunks⟩ := h.shape
  refine h.callback (if_pos rfl) ⟨n, ?_, hChunks⟩ rfl rfl
  rw [hShape]
  simp [callbackShape, hCb]

theorem Told.noComplete (h : Told out r true i) (hCb : r.cb.onComplete = false) :
    Told out r false i := by
  obtain ⟨n, hShape, hChunks⟩ := h.shape
  refine ⟨⟨n, ?_, hChunks⟩, h.cancelled, h.accepted⟩
  rw [hShape]
  simp [callbackShape, hCb]

theorem told_accepted (hNone : ∀ e ∈ out, e.req ≠ i) (cb : HttpCallbacks) (next : Option Nat) :
    Told (out ++ [.accepted i cb]) { cb := cb, next := next } true i := by
  have hNothing : callbacksOf i out = [] := by
    rw [callbacksOf, List.filterMap_eq_nil_iff]
    exact fun e he => Entry.kindFor_ne (hNone e he)
  refine ⟨⟨0, ?_, nofun⟩, fun hMem => ?_, fun cb' hMem => ?_⟩
  · rw [callbacksOf_snoc, hNothing]
    rfl
  · rcases List.mem_append.mp hMem with hOut | hLast
    · exact absurd rfl (hNone _ hOut)
    · exact absurd (List.mem_singleton.mp hLast) nofun
  · rcases List.mem_append.mp hMem with hOut | hLast
    · exact absurd rfl (hNone _ hOut)
    · cases List.mem_singleton.mp hLast
      rfl

/-- The live requests are the nodes `ids` of the list; what the history tells of every request
agrees with its flags, and nothing is told of addresses not yet in use. -/
structure Sound (c : HttpClient) (ids : List Nat) : Prop where
  chain : Chain c.next c.requests ids
  nodup : ids.Nodup
  active : c.active = ids.length
  told : ∀ i < c.fresh, Told c.out (c.heap i) (decide (i ∈ ids)) i
  untold : ∀ e ∈ c.out, e.req < c.fresh
  live : ∀ i ∈ ids, i < c.fresh
  allocated : ∀ i, c.allocated i = true → i < c.fresh
  added : ∀ i, c.added i = true → i ∈ ids
  msgs : ∀ i result, .done i result ∈ c.msgs → i ∈ ids

variable {w : World} {c c' : HttpClient} {ids : List Nat}

theorem sound_new : Sound {} [] where
  chain := rfl
  nodup := List.nodup_nil
  active := rfl
  told _ hi := absurd hi (Nat.not_lt_zero _)
  untold _ he := absurd he List.not_mem_nil
  live _ hi := absurd hi List.not_mem_nil
  allocated _ hi := absurd hi Bool.false_ne_true
  added _ hi := absurd hi Bool.false_ne_true
  msgs _ _ hi := absurd hi List.not_mem_nil

theorem Sound.reapArmed (h : Sound c ids) (armed : Bool) : Sound { c with reapArmed := armed } ids :=
  ⟨h.chain, h.nodup, h.active, h.told, h.untold, h.live, h.allocated, h.added, h.msgs⟩

theorem modify_next {f : HttpRequest → HttpRequest}
    (hNext : (f (c.heap req)).next = (c.heap req).next) : (c.modify req f).next = c.next := by
  funext i
  rw [HttpClient.next, HttpClient.modify]
  dsimp only
  split
  · rename_i hi
    subst hi
    exact hNext
  · rfl

theorem Sound.modified (h : Sound c ids) {f : HttpRequest → HttpRequest}
    (hNext : (f (c.heap req)).next = (c.heap req).next)
    (hTold : Told c.out (f (c.heap req)) (decide (req ∈ ids)) req) :
    Sound (c.modify req f) ids := by
  refine ⟨(modify_next hNext).symm ▸ h.chain, h.nodup, h.active, fun i hi => ?_, h.untold, h.live,
    h.allocated, h.added, h.msgs⟩
  by_cases hEq : i = req
  · subst hEq
    simpa [HttpClient.modify] using hTold
  · simpa [HttpClient.modify, hEq] using h.told i hi

theorem Sound.logged (h : Sound c ids) {f : HttpRequest → HttpRequest} (hReq : e.req = req)
    (hLt : req < c.fresh) (hNext : (f (c.heap req)).next = (c.heap req).next)
    (hTold : Told (c.out ++ [e]) (f (c.heap req)) (decide (req ∈ ids)) req) :
    Sound ((c.modify req f).log e) ids := by
  refine ⟨(modify_next hNext).symm ▸ h.chain, h.nodup, h.active, fun i hi => ?_, fun e' he' => ?_,
    h.live, h.allocated, h.added, h.msgs⟩
  · by_cases hEq : i = req
    · subst hEq
      simpa [HttpClient.modify, HttpClient.log] using hTold
    · have hOther := (h.told i hi).other (hReq.trans_ne (Ne.symm hEq))
      simpa [HttpClient.modify, HttpClient.log, hEq] using hOther
  · rcases List.mem_append.mp he' with hOut | hLast
    · exact h.untold e' hOut
    · rw [List.mem_singleton.mp hLast, hReq]
      exact hLt

theorem Sound.log (h : Sound c ids) (hReq : e.req = req) (hLt : req < c.fresh)
    (hTold : Told (c.out ++ [e]) (c.heap req) (decide (req ∈ ids)) req) : Sound (c.log e) ids := by
  have hSame : c.modify req id = c := by simp [HttpClient.modify]
  have hLogged : Sound ((c.modify req id).log e) ids := h.logged hReq hLt rfl hTold
  rwa [hSame] at hLogged

def Entry.isChunk : Entry → Bool
  | .chunk _ _ => true
  | _ => false

/-- The requests `new` were started, none when the client is closing. -/
structure Starts (c c' : HttpClient) (new : List Nat) : Prop where
  closing : c'.closing = c.closing
  refused : c.closing = true → new = []
  fresh : c.fresh ≤ c'.fresh

structure Calls (c c' : HttpClient) (new : List Nat) : Prop extends Starts c c' new where
  grows : ∃ more, c'.out = c.out ++ more ∧ ∀ e ∈ more, e.isChunk = false

theorem Calls.refl (c : HttpClient) : Calls c c [] :=
  ⟨⟨rfl, fun _ => rfl, le_rfl⟩, [], (List.append_nil _).symm, nofun⟩

theorem Starts.trans {c'' : HttpClient} {new new' : List Nat} (h : Starts c c' new)
    (h' : Starts c' c'' new') : Starts c c'' (new' ++ new) where
  closing := h'.closing.trans h.closing
  refused hClosing := by
    rw [h.refused hClosing, h'.refused (h.closing.trans hClosing), List.append_nil]
  fresh := h.fresh.trans h'.fresh

theorem Calls.trans {c'' : HttpClient} {new new' : List Nat} (h : Calls c c' new)
    (h' : Calls c' c'' new') : Calls c c'' (new' ++ new) where
  toStarts := h.toStarts.trans h'.toStarts
  grows := by
    obtain ⟨more, hOut, hMore⟩ := h.grows
    obtain ⟨more', hOut', hMore'⟩ := h'.grows
    refine ⟨more ++ more', by rw [hOut', hOut, List.append_assoc], fun e he => ?_⟩
    exact (List.mem_append.mp he).elim (hMore e) (hMore' e)

theorem Calls.reapArmed {new : List Nat} (h : Calls c c' new) (armed : Bool) :
    Calls c { c' with reapArmed := armed } new :=
  ⟨⟨h.closing, h.refused, h.fresh⟩, h.grows⟩

theorem httpRequest_sound (h : Sound c ids) (r : RequestCall) :
    ∃ new, Sound (httpRequest c r).1 (new ++ ids) ∧ Calls c (httpRequest c r).1 new := by
  unfold httpRequest
  split
  · exact ⟨[], h, .refl c⟩
  rename_i hClosing
  split
  · exact ⟨[], h, .refl c⟩
  split
  · exact ⟨[], h, .refl c⟩
  split
  · exact ⟨[], h, .refl c⟩
  split
  · exact ⟨[], h, .refl c⟩
  split
  · exact ⟨[], h, .refl c⟩
  have hFresh : c.fresh ∉ ids := fun hMem => (h.live _ hMem).false
  refine ⟨[c.fresh], ?_, ?_⟩
  · constructor
    · apply h.chain.push hFresh
      · simp [HttpClient.next, HttpClient.modify, HttpClient.log]
      · intro j hj
        simp [HttpClient.next, HttpClient.modify, HttpClient.log, hj]
    · exact List.nodup_cons.mpr ⟨hFresh, h.nodup⟩
    · simp [HttpClient.modify, HttpClient.log, h.active]
    · intro i hi
      by_cases hEq : i = c.fresh
      · subst hEq
        have hTold := told_accepted (fun e he => (h.untold e he).ne) r.cb c.requests
        simpa [HttpClient.modify, HttpClient.log] using hTold
      · have hLt : i < c.fresh := lt_of_le_of_ne (Nat.le_of_lt_succ hi) hEq
        have hTold := (h.told i hLt).other (e := .accepted c.fresh r.cb) (Ne.symm hEq)
        simpa [HttpClient.modify, HttpClient.log, hEq] using hTold
    · intro e he
      rcases List.mem_append.mp he with hOut | hLast
      · exact (h.untold e hOut).trans (Nat.lt_succ_self _)
      · rw [List.mem_singleton.mp hLast]
        exact Nat.lt_succ_self _
    · intro i hi
      rcases List.mem_cons.mp hi with rfl | hOld
      · exact Nat.lt_succ_self _
      · exact (h.live i hOld).trans (Nat.lt_succ_self _)
    · intro i hi
      by_cases hEq : i = c.fresh
      · exact hEq ▸ Nat.lt_succ_self _
      · have hAllocated : c.allocated i = true := by
          simpa [HttpClient.modify, HttpClient.log, hEq] using hi
        exact (h.allocated i hAllocated).trans (Nat.lt_succ_self _)
    · intro i hi
      by_cases hEq : i = c.fresh
      · exact hEq ▸ List.mem_cons_self
      · have hAdded : c.added i = true := by
          simpa [HttpClient.modify, HttpClient.log, hEq] using hi
        exact List.mem_cons_of_mem _ (h.added i hAdded)
    · intro i result hi
      exact List.mem_cons_of_mem _ (h.msgs i result hi)
  · refine ⟨⟨rfl, fun hTrue => absurd hTrue hClosing, Nat.le_succ _⟩, [_], rfl, ?_⟩
    simp [Entry.isChunk]

theorem httpCancel_sound (h : Sound c ids) (hLt : req < c.fresh) :
    Sound (httpCancel w c req) ids ∧ Calls c (httpCancel w c req) [] := by
  unfold httpCancel
  split
  · exact ⟨h, .refl c⟩
  have hLogged : Sound ((c.modify req fun r => { r with cancelRequested := true }).log
      (.cancelled req)) ids := h.logged rfl hLt rfl (h.told req hLt).cancel
  have hCalls : Calls c ((c.modify req fun r => { r with cancelRequested := true }).log
      (.cancelled req)) [] := by
    refine ⟨⟨rfl, fun _ => rfl, le_rfl⟩, [_], rfl, ?_⟩
    simp [Entry.isChunk]
  dsimp only
  split
  · exact ⟨hLogged.reapArmed true, hCalls.reapArmed true⟩
  · exact ⟨hLogged, hCalls⟩

theorem call_sound (h : Sound c ids) (x : Call) :
    ∃ new, Sound (call w c x) (new ++ ids) ∧ Calls c (call w c x) new := by
  cases x with
  | request r => exact httpRequest_sound h r
  | cancel req =>
    have hCall : call w c (.cancel req) = if c.allocated req then httpCancel w c req else c := rfl
    rw [hCall]
    split
    · rename_i hAllocated
      exact ⟨[], httpCancel_sound h (h.allocated req hAllocated)⟩
    · exact ⟨[], h, .refl c⟩

theorem calls_sound (h : Sound c ids) (xs : List Call) :
    ∃ new, Sound (calls w c xs) (new ++ ids) ∧ Calls c (calls w c xs) new := by
  induction xs generalizing c ids with
  | nil => exact ⟨[], h, .refl c⟩
  | cons x xs ih =>
    obtain ⟨new, hSound, hCalls⟩ := call_sound (w := w) h x
    obtain ⟨new', hSound', hCalls'⟩ := ih hSound
    rw [← List.append_assoc] at hSound'
    exact ⟨new' ++ new, hSound', hCalls.trans hCalls'⟩

theorem httpRequest_heap (hLt : i < c.fresh) (r : RequestCall) :
    (httpRequest c r).1.heap i = c.heap i := by
  unfold httpRequest
  split
  · rfl
  split
  · rfl
  split
  · rfl
  split
  · rfl
  split
  · rfl
  split
  · rfl
  · exact if_neg hLt.ne

def HttpRequest.fixed (r : HttpRequest) : HttpCallbacks × Bool := (r.cb, r.statusReported)

theorem httpCancel_fixed : ((httpCancel w c req).heap i).fixed = (c.heap i).fixed := by
  have hModify : ((c.modify req fun r => { r with cancelRequested := true }).heap i).fixed =
      (c.heap i).fixed := by
    rw [HttpClient.modify]
    dsimp only
    split
    · rfl
    · rfl
  unfold httpCancel
  split
  · rfl
  dsimp only
  split
  · exact hModify
  · exact hModify

theorem httpCancel_other (hNe : i ≠ req) : (httpCancel w c req).heap i = c.heap i := by
  unfold httpCancel
  split
  · rfl
  dsimp only
  split
  · exact if_neg hNe
  · exact if_neg hNe

theorem call_heap (hLt : i < c.fresh) (x : Call) :
    ((call w c x).heap i).fixed = (c.heap i).fixed ∧
      (x ≠ .cancel i → ((call w c x).heap i).cancelRequested = (c.heap i).cancelRequested) := by
  cases x with
  | request r =>
    have hHeap : (call w c (.request r)).heap i = c.heap i := httpRequest_heap hLt r
    rw [hHeap]
    exact ⟨rfl, fun _ => rfl⟩
  | cancel req =>
    have hCall : call w c (.cancel req) = if c.allocated req then httpCancel w c req else c := rfl
    rw [hCall]
    split
    · refine ⟨httpCancel_fixed, fun hNe => ?_⟩
      rw [httpCancel_other]
      rintro rfl
      exact hNe rfl
    · exact ⟨rfl, fun _ => rfl⟩

theorem calls_heap (h : Sound c ids) (hLt : i < c.fresh) (xs : List Call) :
    ((calls w c xs).heap i).fixed = (c.heap i).fixed ∧
      (.cancel i ∉ xs → ((calls w c xs).heap i).cancelRequested = (c.heap i).cancelRequested) := by
  induction xs generalizing c ids with
  | nil => exact ⟨rfl, fun _ => rfl⟩
  | cons x xs ih =>
    obtain ⟨new, hSound, hCalls⟩ := call_sound (w := w) h x
    obtain ⟨hFixed, hCancelled⟩ := call_heap (w := w) hLt x
    obtain ⟨hFixed', hCancelled'⟩ := ih hSound (hLt.trans_le hCalls.fresh)
    refine ⟨hFixed'.trans hFixed, fun hNone => ?_⟩
    rw [List.mem_cons, not_or] at hNone
    exact (hCancelled' hNone.2).trans (hCancelled (Ne.symm hNone.1))

theorem calls_log (c : HttpClient) {ids' : List Nat} (h : Sound c' ids') (hClosing : c'.closing = c.closing)
    (hFresh : c'.fresh = c.fresh) (hOut : c'.out = c.out ++ [e]) (hEntry : e.isChunk = false)
    (xs : List Call) : ∃ new, Sound (calls w c' xs) (new ++ ids') ∧ Calls c (calls w c' xs) new := by
  obtain ⟨new, hSound, hCalls⟩ := calls_sound (w := w) h xs
  have hLog : Calls c c' [] := by
    refine ⟨⟨hClosing, fun _ => rfl, hFresh.ge⟩, [e], hOut, fun e' he' => ?_⟩
    rw [List.mem_singleton.mp he']
    exact hEntry
  refine ⟨new, hSound, ?_⟩
  have hBoth := hLog.trans hCalls
  rwa [List.append_nil] at hBoth

theorem Sound.status (h : Sound c ids) (hLive : req ∈ ids)
    (hReported : (c.heap req).statusReported = false) (hCb : (c.heap req).cb.onStatus = true)
    (status : Int) (contentType : Option Bytes) :
    Sound ((c.modify req fun r => { r with statusReported := true }).log
      (.status req status contentType)) ids := by
  have hTold := h.told req (h.live req hLive)
  rw [decide_eq_true hLive] at hTold
  apply h.logged
  · rfl
  · exact h.live req hLive
  · rfl
  · rw [decide_eq_true hLive]
    exact hTold.status hReported hCb status contentType

theorem reportStatus_sound (h : Sound c ids) (hLive : req ∈ ids)
    (hReported : (c.heap req).statusReported = false) :
    ∃ new, Sound (reportStatus w c req) (new ++ ids) ∧ Calls c (reportStatus w c req) new := by
  have hHere : (c.modify req fun r => { r with statusReported := true }).heap req =
      { c.heap req with statusReported := true } := if_pos rfl
  unfold reportStatus
  dsimp only
  split
  · rename_i hCb
    rw [hHere] at hCb
    exact calls_log c (h.status hLive hReported hCb _ _) rfl rfl rfl rfl _
  · rename_i hCb
    rw [hHere, Bool.not_eq_true] at hCb
    have hTold := h.told req (h.live req hLive)
    rw [decide_eq_true hLive] at hTold
    have hQuiet : Sound (c.modify req fun r => { r with statusReported := true }) ids := by
      apply h.modified rfl
      rw [decide_eq_true hLive]
      exact hTold.noStatus hReported hCb
    exact ⟨[], hQuiet, ⟨rfl, fun _ => rfl, le_rfl⟩, [], (List.append_nil _).symm, nofun⟩

def statusHistory (w : World) (c : HttpClient) (req : Nat) : History :=
  c.out ++ [.status req ((w.responseCode c.out req).getD 0) (w.contentType c.out req)]

theorem reportStatus_heap (h : Sound c ids) (hLive : req ∈ ids)
    (hReported : (c.heap req).statusReported = false) :
    ((reportStatus w c req).heap req).fixed = ((c.heap req).cb, true) ∧
      (((c.heap req).cb.onStatus = true → .cancel req ∉ w.onStatus (statusHistory w c req) req) →
        ((reportStatus w c req).heap req).cancelRequested = (c.heap req).cancelRequested) := by
  have hHere : (c.modify req fun r => { r with statusReported := true }).heap req =
      { c.heap req with statusReported := true } := if_pos rfl
  unfold reportStatus
  dsimp only
  split
  · rename_i hCb
    rw [hHere] at hCb
    have hLogged := h.status hLive hReported hCb ((w.responseCode c.out req).getD 0)
      (w.contentType c.out req)
    obtain ⟨hFixed, hCancelled⟩ := calls_heap hLogged (h.live req hLive)
      (w.onStatus (statusHistory w c req) req)
    have hFixedHere := congrArg HttpRequest.fixed hHere
    have hCancelledHere := congrArg HttpRequest.cancelRequested hHere
    constructor
    · exact hFixed.trans hFixedHere
    · intro hNone
      exact (hCancelled (hNone hCb)).trans hCancelledHere
  · rw [hHere]
    exact ⟨rfl, fun _ => rfl⟩

theorem Sound.chunk (h : Sound c ids) (hLive : req ∈ ids)
    (hReported : (c.heap req).statusReported = true) (bytes : Bytes) :
    Sound (c.log (.chunk req bytes)) ids := by
  have hTold := h.told req (h.live req hLive)
  rw [decide_eq_true hLive] at hTold
  apply h.log
  · rfl
  · exact h.live req hLive
  · change Told (c.out ++ [.chunk req bytes]) (c.heap req) (decide (req ∈ ids)) req
    rw [decide_eq_true hLive]
    exact hTold.chunk hReported bytes

theorem reported_sound (h : Sound c ids) (hLive : req ∈ ids) :
    ∃ new, Sound (if !(c.heap req).statusReported then reportStatus w c req else c) (new ++ ids) ∧
      Calls c (if !(c.heap req).statusReported then reportStatus w c req else c) new := by
  split
  · rename_i hReported
    rw [Bool.not_eq_true'] at hReported
    exact reportStatus_sound h hLive hReported
  · exact ⟨[], h, .refl c⟩

theorem reported_fixed (h : Sound c ids) (hLive : req ∈ ids) :
    ((if !(c.heap req).statusReported then reportStatus w c req else c).heap req).fixed =
      ((c.heap req).cb, true) := by
  split
  · rename_i hReported
    rw [Bool.not_eq_true'] at hReported
    exact (reportStatus_heap h hLive hReported).1
  · rename_i hReported
    rw [Bool.not_eq_true, Bool.not_eq_false'] at hReported
    rw [HttpRequest.fixed, hReported]

theorem writeCb_sound (h : Sound c ids) (hLive : req ∈ ids) (data : Bytes) :
    ∃ new, Sound (writeCb w c req data).1 (new ++ ids) ∧ Starts c (writeCb w c req data).1 new := by
  unfold writeCb
  split
  · exact ⟨[], h, (Calls.refl c).toStarts⟩
  obtain ⟨new, hSound, hCalls⟩ := reported_sound (w := w) h hLive
  have hFixed := reported_fixed (w := w) h hLive
  dsimp only
  generalize (if !(c.heap req).statusReported then reportStatus w c req else c) = c₁ at *
  have hReported : (c₁.heap req).statusReported = true := congrArg Prod.snd hFixed
  split
  · have hChunk := hSound.chunk (List.mem_append_right new hLive) hReported data
    obtain ⟨new', hSound', hCalls'⟩ := calls_sound (w := w) hChunk
      (w.onChunk (c₁.log (.chunk req data)).out req).1
    have hStarts : Starts c₁ (c₁.log (.chunk req data)) [] := ⟨rfl, fun _ => rfl, le_rfl⟩
    have hAll := hCalls.toStarts.trans (hStarts.trans hCalls'.toStarts)
    rw [← List.append_assoc] at hSound'
    rw [List.append_nil] at hAll
    split
    · exact ⟨new' ++ new, hSound', hAll⟩
    · exact ⟨new' ++ new, hSound', hAll⟩
  · exact ⟨new, hSound, hCalls.toStarts⟩

variable {pre post : List Nat}

theorem unlinkRequest_eq (hChain : Chain c.next c.requests (pre ++ req :: post))
    (hNodup : (pre ++ req :: post).Nodup) (hActive : c.active = (pre ++ req :: post).length) :
    ∃ links head, unlinkRequest c req =
        { c with requests := head, heap := fun i => { c.heap i with next := links i } } ∧
      Chain links head (pre ++ post) := by
  unfold unlinkRequest
  rcases List.eq_nil_or_concat pre with rfl | ⟨pre, p, rfl⟩
  · obtain ⟨hHead, hRest⟩ := hChain
    rw [if_pos hHead]
    exact ⟨c.next, c.next req, rfl, hRest⟩
  · rw [List.concat_eq_append, List.append_assoc] at *
    change Chain c.next c.requests (pre ++ p :: req :: post) at hChain
    change (pre ++ p :: req :: post).Nodup at hNodup
    have hHead := hChain.head_ne hNodup
    have hFuel : pre.length ≤ c.active.toNat := by
      rw [hActive]
      simp
      omega
    rw [if_neg hHead, hChain.seek_eq hNodup hFuel]
    refine ⟨fun i => if i = p then c.next req else c.next i, c.requests, ?_, ?_⟩
    · have hHeap : (fun i => if i = p then { c.heap i with next := c.next req } else c.heap i) =
          fun i => { c.heap i with next := if i = p then c.next req else c.next i } := by
        funext i
        split
        · rfl
        · rfl
      exact congrArg (fun heap => { c with heap := heap }) hHeap
    · apply hChain.unlink hNodup
      · exact if_pos rfl
      · exact fun i hi => if_neg hi

/-- The request is off the list and out of the multi handle, and `out'` tells of its end. -/
theorem Sound.bury (h : Sound c (pre ++ req :: post)) {out' : History}
    (hTold : Told out' (c.heap req) false req)
    (hOther : ∀ i ≠ req, ∀ r live, Told c.out r live i → Told out' r live i)
    (hUntold : ∀ e ∈ out', e.req < c.fresh) :
    Sound { multiRemoveHandle (unlinkRequest c req) req with
      active := (multiRemoveHandle (unlinkRequest c req) req).active - 1
      out := out' } (pre ++ post) := by
  obtain ⟨links, head, hUnlink, hChain⟩ := unlinkRequest_eq h.chain h.nodup h.active
  have hPerm : (pre ++ req :: post).Perm (req :: (pre ++ post)) := List.perm_middle
  have hNodup := List.nodup_cons.mp (hPerm.nodup_iff.mp h.nodup)
  have hMem {i : Nat} (hi : i ∈ pre ++ req :: post) (hNe : i ≠ req) : i ∈ pre ++ post :=
    (List.mem_cons.mp (hPerm.mem_iff.mp hi)).resolve_left hNe
  rw [hUnlink]
  constructor
  · exact hChain
  · exact hNodup.2
  · simp [multiRemoveHandle, h.active]
    omega
  · intro i hi
    by_cases hEq : i = req
    · subst hEq
      rw [decide_eq_false hNodup.1]
      exact hTold.next _
    · have hSame : decide (i ∈ pre ++ post) = decide (i ∈ pre ++ req :: post) := by
        simp [hEq]
      rw [hSame]
      exact (hOther i hEq _ _ (h.told i hi)).next _
  · exact hUntold
  · intro i hi
    exact h.live i (hPerm.mem_iff.mpr (List.mem_cons_of_mem req hi))
  · exact h.allocated
  · intro i hi
    have hAdded : ¬i = req ∧ c.added i = true := by simpa [multiRemoveHandle] using hi
    exact hMem (h.added i hAdded.2) hAdded.1
  · intro i result hi
    obtain ⟨hMsg, hNe⟩ := List.mem_filter.mp hi
    exact hMem (h.msgs i result hMsg) (bne_iff_ne.mp hNe)

theorem unlinkRequest_rest (hChain : Chain c.next c.requests (pre ++ req :: post))
    (hNodup : (pre ++ req :: post).Nodup) (hActive : c.active = (pre ++ req :: post).length) :
    (unlinkRequest c req).out = c.out ∧ (unlinkRequest c req).closing = c.closing ∧
      (unlinkRequest c req).fresh = c.fresh ∧
      ((unlinkRequest c req).heap req).cb = (c.heap req).cb := by
  obtain ⟨links, head, hUnlink, -⟩ := unlinkRequest_eq hChain hNodup hActive
  rw [hUnlink]
  exact ⟨rfl, rfl, rfl, rfl⟩

theorem Sound.freed (h : Sound c ids) (req : Nat) :
    Sound { c with allocated := fun i => if i = req then false else c.allocated i } ids := by
  refine ⟨h.chain, h.nodup, h.active, h.told, h.untold, h.live, fun i hi => ?_, h.added, h.msgs⟩
  have hAllocated : ¬i = req ∧ c.allocated i = true := by simpa using hi
  exact h.allocated i hAllocated.2

theorem Calls.freed {new : List Nat} (h : Calls c c' new) (req : Nat) :
    Calls c { c' with allocated := fun i => if i = req then false else c'.allocated i } new :=
  ⟨⟨h.closing, h.refused, h.fresh⟩, h.grows⟩

/-- The request is taken off and its completion told; the callback may start others. -/
theorem completed_sound (h : Sound c (pre ++ req :: post)) (res : HttpResult) :
    let gone := { multiRemoveHandle (unlinkRequest c req) req with
      active := (multiRemoveHandle (unlinkRequest c req) req).active - 1 }
    ∃ new, Sound (if (gone.heap req).cb.onComplete then
        calls w (gone.log (.complete req res)) (w.onComplete (gone.log (.complete req res)).out req)
      else gone) (new ++ (pre ++ post)) ∧
      Calls c (if (gone.heap req).cb.onComplete then
        calls w (gone.log (.complete req res)) (w.onComplete (gone.log (.complete req res)).out req)
      else gone) new := by
  intro gone
  have hMem : req ∈ pre ++ req :: post := List.mem_append_right pre List.mem_cons_self
  have hTold := h.told req (h.live req hMem)
  rw [decide_eq_true hMem] at hTold
  obtain ⟨hOut, hClosing, hFresh, hCb⟩ := unlinkRequest_rest h.chain h.nodup h.active
  have hGone : (gone.heap req).cb = (c.heap req).cb := hCb
  have hGoneOut : gone.out = c.out := hOut
  rw [hGone]
  split
  · rename_i hComplete
    have hLogged : Sound (gone.log (.complete req res)) (pre ++ post) := by
      apply h.bury
      · rw [hGoneOut]
        exact hTold.complete hComplete res
      · intro i hi r live hOther
        rw [hGoneOut]
        exact hOther.other (Ne.symm hi)
      · intro e he
        rw [hGoneOut] at he
        rcases List.mem_append.mp he with hOld | hLast
        · exact h.untold e hOld
        · rw [List.mem_singleton.mp hLast]
          exact h.live req hMem
    apply calls_log c (e := .complete req res) hLogged hClosing hFresh
    · rw [← hGoneOut]
      rfl
    · rfl
  · rename_i hComplete
    rw [Bool.not_eq_true] at hComplete
    refine ⟨[], ?_, ⟨hClosing, fun _ => rfl, hFresh.ge⟩, [], ?_, nofun⟩
    · have hBuried := h.bury (hTold.noComplete hComplete) (fun _ _ _ _ hOther => hOther) h.untold
      rw [← hOut] at hBuried
      exact hBuried
    · rw [hGoneOut, List.append_nil]

theorem finishRequest_sound (h : Sound c (pre ++ req :: post)) (result : CurlCode) :
    ∃ new, Sound (finishRequest w c req result) (new ++ (pre ++ post)) ∧
      Calls c (finishRequest w c req result) new := by
  have hMem : req ∈ pre ++ req :: post := List.mem_append_right pre List.mem_cons_self
  unfold finishRequest
  dsimp only
  have hReport : ∃ new, Sound (if (!(c.heap req).statusReported &&
        decide (0 < (w.responseCode c.out req).getD 0)) then reportStatus w c req else c)
      (new ++ (pre ++ req :: post)) ∧ Calls c (if (!(c.heap req).statusReported &&
        decide (0 < (w.responseCode c.out req).getD 0)) then reportStatus w c req else c) new := by
    split
    · rename_i hReported
      rw [Bool.and_eq_true, Bool.not_eq_true'] at hReported
      exact reportStatus_sound h hMem hReported.1
    · exact ⟨[], h, .refl c⟩
  obtain ⟨new, hSound, hCalls⟩ := hReport
  generalize (if (!(c.heap req).statusReported &&
    decide (0 < (w.responseCode c.out req).getD 0)) then reportStatus w c req else c) = c₁ at *
  rw [← List.append_assoc] at hSound
  obtain ⟨new', hSound', hCalls'⟩ := completed_sound (w := w) hSound _
  rw [List.append_assoc, ← List.append_assoc] at hSound'
  exact ⟨new' ++ new, hSound'.freed req, (hCalls.trans hCalls').freed req⟩

theorem Sound.read (h : Sound c ids) {msgs : List Msg} (hMsgs : ∀ m ∈ msgs, m ∈ c.msgs) :
    Sound { c with msgs := msgs } ids :=
  ⟨h.chain, h.nodup, h.active, h.told, h.untold, h.live, h.allocated, h.added,
    fun i result hi => h.msgs i result (hMsgs _ hi)⟩

theorem Calls.read {msgs : List Msg} {new : List Nat} (h : Calls { c with msgs := msgs } c' new) :
    Calls c c' new := ⟨⟨h.closing, h.refused, h.fresh⟩, h.grows⟩

theorem drain_sound (h : Sound c ids) (left : Nat) :
    ∃ ids' new, Sound (drain w c left) ids' ∧ Calls c (drain w c left) new := by
  induction left generalizing c ids with
  | zero => exact ⟨ids, [], h.read fun m hm => List.mem_of_mem_tail hm, (Calls.refl _).read⟩
  | succ left ih =>
    rw [drain]
    split
    · exact ⟨ids, [], h, .refl c⟩
    · rename_i rest hMsgs
      have hRest : Sound { c with msgs := rest } ids := by
        apply h.read
        intro m hm
        rw [hMsgs]
        exact List.mem_cons_of_mem _ hm
      obtain ⟨ids', new, hSound, hCalls⟩ := ih hRest
      exact ⟨ids', new, hSound, hCalls.read⟩
    · rename_i req result rest hMsgs
      have hRest : Sound { c with msgs := rest } ids := by
        apply h.read
        intro m hm
        rw [hMsgs]
        exact List.mem_cons_of_mem _ hm
      have hMem : req ∈ ids := h.msgs req result (hMsgs ▸ List.mem_cons_self)
      obtain ⟨pre, post, rfl⟩ := List.append_of_mem hMem
      obtain ⟨new, hSound, hCalls⟩ := finishRequest_sound (w := w) hRest result
      obtain ⟨ids', new', hSound', hCalls'⟩ := ih hSound
      exact ⟨ids', new' ++ new, hSound', (hCalls.trans hCalls').read⟩

theorem reapLoop_sound (h : Sound c (pre ++ post)) (fuel : Nat) :
    ∃ ids' new, Sound (reapLoop w c fuel post.head?) ids' ∧
      Calls c (reapLoop w c fuel post.head?) new := by
  induction fuel generalizing c pre post with
  | zero => exact ⟨_, [], h, .refl c⟩
  | succ fuel ih =>
    cases post with
    | nil => exact ⟨_, [], h, .refl c⟩
    | cons req post =>
      rw [List.head?_cons, reapLoop]
      have hNext : c.next req = post.head? := h.chain.after.head_eq
      rw [hNext]
      split
      · obtain ⟨new, hSound, hCalls⟩ := finishRequest_sound (w := w) h curlAbortedByCallback
        rw [← List.append_assoc] at hSound
        obtain ⟨ids', new', hSound', hCalls'⟩ := ih hSound
        exact ⟨ids', new' ++ new, hSound', hCalls.trans hCalls'⟩
      · rw [List.append_cons] at h
        exact ih h

theorem reapCb_sound (h : Sound c ids) :
    ∃ ids' new, Sound (reapCb w c) ids' ∧ Calls c (reapCb w c) new := by
  have hAll : Sound c ([] ++ ids) := h
  obtain ⟨ids', new, hSound, hCalls⟩ := reapLoop_sound (w := w) hAll c.active.toNat
  have hHead : ids.head? = c.requests := h.chain.head_eq.symm
  rw [hHead] at hSound hCalls
  exact ⟨ids', new, hSound, hCalls⟩

theorem closeLoop_sound (h : Sound c ids) (hClosing : c.closing = true) {fuel : Nat}
    (hFuel : ids.length ≤ fuel) : Sound (closeLoop w c fuel) [] ∧ Calls c (closeLoop w c fuel) [] := by
  induction fuel generalizing c ids with
  | zero =>
    obtain rfl := List.eq_nil_of_length_eq_zero (Nat.le_zero.mp hFuel)
    exact ⟨h, .refl c⟩
  | succ fuel ih =>
    cases ids with
    | nil =>
      have hEmpty : c.requests = none := h.chain
      rw [closeLoop, hEmpty]
      exact ⟨h, .refl c⟩
    | cons req rest =>
      rw [closeLoop, h.chain.1]
      have hFirst : Sound c ([] ++ req :: rest) := h
      obtain ⟨new, hSound, hCalls⟩ := finishRequest_sound (w := w) hFirst curlAbortedByCallback
      obtain rfl := hCalls.refused hClosing
      obtain ⟨hSound', hCalls'⟩ :=
        ih hSound (hCalls.closing.trans hClosing) (Nat.le_of_succ_le_succ hFuel)
      exact ⟨hSound', hCalls.trans hCalls'⟩

def Shut (c : HttpClient) (ids : List Nat) : Prop := c.closing = true → ids = []

theorem httpClientClose_sound (h : Sound c ids) (hShut : Shut c ids) :
    Sound (httpClientClose w c) [] ∧ Calls { c with closing := true } (httpClientClose w c) [] := by
  unfold httpClientClose
  split
  · rename_i hClosing
    obtain rfl := hShut hClosing
    exact ⟨h, ⟨hClosing, fun _ => rfl, le_rfl⟩, [], (List.append_nil _).symm, nofun⟩
  · have hClosing : Sound { c with closing := true } ids :=
      ⟨h.chain, h.nodup, h.active, h.told, h.untold, h.live, h.allocated, h.added, h.msgs⟩
    have hFuel : ids.length ≤ c.active.toNat := by
      rw [h.active]
      exact le_rfl
    exact closeLoop_sound hClosing rfl hFuel

theorem Shut.starts {new : List Nat} (h : Shut c ids) (hStarts : Starts c c' new) :
    Shut c' (new ++ ids) := by
  intro hClosing
  have hBefore := hStarts.closing.symm.trans hClosing
  rw [hStarts.refused hBefore, h hBefore]
  rfl

theorem step_sound (h : Sound c ids) (hShut : Shut c ids) {e : Event}
    (hStep : step w c e = some c') : ∃ ids', Sound c' ids' ∧ Shut c' ids' := by
  cases e with
  | request r =>
    obtain rfl := Option.some.inj hStep
    obtain ⟨new, hSound, hCalls⟩ := httpRequest_sound h r
    exact ⟨new ++ ids, hSound, hShut.starts hCalls.toStarts⟩
  | cancel req =>
    rw [step, Option.ite_none_right_eq_some] at hStep
    obtain ⟨hAllocated, hCancelled⟩ := hStep
    obtain rfl := Option.some.inj hCancelled
    obtain ⟨hSound, hCalls⟩ := httpCancel_sound (w := w) h (h.allocated req hAllocated)
    exact ⟨ids, hSound, hShut.starts hCalls.toStarts⟩
  | write req data =>
    rw [step, Option.ite_none_right_eq_some] at hStep
    obtain ⟨hAdded, hWritten⟩ := hStep
    obtain rfl := Option.some.inj hWritten
    obtain ⟨new, hSound, hStarts⟩ := writeCb_sound (w := w) h (h.added req hAdded) data
    exact ⟨new ++ ids, hSound, hShut.starts hStarts⟩
  | report req result =>
    rw [step, Option.ite_none_right_eq_some, Bool.and_eq_true] at hStep
    obtain ⟨⟨hAdded, -⟩, hReported⟩ := hStep
    obtain rfl := Option.some.inj hReported
    refine ⟨ids, ⟨h.chain, h.nodup, h.active, h.told, h.untold, h.live, h.allocated, h.added,
      fun i result' hi => ?_⟩, hShut⟩
    rcases List.mem_append.mp hi with hOld | hLast
    · exact h.msgs i result' hOld
    · cases List.mem_singleton.mp hLast
      exact h.added req hAdded
  | note =>
    rw [step, Option.ite_none_left_eq_some] at hStep
    obtain rfl := Option.some.inj hStep.2
    refine ⟨ids, ⟨h.chain, h.nodup, h.active, h.told, h.untold, h.live, h.allocated, h.added,
      fun i result hi => ?_⟩, hShut⟩
    rcases List.mem_append.mp hi with hOld | hLast
    · exact h.msgs i result hOld
    · cases List.mem_singleton.mp hLast
  | multi =>
    rw [step, Option.ite_none_left_eq_some] at hStep
    obtain ⟨hOpen, hDrained⟩ := hStep
    obtain rfl := Option.some.inj hDrained
    obtain ⟨ids', new, hSound, hCalls⟩ := drain_sound (w := w) h (c.active + 1).toNat
    exact ⟨ids', hSound, fun hClosing => absurd (hCalls.closing.symm.trans hClosing) hOpen⟩
  | reap =>
    rw [step, Option.ite_none_right_eq_some, Bool.and_eq_true, Bool.not_eq_true'] at hStep
    obtain ⟨⟨-, hOpen⟩, hReaped⟩ := hStep
    obtain rfl := Option.some.inj hReaped
    obtain ⟨ids', new, hSound, hCalls⟩ := reapCb_sound (w := w) (h.reapArmed false)
    refine ⟨ids', hSound, fun hClosing => ?_⟩
    exact absurd (hOpen.symm.trans (hCalls.closing.symm.trans hClosing)) Bool.false_ne_true
  | close =>
    obtain rfl := Option.some.inj hStep
    exact ⟨[], (httpClientClose_sound h hShut).1, fun _ => rfl⟩

/-- No chunk of `req` after a cancel of it. -/
def Quiet (req : Nat) : History → Prop :=
  After.Holds (fun before => .cancelled req ∈ before) fun _ after => ∀ bytes, .chunk req bytes ∉ after

theorem Quiet.snoc (h : Quiet req out) (hEntry : ∀ bytes, e = .chunk req bytes → .cancelled req ∉ out) :
    Quiet req (out ++ [e]) := by
  apply After.Holds.snoc h
  · exact fun _ _ => List.not_mem_nil
  · rintro before after rfl hAt hThen bytes hMem
    rcases List.mem_append.mp hMem with hOld | hLast
    · exact hThen bytes hOld
    · exact hEntry bytes (List.mem_singleton.mp hLast).symm (List.mem_append_left after hAt)

theorem Quiet.append (h : Quiet req out) {more : History} (hMore : ∀ e ∈ more, e.isChunk = false) :
    Quiet req (out ++ more) := by
  induction more generalizing out with
  | nil =>
    rw [List.append_nil]
    exact h
  | cons e more ih =>
    rw [List.append_cons]
    apply ih
    · apply h.snoc
      rintro bytes rfl
      exact absurd (hMore _ List.mem_cons_self) nofun
    · exact fun e' he' => hMore e' (List.mem_cons_of_mem e he')

theorem Calls.quiet {new : List Nat} (h : Calls c c' new) (hQuiet : Quiet req c.out) :
    Quiet req c'.out := by
  obtain ⟨more, hOut, hMore⟩ := h.grows
  rw [hOut]
  exact hQuiet.append hMore

/-- A write that goes on to a chunk does so without a cancel by the status callback it ran. -/
def Event.Clean (w : World) (c : HttpClient) : Event → Prop
  | .write req data =>
    (c.heap req).cancelRequested = false → (c.heap req).statusReported = false →
      (c.heap req).cb.onStatus = true → (c.heap req).cb.onChunk = true → data ≠ [] →
        .cancel req ∉ w.onStatus (statusHistory w c req) req
  | _ => True

def AllClean (w : World) : HttpClient → List Event → Prop
  | _, [] => True
  | c, e :: es => e.Clean w c ∧ ∀ c', step w c e = some c' → AllClean w c' es

theorem writeCb_quiet (h : Sound c ids) (hLive : req ∈ ids) {data : Bytes}
    (hClean : (Event.write req data).Clean w c) (hQuiet : Quiet i c.out) :
    Quiet i (writeCb w c req data).1.out := by
  unfold writeCb
  split
  · exact hQuiet
  rename_i hOpen
  rw [Bool.not_eq_true] at hOpen
  obtain ⟨new, hSound, hCalls⟩ := reported_sound (w := w) h hLive
  have hFixed := reported_fixed (w := w) h hLive
  -- the status callback is the only one that runs between the check and the chunk
  have hFlag : (c.heap req).cb.onChunk = true → data ≠ [] →
      ((if !(c.heap req).statusReported then reportStatus w c req else c).heap
        req).cancelRequested = false := by
    intro hChunk hData
    split
    · rename_i hReported
      rw [Bool.not_eq_true'] at hReported
      have hCancelled := (reportStatus_heap (w := w) h hLive hReported).2
      rw [hCancelled fun hCb => hClean hOpen hReported hCb hChunk hData, hOpen]
    · exact hOpen
  dsimp only
  generalize (if !(c.heap req).statusReported then reportStatus w c req else c) = c₁ at *
  have hCb : (c₁.heap req).cb = (c.heap req).cb := congrArg Prod.fst hFixed
  have hReported : (c₁.heap req).statusReported = true := congrArg Prod.snd hFixed
  have hBefore := hCalls.quiet hQuiet
  split
  · rename_i hChunk
    rw [hCb, Bool.and_eq_true, decide_eq_true_iff] at hChunk
    have hMem := List.mem_append_right new hLive
    have hNone : .cancelled req ∉ c₁.out := by
      intro hCancelled
      have hTrue := (hSound.told req (hSound.live req hMem)).cancelled hCancelled
      have hFalse := hFlag hChunk.1 (List.ne_nil_of_length_pos hChunk.2)
      exact Bool.false_ne_true (hFalse.symm.trans hTrue)
    have hGiven : Quiet i (c₁.log (.chunk req data)).out := by
      apply hBefore.snoc
      rintro bytes ⟨⟩
      exact hNone
    obtain ⟨new', -, hCalls'⟩ := calls_sound (w := w) (hSound.chunk hMem hReported data)
      (w.onChunk (c₁.log (.chunk req data)).out req).1
    split
    · exact hCalls'.quiet hGiven
    · exact hCalls'.quiet hGiven
  · exact hBefore

/-- Where no chunk is given, nothing can follow a cancel. -/
theorem step_quiet (h : Sound c ids) (hShut : Shut c ids) {e : Event} (hClean : e.Clean w c)
    (hStep : step w c e = some c') (hQuiet : Quiet i c.out) : Quiet i c'.out := by
  cases e with
  | request r =>
    obtain rfl := Option.some.inj hStep
    obtain ⟨new, -, hCalls⟩ := httpRequest_sound h r
    exact hCalls.quiet hQuiet
  | cancel req =>
    rw [step, Option.ite_none_right_eq_some] at hStep
    obtain rfl := Option.some.inj hStep.2
    exact (httpCancel_sound h (h.allocated req hStep.1)).2.quiet hQuiet
  | write req data =>
    rw [step, Option.ite_none_right_eq_some] at hStep
    obtain rfl := Option.some.inj hStep.2
    exact writeCb_quiet h (h.added req hStep.1) hClean hQuiet
  | report req result =>
    rw [step, Option.ite_none_right_eq_some] at hStep
    obtain rfl := Option.some.inj hStep.2
    exact hQuiet
  | note =>
    rw [step, Option.ite_none_left_eq_some] at hStep
    obtain rfl := Option.some.inj hStep.2
    exact hQuiet
  | multi =>
    rw [step, Option.ite_none_left_eq_some] at hStep
    obtain rfl := Option.some.inj hStep.2
    obtain ⟨ids', new, -, hCalls⟩ := drain_sound (w := w) h (c.active + 1).toNat
    exact hCalls.quiet hQuiet
  | reap =>
    rw [step, Option.ite_none_right_eq_some] at hStep
    obtain rfl := Option.some.inj hStep.2
    obtain ⟨ids', new, -, hCalls⟩ := reapCb_sound (w := w) (h.reapArmed false)
    exact hCalls.quiet hQuiet
  | close =>
    obtain rfl := Option.some.inj hStep
    exact (httpClientClose_sound h hShut).2.quiet hQuiet

/-- What every request is told, and what the client keeps of those that live. -/
structure Protocol (c : HttpClient) : Prop where
  callbacks : ∀ req, ∃ (status complete : Bool) (chunks : Nat), callbacksOf req c.out =
    (if status then [.status] else []) ++ List.replicate chunks .chunk ++
      if complete then [.complete] else []
  status_first : ∀ req cb, .accepted req cb ∈ c.out → cb.onStatus = true →
    .chunk ∈ callbacksOf req c.out → .status ∈ callbacksOf req c.out
  listed : ∃ ids, Chain c.next c.requests ids ∧ ids.Nodup ∧ c.active = ids.length
  closed : c.closing = true → ∀ req cb, .accepted req cb ∈ c.out → cb.onComplete = true →
    .complete ∈ callbacksOf req c.out

theorem Sound.protocol (h : Sound c ids) (hShut : Shut c ids) : Protocol c where
  callbacks req := by
    by_cases hLt : req < c.fresh
    · obtain ⟨n, hShape, -⟩ := (h.told req hLt).shape
      exact ⟨_, _, n, hShape⟩
    · refine ⟨false, false, 0, ?_⟩
      rw [callbacksOf]
      apply List.filterMap_eq_nil_iff.mpr
      intro e he
      exact Entry.kindFor_ne fun hReq => hLt (hReq ▸ h.untold e he)
  status_first req cb hAccepted hCb hChunk := by
    have hTold := h.told req (h.untold _ hAccepted)
    obtain ⟨n, hShape, hReported⟩ := hTold.shape
    rw [hShape, callbackShape, hTold.accepted cb hAccepted, hCb] at hChunk ⊢
    have hPos : 0 < n := by
      rw [Nat.pos_iff_ne_zero]
      rintro rfl
      simp at hChunk
    simp [hReported hPos]
  listed := ⟨ids, h.chain, h.nodup, h.active⟩
  closed hClosing req cb hAccepted hCb := by
    have hTold := h.told req (h.untold _ hAccepted)
    obtain ⟨n, hShape, -⟩ := hTold.shape
    obtain rfl := hShut hClosing
    rw [hShape, callbackShape, hTold.accepted cb hAccepted, hCb]
    simp

theorem run_sound {es : List Event} (hRun : run (step w) {} es = some c) :
    ∃ ids, Sound c ids ∧ Shut c ids := by
  apply run_invariant (I := fun c => ∃ ids, Sound c ids ∧ Shut c ids) _ _ hRun
  · rintro c e c' ⟨ids, hSound, hShut⟩ hStep
    exact step_sound hSound hShut hStep
  · exact ⟨[], sound_new, fun _ => rfl⟩

theorem run_quiet {es : List Event} (h : Sound c ids) (hShut : Shut c ids) (hClean : AllClean w c es)
    (hRun : run (step w) c es = some c') (hQuiet : Quiet i c.out) : Quiet i c'.out := by
  induction es generalizing c ids with
  | nil => exact Option.some.inj hRun ▸ hQuiet
  | cons e es ih =>
    obtain ⟨mid, hStep, hRest⟩ := run_cons_eq_some.mp hRun
    obtain ⟨ids', hSound, hShut'⟩ := step_sound h hShut hStep
    exact ih hSound hShut' (hClean.2 mid hStep) hRest (step_quiet h hShut hClean.1 hStep hQuiet)

/-- Every run keeps the protocol, and one whose status callbacks do not cancel their request on
the way to a chunk gives no chunk after a cancel. -/
theorem client_protocol (w : World) {es : List Event} {c : HttpClient}
    (hRun : run (step w) {} es = some c) :
    Protocol c ∧ (AllClean w {} es → ∀ req, Quiet req c.out) := by
  obtain ⟨ids, hSound, hShut⟩ := run_sound hRun
  refine ⟨hSound.protocol hShut, fun hClean req => ?_⟩
  apply run_quiet sound_new (fun _ => rfl) hClean hRun
  apply After.Holds.of_not_reached
  rintro ⟨before, after, hNil, hMem⟩
  rw [(List.append_eq_nil_iff.mp hNil.symm).1] at hMem
  cases hMem

theorem allClean_of (h : ∀ out req, .cancel req ∉ w.onStatus out req) (c : HttpClient)
    (es : List Event) : AllClean w c es := by
  induction es generalizing c with
  | nil => trivial
  | cons e es ih =>
    refine ⟨?_, fun c' _ => ih c'⟩
    cases e with
    | write req data => exact fun _ _ _ _ _ => h _ req
    | _ => trivial

def sampleCall : RequestCall := ⟨some (ascii "http://localhost"), 1, ⟨true, true, true⟩, true, true, none⟩

def sampleWorld (onStatus onChunk : Bool) : World where
  onStatus _ req := if onStatus then [.cancel req] else []
  onChunk _ req := (if onChunk then [.cancel req] else [], true)
  onComplete _ req := if req = 0 then [.request sampleCall] else []
  responseCode _ _ := some 200
  contentType _ _ := none
  retryAfter _ _ := none
  errbuf _ _ := []
  strerror _ := []
  timerStarts _ := true

/-- A cancel out of a chunk: the transfer is reaped, another started and closed. -/
theorem client_protocol_reaped :
    ∃ c, run (step (sampleWorld false true)) {} [.request sampleCall, .write 0 [104], .write 0 [105],
        .reap, .close] = some c ∧ c.closing = true ∧ Protocol c ∧ ∀ req, Quiet req c.out := by
  obtain ⟨c, hRun, hClosing⟩ : ∃ c, run (step (sampleWorld false true)) {} [.request sampleCall,
      .write 0 [104], .write 0 [105], .reap, .close] = some c ∧ c.closing = true := ⟨_, rfl, rfl⟩
  obtain ⟨hProtocol, hQuiet⟩ := client_protocol (sampleWorld false true) hRun
  refine ⟨c, hRun, hClosing, ?_⟩
  exact ⟨hProtocol, hQuiet (allClean_of (fun _ _ => List.not_mem_nil) _ _)⟩

/-- A status callback that cancels its request is followed by the chunk of the same write. -/
theorem cancelled_status_chunk :
    ∃ c, run (step (sampleWorld true false)) {} [.request sampleCall, .write 0 [104]] = some c ∧
      ¬(Protocol c ∧ ∀ req, Quiet req c.out) := by
  refine ⟨_, rfl, fun h => ?_⟩
  have hAfter := h.2 0 [.accepted 0 ⟨true, true, true⟩, .status 0 200 none, .cancelled 0]
    [.chunk 0 [104]] rfl (by simp) [104]
  exact hAfter List.mem_cons_self

end Mua.Http
