import Mathlib.Data.List.Basic

/-! # A capped stream of frames

A codec says of a buffer that it begins with a frame, needs more, or is bad. A
channel collects its input in chunks, hands out the frames at the front of its
buffer, and closes on a bad buffer, on a frame its handler refuses, and when more
than `cap` symbols wait for the end of a frame. The cap is only looked at there,
so a frame longer than it gets through when one chunk completes it.
-/

namespace Framing

variable {F A S : Type*}

inductive Verdict (F : Type*)
  | frame (f : F) (size : Nat)
  | more
  | bad

/-- A verdict stays as the buffer grows, and a frame is seen as soon as it is complete. -/
structure Codec (F A : Type*) where
  decode : List A → Verdict F
  size_pos : ∀ {b f n}, decode b = .frame f n → 0 < n
  size_le : ∀ {b f n}, decode b = .frame f n → n ≤ b.length
  frame_append : ∀ {b f n} more, decode b = .frame f n → decode (b ++ more) = .frame f n
  bad_append : ∀ {b} more, decode b = .bad → decode (b ++ more) = .bad
  frame_take : ∀ {b f n}, decode b = .frame f n → decode (b.take n) = .frame f n

/-- The frames handed out so far are `frames`. -/
structure Channel (S F A : Type*) where
  state : S
  buf : List A
  stopping : Bool
  frames : List F

variable (C : Codec F A) (cap : Nat) (handle : S → F → Option (S × Bool))

/-- Hands out the frames at the front of the buffer. A handler may fail, or ask to stop. -/
def drain (c : Channel S F A) : Option (Channel S F A) :=
  if _hLoop : c.stopping = false ∧ c.buf ≠ [] then
    match _hDecode : C.decode c.buf with
    | .more => if cap < c.buf.length then some { c with stopping := true } else some c
    | .bad => some { c with stopping := true }
    | .frame f size => (handle c.state f).bind fun (state, stop) =>
      drain ⟨state, c.buf.drop size, stop, c.frames ++ [f]⟩
  else some c
termination_by c.buf.length
decreasing_by
  have hPos := C.size_pos _hDecode
  have hBuf := List.length_pos_of_ne_nil _hLoop.2
  simp only [List.length_drop]
  omega

def feed (c : Channel S F A) (data : List A) : Option (Channel S F A) :=
  if data = [] then some c else drain C cap handle { c with buf := c.buf ++ data }

def run (c : Channel S F A) : List (List A) → Option (Channel S F A)
  | [] => some c
  | data :: rest => if c.stopping then some c else (feed C cap handle c data).bind (run · rest)

/-- What is seen of a channel: the frames handed out, and whether it is closed. -/
def Channel.observe (c : Channel S F A) : List F × Bool := (c.frames, c.stopping)

/-- The chunks of a stream, none longer than `chunk`. -/
def Splits (chunk : Nat) (reads : List (List A)) (stream : List A) : Prop :=
  reads.flatten = stream ∧ ∀ data ∈ reads, data.length ≤ chunk

/-- Frames within the cap are handled one after another, and none of them stops the channel. -/
inductive Reaches : S → List A → List F → S → List A → Prop
  | here (state : S) (stream : List A) : Reaches state stream [] state stream
  | next {state state' last : S} {stream rest : List A} {f : F} {size : Nat} {frames : List F}
      (hDecode : C.decode stream = .frame f size) (hSize : size ≤ cap)
      (hHandle : handle state f = some (state', false))
      (hRest : Reaches state' (stream.drop size) frames last rest) :
      Reaches state stream (f :: frames) last rest

/-- The stream comes to a frame over the cap, by `chunk` symbols at most. -/
def Straddles (chunk : Nat) (state : S) (stream : List A) : Prop :=
  ∃ frames last rest f size, Reaches C cap handle state stream frames last rest ∧
    C.decode rest = .frame f size ∧ cap < size ∧ size ≤ cap + chunk

/-- Every way to cut the stream shows the same, and a frame over the cap is not handed out but
closes the channel. -/
structure SplitSafe (chunk : Nat) (state : S) (stream : List A) : Prop where
  same : ∀ reads reads', Splits chunk reads stream → Splits chunk reads' stream →
    (run C cap handle ⟨state, [], false, []⟩ reads).map Channel.observe =
      (run C cap handle ⟨state, [], false, []⟩ reads').map Channel.observe
  capped : ∀ reads, Splits chunk reads stream → ∀ frames last rest f size,
    Reaches C cap handle state stream frames last rest → C.decode rest = .frame f size →
      cap < size →
        (run C cap handle ⟨state, [], false, []⟩ reads).map Channel.observe = some (frames, true)

variable {C cap handle} {c c' : Channel S F A} {chunk : Nat}

theorem decode_left {b more : List A} {f : F} {n : Nat} (h : C.decode (b ++ more) = .frame f n)
    (hLe : n ≤ b.length) : C.decode b = .frame f n := by
  have hTake := C.frame_take h
  rw [List.take_append_of_le_length hLe] at hTake
  have hAll := C.frame_append (b.drop n) hTake
  rwa [List.take_append_drop] at hAll

theorem decode_part {b more : List A} {f : F} {n : Nat} (h : C.decode (b ++ more) = .frame f n)
    (hLt : b.length < n) : C.decode b = .more := by
  cases hPart : C.decode b with
  | frame f' n' =>
    have hLe := C.size_le hPart
    rw [C.frame_append more hPart] at h
    cases h
    omega
  | more => rfl
  | bad =>
    rw [C.bad_append more hPart] at h
    cases h

theorem drain_stopped (h : c.stopping = true) : drain C cap handle c = some c := by
  rw [drain, dif_neg]
  rintro ⟨hOpen, -⟩
  cases h.symm.trans hOpen

theorem drain_nil (h : c.buf = []) : drain C cap handle c = some c := by
  rw [drain, dif_neg]
  rintro ⟨-, hBuf⟩
  exact hBuf h

theorem drain_more (hOpen : c.stopping = false) (hBuf : c.buf ≠ [])
    (h : C.decode c.buf = .more) : drain C cap handle c =
      if cap < c.buf.length then some { c with stopping := true } else some c := by
  rw [drain, dif_pos ⟨hOpen, hBuf⟩]
  split
  · rfl
  · rename_i hBad
    cases h.symm.trans hBad
  · rename_i hFrame
    cases h.symm.trans hFrame

theorem drain_bad (hOpen : c.stopping = false) (hBuf : c.buf ≠ []) (h : C.decode c.buf = .bad) :
    drain C cap handle c = some { c with stopping := true } := by
  rw [drain, dif_pos ⟨hOpen, hBuf⟩]
  split
  · rename_i hMore
    cases h.symm.trans hMore
  · rfl
  · rename_i hFrame
    cases h.symm.trans hFrame

theorem drain_frame {f : F} {n : Nat} (hOpen : c.stopping = false) (h : C.decode c.buf = .frame f n) :
    drain C cap handle c = (handle c.state f).bind fun (state, stop) =>
      drain C cap handle ⟨state, c.buf.drop n, stop, c.frames ++ [f]⟩ := by
  have hBuf : c.buf ≠ [] := by
    intro hNil
    have hLe := C.size_le h
    have hPos := C.size_pos h
    rw [hNil] at hLe
    exact absurd hPos (by simpa using hLe)
  rw [drain, dif_pos ⟨hOpen, hBuf⟩]
  split
  · rename_i hMore
    cases h.symm.trans hMore
  · rename_i hBad
    cases h.symm.trans hBad
  · rename_i hFrame
    cases h.symm.trans hFrame
    rfl

/-- The frames of a stream that is there at once, where one over the cap closes the channel. -/
def scan (C : Codec F A) (cap : Nat) (handle : S → F → Option (S × Bool)) (state : S)
    (stream : List A) (frames : List F) : Option (List F × Bool) :=
  if _hLoop : stream ≠ [] then
    match _hDecode : C.decode stream with
    | .more => some (frames, decide (cap < stream.length))
    | .bad => some (frames, true)
    | .frame f size =>
      if cap < size then some (frames, true)
      else (handle state f).bind fun (state, stop) =>
        if stop then some (frames ++ [f], true)
        else scan C cap handle state (stream.drop size) (frames ++ [f])
  else some (frames, false)
termination_by stream.length
decreasing_by
  have hPos := C.size_pos _hDecode
  have hBuf := List.length_pos_of_ne_nil _hLoop
  simp only [List.length_drop]
  omega

section Scan

variable {state : S} {stream : List A} {frames : List F}

theorem scan_nil : scan C cap handle state [] frames = some (frames, false) := by
  rw [scan, dif_neg (by simp)]

theorem scan_more (hStream : stream ≠ []) (h : C.decode stream = .more) :
    scan C cap handle state stream frames = some (frames, decide (cap < stream.length)) := by
  rw [scan, dif_pos hStream]
  split
  · rfl
  · rename_i hBad
    cases h.symm.trans hBad
  · rename_i hFrame
    cases h.symm.trans hFrame

theorem scan_bad (hStream : stream ≠ []) (h : C.decode stream = .bad) :
    scan C cap handle state stream frames = some (frames, true) := by
  rw [scan, dif_pos hStream]
  split
  · rename_i hMore
    cases h.symm.trans hMore
  · rfl
  · rename_i hFrame
    cases h.symm.trans hFrame

theorem scan_frame {f : F} {n : Nat} (h : C.decode stream = .frame f n) :
    scan C cap handle state stream frames =
      if cap < n then some (frames, true)
      else (handle state f).bind fun (state, stop) =>
        if stop then some (frames ++ [f], true)
        else scan C cap handle state (stream.drop n) (frames ++ [f]) := by
  have hStream : stream ≠ [] := by
    rintro rfl
    have hLe := C.size_le h
    have hPos := C.size_pos h
    exact absurd hPos (by simpa using hLe)
  rw [scan, dif_pos hStream]
  split
  · rename_i hMore
    cases h.symm.trans hMore
  · rename_i hBad
    cases h.symm.trans hBad
  · rename_i hFrame
    cases h.symm.trans hFrame
    rfl

theorem scan_long {buf future : List A} (h : C.decode buf = .more) (hLong : cap < buf.length) :
    scan C cap handle state (buf ++ future) frames = some (frames, true) := by
  have hNonempty : buf ++ future ≠ [] := by
    intro hNil
    rw [(List.append_eq_nil_iff.mp hNil).1] at hLong
    cases hLong
  cases hAll : C.decode (buf ++ future) with
  | more =>
    rw [scan_more hNonempty hAll, decide_eq_true]
    rw [List.length_append]
    omega
  | bad => exact scan_bad hNonempty hAll
  | frame f n =>
    have hOver : cap < n := by
      by_contra hFits
      have hLe : n ≤ buf.length := by omega
      cases h.symm.trans (decode_left hAll hLe)
    rw [scan_frame hAll, if_pos hOver]

theorem scan_reaches {last : S} {rest : List A} {f : F} {n : Nat} {reached : List F}
    (h : Reaches C cap handle state stream reached last rest) (hDecode : C.decode rest = .frame f n)
    (hOver : cap < n) :
    scan C cap handle state stream frames = some (frames ++ reached, true) := by
  induction h generalizing frames with
  | here state stream => rw [scan_frame hDecode, if_pos hOver, List.append_nil]
  | next hFirst hSize hHandle hRest ih =>
    rw [scan_frame hFirst, if_neg (by omega), hHandle, Option.bind_some]
    dsimp only
    rw [if_neg Bool.false_ne_true, ih hDecode, List.append_assoc]
    rfl

end Scan

/-- An open channel between two chunks: what waits in its buffer is the beginning of a frame. -/
def Waits (C : Codec F A) (cap : Nat) (c : Channel S F A) : Prop :=
  c.stopping = false ∧ (c.buf = [] ∨ C.decode c.buf = .more ∧ c.buf.length ≤ cap)

theorem Straddles.next {state state' : S} {stream : List A} {f : F} {n : Nat}
    (hDecode : C.decode stream = .frame f n) (hSize : n ≤ cap)
    (hHandle : handle state f = some (state', false))
    (h : Straddles C cap handle chunk state' (stream.drop n)) :
    Straddles C cap handle chunk state stream := by
  rcases h with ⟨frames, last, rest, f', n', hReaches, hOver⟩
  exact ⟨f :: frames, last, rest, f', n', .next hDecode hSize hHandle hReaches, hOver⟩

/-- One drain takes from the reference what it hands out, whatever comes after. -/
theorem drain_scan (future : List A) (hOpen : c.stopping = false)
    (hBuf : c.buf.length ≤ cap + chunk)
    (hSafe : ¬Straddles C cap handle chunk c.state (c.buf ++ future)) :
    (drain C cap handle c = none ∧
      scan C cap handle c.state (c.buf ++ future) c.frames = none) ∨
    (∃ c', drain C cap handle c = some c' ∧ c'.stopping = true ∧
      scan C cap handle c.state (c.buf ++ future) c.frames = some (c'.frames, true)) ∨
    (∃ c', drain C cap handle c = some c' ∧ Waits C cap c' ∧
      ¬Straddles C cap handle chunk c'.state (c'.buf ++ future) ∧
      scan C cap handle c.state (c.buf ++ future) c.frames =
        scan C cap handle c'.state (c'.buf ++ future) c'.frames) := by
  induction hLength : c.buf.length using Nat.strongRecOn generalizing c with
  | ind length ih =>
    rcases c with ⟨state, buf, stopping, frames⟩
    dsimp only at hOpen hBuf hSafe hLength ⊢
    subst hOpen
    rcases eq_or_ne buf [] with rfl | hNonempty
    · exact .inr (.inr ⟨_, drain_nil rfl, ⟨rfl, .inl rfl⟩, hSafe, rfl⟩)
    have hAll : buf ++ future ≠ [] := fun hNil => hNonempty (List.append_eq_nil_iff.mp hNil).1
    cases hDecode : C.decode buf with
    | more =>
      rcases Nat.lt_or_ge cap buf.length with hLong | hShort
      · refine .inr (.inl ⟨⟨state, buf, true, frames⟩, ?_, rfl, scan_long hDecode hLong⟩)
        rw [drain_more rfl hNonempty hDecode, if_pos hLong]
      · refine .inr (.inr ⟨⟨state, buf, false, frames⟩, ?_, ⟨rfl, .inr ⟨hDecode, hShort⟩⟩,
          hSafe, rfl⟩)
        rw [drain_more rfl hNonempty hDecode, if_neg (Nat.not_lt.mpr hShort)]
    | bad =>
      exact .inr (.inl ⟨_, drain_bad rfl hNonempty hDecode, rfl,
        scan_bad hAll (C.bad_append future hDecode)⟩)
    | frame f n =>
      have hWhole := C.frame_append future hDecode
      have hLe := C.size_le hDecode
      have hPos := C.size_pos hDecode
      -- A complete frame over the cap would be one that straddles it.
      have hFits : n ≤ cap := by
        by_contra hOver
        exact hSafe ⟨[], state, _, f, n, .here _ _, hWhole, by omega, by omega⟩
      rw [drain_frame rfl hDecode, scan_frame hWhole, if_neg (Nat.not_lt.mpr hFits)]
      dsimp only
      cases hHandle : handle state f with
      | none => exact .inl ⟨rfl, rfl⟩
      | some answer =>
        rcases answer with ⟨state', _ | _⟩
        · have hDrop : (buf ++ future).drop n = buf.drop n ++ future :=
            List.drop_append_of_le_length hLe
          have hRest : ¬Straddles C cap handle chunk state' (buf.drop n ++ future) :=
            fun h => hSafe (.next hWhole hFits hHandle (by rwa [hDrop]))
          rw [hDrop]
          refine ih (buf.drop n).length ?_ (c := ⟨state', buf.drop n, false, frames ++ [f]⟩)
            rfl ?_ hRest rfl
          · rw [List.length_drop]
            omega
          · rw [List.length_drop]
            omega
        · exact .inr (.inl ⟨_, drain_stopped rfl, rfl, rfl⟩)

theorem run_stopped {reads : List (List A)} (h : c.stopping = true) :
    run C cap handle c reads = some c := by
  cases reads with
  | nil => rfl
  | cons data rest => rw [run, if_pos h]

theorem run_cons {data : List A} {rest : List (List A)} (h : c.stopping = false) :
    run C cap handle c (data :: rest) =
      (feed C cap handle c data).bind (run C cap handle · rest) := by
  rw [run, if_neg (by simp [h])]

/-- Where nothing straddles the cap, the cuts do not matter. -/
theorem run_scan {reads : List (List A)} (hWaits : Waits C cap c)
    (hReads : ∀ data ∈ reads, data.length ≤ chunk)
    (hSafe : ¬Straddles C cap handle chunk c.state (c.buf ++ reads.flatten)) :
    (run C cap handle c reads).map Channel.observe =
      scan C cap handle c.state (c.buf ++ reads.flatten) c.frames := by
  induction reads generalizing c with
  | nil =>
    rcases c with ⟨state, buf, stopping, frames⟩
    rcases hWaits with ⟨rfl, rfl | ⟨hMore, hShort⟩⟩
    · exact scan_nil.symm
    · rcases eq_or_ne buf [] with rfl | hNonempty
      · exact scan_nil.symm
      · dsimp only at hMore hShort ⊢
        rw [List.flatten_nil, List.append_nil, scan_more hNonempty hMore,
          decide_eq_false (Nat.not_lt.mpr hShort)]
        rfl
  | cons data rest ih =>
    have hRest : ∀ data ∈ rest, data.length ≤ chunk := fun d h => hReads d (List.mem_cons_of_mem _ h)
    rw [run_cons hWaits.1]
    rcases eq_or_ne data [] with rfl | hData
    · rw [feed, if_pos rfl, Option.bind_some]
      exact ih hWaits hRest hSafe
    · rw [List.flatten_cons, ← List.append_assoc] at hSafe ⊢
      have hBuf : (c.buf ++ data).length ≤ cap + chunk := by
        have hChunk := hReads data List.mem_cons_self
        rw [List.length_append]
        rcases hWaits.2 with hNil | ⟨-, hShort⟩
        · rw [hNil, List.length_nil]
          omega
        · omega
      rw [feed, if_neg hData]
      rcases drain_scan (c := { c with buf := c.buf ++ data }) rest.flatten hWaits.1 hBuf hSafe
        with ⟨hDrain, hScan⟩ | ⟨c', hDrain, hStop, hScan⟩ | ⟨c', hDrain, hWaits', hSafe', hScan⟩
      · rw [hDrain, Option.bind_none, Option.map_none]
        exact hScan.symm
      · rw [hDrain, Option.bind_some, run_stopped hStop, Option.map_some, Channel.observe, hStop]
        exact hScan.symm
      · rw [hDrain, Option.bind_some]
        exact (ih hWaits' hRest hSafe').trans hScan.symm

def singles (w : List A) : List (List A) := w.map ([·])

theorem singles_flatten (w : List A) : (singles w).flatten = w := by
  induction w with
  | nil => rfl
  | cons a w ih => rw [singles, List.map_cons, List.flatten_cons, ← singles, ih, List.singleton_append]

theorem singles_length {w data : List A} (h : data ∈ singles w) : data.length = 1 := by
  obtain ⟨a, -, rfl⟩ := List.mem_map.mp h
  rfl

theorem run_part {state : S} {frames : List F} {b p more : List A} {f : F} {n : Nat}
    {reads : List (List A)} (h : C.decode (b ++ p ++ more) = .frame f n)
    (hLt : (b ++ p).length < n) (hCap : (b ++ p).length ≤ cap) :
    run C cap handle ⟨state, b, false, frames⟩ (singles p ++ reads) =
      run C cap handle ⟨state, b ++ p, false, frames⟩ reads := by
  induction p generalizing b with
  | nil => rw [List.append_nil]; rfl
  | cons a p ih =>
    rw [List.append_cons] at h hLt hCap ⊢
    rw [singles, List.map_cons, ← singles, List.cons_append, run_cons rfl, feed,
      if_neg (List.cons_ne_nil _ _)]
    have hMore : C.decode (b ++ [a]) = .more := by
      rw [List.append_assoc] at h
      refine decode_part h ?_
      rw [List.length_append] at hLt
      omega
    have hShort : ¬cap < (b ++ [a]).length := by
      rw [List.length_append] at hCap
      omega
    rw [drain_more rfl (by simp) hMore, if_neg hShort, Option.bind_some]
    exact ih h hLt hCap

theorem run_frame {state state' : S} {frames : List F} {stream : List A} {f : F} {n : Nat}
    {reads : List (List A)} (h : C.decode stream = .frame f n) (hSize : n ≤ cap)
    (hHandle : handle state f = some (state', false)) :
    run C cap handle ⟨state, [], false, frames⟩ (singles (stream.take n) ++ reads) =
      run C cap handle ⟨state', [], false, frames ++ [f]⟩ reads := by
  have hTake := C.frame_take h
  have hLe := C.size_le h
  have hPos := C.size_pos h
  have hNonempty : stream.take n ≠ [] := List.ne_nil_of_length_pos (by
    rw [List.length_take]
    omega)
  obtain ⟨p, a, hSplit⟩ := (List.eq_nil_or_concat' (stream.take n)).resolve_left hNonempty
  have hLength : p.length + 1 = n := by
    have := congrArg List.length hSplit
    rw [List.length_take, Nat.min_eq_left hLe, List.length_append] at this
    exact this.symm
  rw [hSplit] at hTake ⊢
  have hPart : C.decode ([] ++ p ++ [a]) = .frame f n := hTake
  rw [singles, List.map_append, ← singles, List.append_assoc,
    run_part hPart (by simp; omega) (by simp; omega)]
  rw [List.nil_append, List.map_singleton, List.singleton_append, run_cons rfl, feed,
    if_neg (List.cons_ne_nil _ _), drain_frame rfl hTake]
  dsimp only
  rw [hHandle, Option.bind_some]
  dsimp only
  have hDrop : (p ++ [a]).drop n = [] := List.drop_eq_nil_of_le (by simp [hLength])
  rw [drain_nil hDrop, Option.bind_some, hDrop]

theorem Reaches.run {state last : S} {stream rest : List A} {reached : List F}
    (h : Reaches C cap handle state stream reached last rest) :
    ∃ w, stream = w ++ rest ∧ ∀ frames reads,
      run C cap handle ⟨state, [], false, frames⟩ (singles w ++ reads) =
        run C cap handle ⟨last, [], false, frames ++ reached⟩ reads := by
  induction h with
  | here state stream =>
    refine ⟨[], rfl, ?_⟩
    intro frames reads
    rw [List.append_nil]
    rfl
  | @next state state' last stream rest f size reached hDecode hSize hHandle _ ih =>
    obtain ⟨w, hStream, hRun⟩ := ih
    refine ⟨stream.take size ++ w, ?_, ?_⟩
    · rw [List.append_assoc, ← hStream, List.take_append_drop]
    · intro frames reads
      rw [singles, List.map_append, ← singles, ← singles, List.append_assoc,
        run_frame hDecode hSize hHandle, hRun, List.append_assoc, List.singleton_append]

theorem drain_frames (h : drain C cap handle c = some c') : c.frames <+: c'.frames := by
  induction hLength : c.buf.length using Nat.strongRecOn generalizing c with
  | ind length ih =>
    rcases Bool.eq_false_or_eq_true c.stopping with hStop | hOpen
    · rw [drain_stopped hStop] at h
      cases h
      exact List.prefix_rfl
    rcases eq_or_ne c.buf [] with hNil | hNonempty
    · rw [drain_nil hNil] at h
      cases h
      exact List.prefix_rfl
    cases hDecode : C.decode c.buf with
    | more =>
      rw [drain_more hOpen hNonempty hDecode] at h
      split at h <;>
      · cases h
        exact List.prefix_rfl
    | bad =>
      rw [drain_bad hOpen hNonempty hDecode] at h
      cases h
      exact List.prefix_rfl
    | frame f n =>
      rw [drain_frame hOpen hDecode, Option.bind_eq_some_iff] at h
      obtain ⟨⟨state, stop⟩, -, hRest⟩ := h
      have hPos := C.size_pos hDecode
      have hBuf := List.length_pos_of_ne_nil hNonempty
      refine (List.prefix_append c.frames [f]).trans (ih (c.buf.drop n).length ?_ hRest rfl)
      rw [List.length_drop]
      omega

theorem run_frames {reads : List (List A)} (h : run C cap handle c reads = some c') :
    c.frames <+: c'.frames := by
  induction reads generalizing c with
  | nil =>
    cases h
    exact List.prefix_rfl
  | cons data rest ih =>
    rcases Bool.eq_false_or_eq_true c.stopping with hStop | hOpen
    · rw [run_stopped hStop] at h
      cases h
      exact List.prefix_rfl
    · rw [run_cons hOpen, Option.bind_eq_some_iff] at h
      obtain ⟨middle, hFeed, hRest⟩ := h
      refine List.IsPrefix.trans ?_ (ih hRest)
      unfold feed at hFeed
      split at hFeed
      · cases hFeed
        exact List.prefix_rfl
      · exact drain_frames (c := { c with buf := c.buf ++ data }) hFeed

/-- Cut at the cap, a frame that straddles it is handed out. -/
theorem Straddles.handed {state : S} {stream : List A} (hChunk : 0 < chunk)
    (h : Straddles C cap handle chunk state stream) :
    ∃ frames last rest f n, Reaches C cap handle state stream frames last rest ∧
      C.decode rest = .frame f n ∧ cap < n ∧
      ∃ reads, Splits chunk reads stream ∧
        ∀ c', run C cap handle ⟨state, [], false, []⟩ reads = some c' → frames ++ [f] <+: c'.frames := by
  obtain ⟨frames, last, rest, f, n, hReaches, hDecode, hOver, hNear⟩ := h
  refine ⟨frames, last, rest, f, n, hReaches, hDecode, hOver, ?_⟩
  obtain ⟨w, hStream, hRun⟩ := hReaches.run
  have hLe := C.size_le hDecode
  have hTake := C.frame_take hDecode
  have hCut : rest.take cap ++ (rest.take n).drop cap = rest.take n := by
    rw [← List.take_append_drop cap (rest.take n), List.take_take, Nat.min_eq_left (Nat.le_of_lt hOver),
      List.drop_left' (by rw [List.length_take]; omega)]
  have hLast : (rest.take n).drop cap ≠ [] := by
    refine List.ne_nil_of_length_pos ?_
    rw [List.length_drop, List.length_take]
    omega
  refine ⟨singles w ++ (singles (rest.take cap) ++
    (rest.take n).drop cap :: singles (rest.drop n)), ⟨?_, ?_⟩, ?_⟩
  · rw [List.flatten_append, List.flatten_append, List.flatten_cons, singles_flatten,
      singles_flatten, singles_flatten, ← List.append_assoc (rest.take cap), hCut,
      List.take_append_drop, hStream]
  · intro data hData
    rcases List.mem_append.mp hData with hOne | hData
    · rw [singles_length hOne]
      exact hChunk
    rcases List.mem_append.mp hData with hOne | hData
    · rw [singles_length hOne]
      exact hChunk
    rcases List.mem_cons.mp hData with rfl | hOne
    · rw [List.length_drop, List.length_take]
      omega
    · rw [singles_length hOne]
      exact hChunk
  · intro c' hEnd
    have hPart : C.decode ([] ++ rest.take cap ++ (rest.take n).drop cap) = .frame f n := by
      rw [List.nil_append, hCut]
      exact hTake
    have hShort : ([] ++ rest.take cap).length ≤ cap := by
      rw [List.nil_append, List.length_take]
      omega
    rw [hRun, run_part hPart (by omega) hShort, List.nil_append, List.nil_append, run_cons rfl,
      feed, if_neg hLast, Option.bind_eq_some_iff] at hEnd
    obtain ⟨middle, hDrain, hRest⟩ := hEnd
    refine List.IsPrefix.trans ?_ (run_frames hRest)
    dsimp only at hDrain
    rw [hCut, drain_frame rfl hTake, Option.bind_eq_some_iff] at hDrain
    obtain ⟨⟨state', stop⟩, -, hDrain⟩ := hDrain
    exact drain_frames hDrain

theorem splitSafe_iff {state : S} {stream : List A} (hChunk : 0 < chunk) :
    SplitSafe C cap handle chunk state stream ↔ ¬Straddles C cap handle chunk state stream := by
  constructor
  · intro hSafe hStraddles
    obtain ⟨frames, last, rest, f, n, hReaches, hDecode, hOver, reads, hSplits, hHanded⟩ :=
      hStraddles.handed hChunk
    have hSeen := hSafe.capped reads hSplits frames last rest f n hReaches hDecode hOver
    obtain ⟨c', hRun, hObserve⟩ := Option.map_eq_some_iff.mp hSeen
    have hFrames : c'.frames = frames := (Prod.ext_iff.mp hObserve).1
    have hLength := (hHanded c' hRun).length_le
    rw [hFrames, List.length_append, List.length_singleton] at hLength
    omega
  · intro hSafe
    have hScan : ∀ reads, Splits chunk reads stream →
        (run C cap handle ⟨state, [], false, []⟩ reads).map Channel.observe =
          scan C cap handle state stream [] := by
      rintro reads ⟨rfl, hReads⟩
      exact run_scan ⟨rfl, .inl rfl⟩ hReads hSafe
    constructor
    · intro reads reads' hReads hReads'
      rw [hScan reads hReads, hScan reads' hReads']
    · intro reads hReads frames last rest f n hReaches hDecode hOver
      rw [hScan reads hReads, scan_reaches hReaches hDecode hOver, List.nil_append]

end Framing
