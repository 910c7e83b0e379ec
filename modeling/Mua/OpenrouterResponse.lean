import Mua.SseReplay
import Mua.OpenrouterRun
import Mua.OpenrouterMessage

/-! # A response, read by the reference

The body of a response that arrives as an event stream means its events: they are handled in
turn until one ends the stream, and the end of the body decides the rest. How the body was cut
into chunks does not matter.
-/

namespace Mua.Openrouter

open Sse Sse.Reference Incremental

variable (lib : JsonLib) (cancels : CancelsInText)

def respond (stream : OpenrouterStream) (body : Bytes) : OpenrouterStream :=
  let stream :=
    { (replay (orOnEvent lib cancels) stream (events body)).1 with req := false }
  if stream.finished then streamDestroy stream
  else if stream.cancelRequested then
    streamDestroy (fireErrorMsg stream .exception (ascii "canceled"))
  else if stream.finishReason.data ≠ [] ∧ ¬Pending body ∧ ¬bomBytes <+: body then
    streamDestroy (fireDone stream)
  else streamDestroy (fireErrorMsg stream .exception (ascii "stream ended before completion"))

variable {s : OpenrouterStream}

/-- The mode stays, and what stops the stream has finished it. -/
structure Stays (s : OpenrouterStream) (r : OpenrouterStream × Bool) : Prop where
  mode : r.1.mode = s.mode
  stops : r.2 = false → r.1.finished = true

theorem Stays.trans {s' : OpenrouterStream} {r : OpenrouterStream × Bool} (h : s'.mode = s.mode)
    (h' : Stays s' r) : Stays s r := ⟨h'.mode.trans h, h'.stops⟩

theorem Stays.on {s' : OpenrouterStream} (h : s'.mode = s.mode) : Stays s (s', true) :=
  ⟨h, fun hStop => by cases hStop⟩

end Mua.Openrouter
