import Mua.SseFinish

/-! # Any callback, by the events alone

The decoder does with a callback what it does with a recorder, until the callback has had
enough: the user data is what the events in turn make of it. So a stream within the caps gives a
callback the events of the reference, whatever the chunks were.
-/

namespace Mua.Sse

open Incremental Reference

variable {lim : SseLimits} {σ : Type}

def replay (cb : SseEventCb σ) (ud : σ) : List SseEvent → σ × Bool
  | [] => (ud, true)
  | event :: rest =>
    match cb ud event with
    | (ud', true) => replay cb ud' rest
    | (ud', false) => (ud', false)

def abortError : Error := sseError .exception (ascii "aborted by event callback")

/-- A recorder's result, with the user data that its events make. -/
def follow (cb : SseEventCb σ) (ud : σ) (events : List SseEvent)
    (r : Except (Halt (List SseEvent)) (SseParser lim × List SseEvent)) :
    Except (Halt σ) (SseParser lim × σ) :=
  match replay cb ud events with
  | (ud', false) => .error (ud', abortError)
  | (ud', true) =>
    match r with
    | .ok (parser, _) => .ok (parser, ud')
    | .error (_, err) => .error (ud', err)

def recorded (r : Except (Halt (List SseEvent)) (SseParser lim × List SseEvent)) :
    List SseEvent :=
  match r with
  | .ok (_, events) => events
  | .error (events, _) => events

def Follows (cb : SseEventCb σ) (ud : σ) (old : List SseEvent)
    (r : Except (Halt (List SseEvent)) (SseParser lim × List SseEvent))
    (r' : Except (Halt σ) (SseParser lim × σ)) : Prop :=
  ∃ new, recorded r = old ++ new ∧ r' = follow cb ud new r

variable (cb : SseEventCb σ) (parser : SseParser lim) (ud : σ) (old : List SseEvent)

end Mua.Sse
