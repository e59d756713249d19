import OrderbookFix.Fix.Fidelity
import OrderbookFix.Fix.Identity
/-!
# The timeline of a session

A run with its times. What a session knows of time it asks the clock for,
or is told by a tick; a record of the run has both, in order. From it
follows when messages were parsed, and when ticks sent a TestRequest or
gave up on the peer.
-/

namespace OrderbookFix

namespace Fix

namespace Session

/-- A call of a run, on record. -/
abbrev Moment := Passage Session Call SessionStep

/-- What the clock answered between two states of a session. -/
def readings (s s' : Session) : List Int :=
  (List.range' s.providers.clockCalls (s'.providers.clockCalls - s.providers.clockCalls)).map
    s.providers.clock

/-- The time a call brings along. -/
def Call.now : Call → Option Int
  | .tick now => some now
  | _ => none

/-- **What tells whether the peer is alive.** -/
inductive Event where
  /-- A message was parsed. -/
  | heard (t : Int)
  /-- A tick sent a TestRequest. -/
  | tested (t : Int)
  /-- A tick sent a Logout. -/
  | timedOut (t : Int)
  deriving DecidableEq

/-- The time a message was parsed at. -/
def Event.heardAt : Event → Option Int
  | .heard t => some t
  | _ => none

/-- The time a TestRequest was sent at. -/
def Event.testedAt : Event → Option Int
  | .tested t => some t
  | _ => none

/-- The time a round parsed its message at, if it did. -/
def Turn.heardAt (r : Turn) : Option Int :=
  (Turn.message r).map fun _ => r.before.providers.clock r.before.providers.clockCalls

/-- What a message of a tick tells. -/
def tickEvent (soh : Soh) (now : Int) (w : WireOut) : Option Event :=
  if StartsWith soh MsgType.testRequest w then some (.tested now)
  else if StartsWith soh MsgType.logout w then some (.timedOut now)
  else none

namespace Moment

/-- What the call put on the wire. -/
def wires (p : Moment) : List WireOut := p.out.flatMap SessionStep.out

/-- What the clock answered during the call. -/
def clocked (p : Moment) : List Int := readings p.before p.after

/-- The times of the call. -/
def times (p : Moment) : List Int := p.call.now.toList ++ clocked p

/-- **What the call tells of the peer.** -/
def events (p : Moment) : List Event :=
  match p.call with
  | .onBytes data => ((p.before.turns data).filterMap Turn.heardAt).map .heard
  | .tick now => (wires p).filterMap (tickEvent p.before.soh now)
  | _ => []

/-- During a tick the clock stands at its time. -/
def AtNow (p : Moment) : Prop := ∀ now ∈ p.call.now, ∀ t ∈ clocked p, t = now

instance (p : Moment) : Decidable (AtNow p) :=
  inferInstanceAs (Decidable (∀ now ∈ p.call.now, ∀ t ∈ clocked p, t = now))

end Moment

/-- **A clock that never goes back.** -/
def Onward (ps : List Moment) : Prop := (ps.flatMap Moment.times).Pairwise (· ≤ ·)

instance (ps : List Moment) : Decidable (Onward ps) :=
  inferInstanceAs (Decidable (List.Pairwise _ _))

/-- What a run tells of the peer. -/
def timeline (ps : List Moment) : List Event := ps.flatMap Moment.events

end Session

end Fix

end OrderbookFix
