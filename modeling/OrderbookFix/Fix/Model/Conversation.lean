import OrderbookFix.Common.Run
import OrderbookFix.Fix.Model.Session
import Mathlib.Logic.Function.Basic
/-!
# Two sessions on one connection

A session at each end of a connection, and the bytes in flight each way.
The transport at an end is that of `session_loop`: it hands over what it
has received in pieces of any length, writes what a call returns, and
closes once a step asks for it. Which end moves next, and when, is open.
-/

namespace OrderbookFix

namespace Fix

/-- The ends of a connection. -/
inductive End where
  | initiator
  | acceptor
  deriving DecidableEq

/-- The other end. -/
def End.other : End → End
  | .initiator => .acceptor
  | .acceptor => .initiator

/-- A session and its transport. -/
structure Party where
  session : Session
  closed : Bool := false

/-- **Two parties and the bytes in flight**, to each end. -/
structure Conversation where
  party : End → Party
  inFlight : End → Bytes

/-- What can happen next: bytes arrive at an end, or its owner makes a
call. At an end that has closed nothing happens. -/
inductive Move where
  | deliver (e : End) (n : ℕ)
  | call (e : End) (c : Session.Call)

namespace Conversation

abbrev session (c : Conversation) (e : End) : Session := (c.party e).session

abbrev closed (c : Conversation) (e : End) : Bool := (c.party e).closed

/-- A call at an end, and what it sends on its way. -/
def calls (c : Conversation) (e : End) (call : Session.Call) :
    Except Fault (Conversation × List (End × SessionStep)) :=
  match (c.session e).perform call with
  | .error f => .error f
  | .ok (s, steps) =>
    .ok ({ party := Function.update c.party e ⟨s, steps.any SessionStep.disconnect⟩
           inFlight := Function.update c.inFlight e.other
             (c.inFlight e.other ++ (steps.flatMap SessionStep.out).flatten) },
      steps.map fun step => (e, step))

/-- **One move.** -/
def move (c : Conversation) : Move → Except Fault (Conversation × List (End × SessionStep))
  | .deliver e n =>
    if c.closed e then .ok (c, [])
    else
      calls { c with inFlight := Function.update c.inFlight e ((c.inFlight e).drop n) } e
        (.onBytes ((c.inFlight e).take n))
  | .call e call => if c.closed e then .ok (c, []) else c.calls e call

/-- Two sessions of which one has sent its Logon. -/
def dialled (i a : Session) : Conversation where
  party
    | .initiator => { session := i.initiateLogon.1 }
    | .acceptor => { session := a }
  inFlight
    | .initiator => []
    | .acceptor => i.initiateLogon.2

end Conversation

end Fix

end OrderbookFix
