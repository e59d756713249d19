import OrderbookFix.Core.Returns
import OrderbookFix.Net.Helpers.Reports
import OrderbookFix.Net.Helpers.Tracking
/-!
# Answers to application messages

The session hands three types of message to the server. A cancel is
acknowledged or rejected, on whatever book. An order is acknowledged under
its ClOrdID once the book has taken it, so it is answered exactly if the
book does not fault under it: it may meet an order on the other ladder
that a reused ClOrdID freed, or a quantity that overflows a signed sum.
The third type, OrderCancelReplace, has no branch: nothing is replaced and
nothing is sent.
-/

namespace OrderbookFix

namespace Net

open OrderbookFix.Core OrderbookFix.Fix

section Respond

variable {srv : Server} {s : Session} {m : Message}

end Respond

/-- A session logged on. -/
def loggedOn : Session := { testSession with state := .loggedIn }

/-- A message it was found to hand out. -/
theorem handedOut_of_check {m : Message}
    (h : passes (fun r => decide (r.2.app.length = 1)) (loggedOn.handleMessage m) = true) :
    ∃ s₁ step, loggedOn.handleMessage m = .ok (s₁, step) ∧ step.app = [m] := by
  obtain ⟨⟨s₁, step⟩, hhandle, hlen⟩ := passes_iff.mp h
  obtain ⟨m', happ⟩ := List.length_eq_one_iff.mp (of_decide_eq_true hlen)
  have hm := (Session.handleMessage_kind hhandle (happ ▸ List.mem_singleton_self m')).1
  exact ⟨s₁, step, hhandle, hm ▸ happ⟩

end Net

end OrderbookFix
