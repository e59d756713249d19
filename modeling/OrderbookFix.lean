import OrderbookFix.Core.Links
import OrderbookFix.Core.Conservation
import OrderbookFix.Core.Arithmetic
import OrderbookFix.Core.Mirror
import OrderbookFix.Core.Proportional
import OrderbookFix.Core.PriceTime
import OrderbookFix.Core.Agreement
import OrderbookFix.Core.Cancellation
import OrderbookFix.Core.Nodes
import OrderbookFix.Core.Protection
import OrderbookFix.Fix.Codec
import OrderbookFix.Fix.Framing
import OrderbookFix.Fix.FieldMap
import OrderbookFix.Fix.Corruption
import OrderbookFix.Fix.ReadSafety
import OrderbookFix.Fix.GapFills
import OrderbookFix.Fix.Fidelity
import OrderbookFix.Fix.Chunking
import OrderbookFix.Fix.Sequencing
import OrderbookFix.Fix.Admission
import OrderbookFix.Fix.Identity
import OrderbookFix.Fix.Numbering
import OrderbookFix.Fix.Resend
import OrderbookFix.Fix.Totality
import OrderbookFix.Fix.Handshake
import OrderbookFix.Fix.Recovery
import OrderbookFix.Fix.Progress
import OrderbookFix.Fix.Refusal
import OrderbookFix.Fix.Stamps
import OrderbookFix.Fix.Conversation
import OrderbookFix.Fix.Legible
import OrderbookFix.Net.Isolation
import OrderbookFix.Net.Entry
import OrderbookFix.Net.ExecIds
import OrderbookFix.Net.Finality
import OrderbookFix.Net.Atomicity
import OrderbookFix.Net.Wire
import OrderbookFix.Net.Linear
import OrderbookFix.Net.Delivery
import OrderbookFix.Net.Shutdown
