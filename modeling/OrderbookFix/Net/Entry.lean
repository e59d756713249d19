import OrderbookFix.Core.Helpers.Terms
import OrderbookFix.Net.Response
/-!
# Order entry

What becomes of the quantity, price and side a NewOrderSingle writes. The
server converts them with `std::stoll` and `std::stoull`, defaults the
missing ones and takes the first byte of the side, and it has no reject
for an order. So an order is entered as it is written exactly if all four
fields are well written; any other message raises, or is submitted with
what the conversions made of it.
-/

namespace OrderbookFix

namespace Net

open OrderbookFix.Core OrderbookFix.Fix

/-! ## What is written -/

/-- **A signed numeral**: digits, after a sign or none. -/
def SignedNumeral (v : Bytes) (z : Int) : Prop :=
  ∃ ds, Digits ds ∧ ((v = ds ∨ v = 0x2b :: ds) ∧ z = digitsValue ds ∨
    v = 0x2d :: ds ∧ z = -(digitsValue ds : Int))

/-- **A limit order as its fields write it**: tag 38 is the digits of the
quantity, tag 44 a signed numeral of the price, tag 54 the side and tag
40 the type. -/
structure Written (m : Message) (qty : Quantity) (price : Price) (side : Side) : Prop where
  qty : ∃ v, m.get Tag.orderQty = some v ∧ Digits v ∧ digitsValue v = qty.toNat
  price : ∃ v, m.get Tag.price = some v ∧ SignedNumeral v price ∧
    -2 ^ 63 ≤ price ∧ price < 2 ^ 63
  side : m.get Tag.side = some (ascii "1") ∧ side = .buy ∨
    m.get Tag.side = some (ascii "2") ∧ side = .sell
  ordType : m.get Tag.ordType = some (ascii "2")

/-- The message is handed to the matcher as the order `n`, and no node of
the book gets another quantity, price or side than it had or `n` has. -/
structure Submits (srv : Server) (m : Message) (n : NewOrder) : Prop where
  handed : (∃ e, submit srv.engine.algo srv.engine.book n.order = .error e ∧
      srv.route m = .error (.book e)) ∨
    ∃ srv' evs, submit srv.engine.algo srv.engine.book n.order = .ok (srv'.engine.book, evs) ∧
      srv.route m = .ok (srv', evs)
  booked : ∀ srv' evs, srv.route m = .ok (srv', evs) →
    ∀ p r, srv'.engine.book.heap.cells p = some r →
      (∃ r₀, srv.engine.book.heap.cells p = some r₀ ∧ r.origQty = r₀.origQty ∧
        r.price = r₀.price ∧ r.side = r₀.side) ∨
      p = srv.engine.book.heap.next ∧ r.origQty = n.qty ∧ r.price = n.price ∧ r.side = n.side

/-- The message is rejected and the book left alone. -/
def Rejects (srv : Server) (m : Message) : Prop :=
  ∃ srv' evs, srv.route m = .ok (srv', evs) ∧ (∃ r, .ordReject r ∈ evs) ∧
    srv'.engine.book = srv.engine.book

/-- **The order is entered as it is written, or rejected**; no conversion
raises. -/
def Entered (srv : Server) (m : Message) : Prop :=
  (∀ e, srv.route m ≠ .error (.field e)) ∧
    ((∃ n, srv.newOrder m = .ok n ∧ Written m n.qty n.price n.side ∧ Submits srv m n) ∨
      Rejects srv m)

/-! ## What is read -/

theorem stoll_signedNumeral {v : Bytes} {z : Int} (h : SignedNumeral v z) (hlo : -2 ^ 63 ≤ z)
    (hhi : z < 2 ^ 63) : stoll v = .ok z := by
  obtain ⟨ds, hds, ⟨rfl | rfl, rfl⟩ | ⟨rfl, rfl⟩⟩ := h
  · rw [stoll, scanNumber_digits hds]
    dsimp only
    rw [if_neg hds.1]
    exact if_pos ⟨hlo, hhi⟩
  · rw [stoll, scanNumber_signed hds (.inr rfl)]
    dsimp only
    rw [if_neg hds.1]
    exact if_pos ⟨hlo, hhi⟩
  · rw [stoll, scanNumber_signed hds (.inl rfl)]
    dsimp only
    rw [if_neg hds.1]
    exact if_pos ⟨hlo, hhi⟩

section Route

variable {srv : Server} {m : Message} {n : NewOrder}

/-- **A well written order is read as it is written.** -/
theorem Written.newOrder {qty : Quantity} {price : Price} {side : Side}
    (h : Written m qty price side) (srv : Server) :
    srv.newOrder m =
      .ok ⟨srv.nextOrderId, 0, ⟨Server.field m Tag.clOrdID []⟩, side, price, qty⟩ := by
  obtain ⟨vq, hvq, hdigits, hvalue⟩ := h.qty
  obtain ⟨vp, hvp, hnumeral, hlo, hhi⟩ := h.price
  have hprice : stoll (Server.field m Tag.price (ascii "0")) = .ok price := by
    rw [Server.field, hvp]
    exact stoll_signedNumeral hnumeral hlo hhi
  have hqty : stoull (Server.field m Tag.orderQty (ascii "0")) = .ok qty := by
    rw [Server.field, hvq]
    exact stoull_digits hdigits hvalue
  have hside : Side.ofByte ((Server.field m Tag.side (ascii "1")).headD 0) = side := by
    rcases h.side with ⟨hs, rfl⟩ | ⟨hs, rfl⟩
    · rw [Server.field, hs]
      rfl
    · rw [Server.field, hs]
      rfl
  simp only [Server.newOrder, hprice, hqty, hside]

/-- **An order that converts is submitted**, whatever the book. -/
theorem submits_of_newOrder (hmt : m.msgType = MsgType.newOrderSingle)
    (hn : srv.newOrder m = .ok n) : Submits srv m n := by
  rcases hsub : submit srv.engine.algo srv.engine.book n.order with e | ⟨book, evs⟩
  · have hroute : srv.route m = .error (.book e) := by
      simp only [Server.route, if_pos hmt, hn, hsub]
    refine ⟨.inl ⟨e, hsub, hroute⟩, fun srv' evs h => ?_⟩
    rw [hroute] at h
    cases h
  · have hroute : srv.route m =
        .ok (⟨{ srv.engine with book := book }, srv.nextOrderId + 1⟩, evs) := by
      simp only [Server.route, if_pos hmt, hn, hsub]
    refine ⟨.inr ⟨_, evs, hsub, hroute⟩, fun srv' evs' h p r hr => ?_⟩
    obtain ⟨rfl, rfl⟩ := Prod.mk.inj (Except.ok.inj (hroute.symm.trans h))
    rcases terms_submit hsub hr with ⟨r₀, hr₀, hterms⟩ | ⟨hp, hterms⟩
    · exact .inl ⟨r₀, hr₀, Order.of_terms_eq hterms⟩
    · exact .inr ⟨hp, Order.of_terms_eq hterms⟩

/-- **No order is rejected**: a submit acknowledges and trades. -/
theorem not_rejects (hmt : m.msgType = MsgType.newOrderSingle) : ¬ Rejects srv m := by
  rintro ⟨srv', evs, hroute, ⟨r, hr⟩, -⟩
  rw [Server.route, if_pos hmt] at hroute
  split at hroute
  · cases hroute
  · split at hroute
    · cases hroute
    · rename_i hsub
      obtain ⟨-, rfl⟩ := Prod.mk.inj (Except.ok.inj hroute)
      obtain ⟨ts, hevs⟩ := events_submit hsub
      simp [hevs] at hr

/-- What is entered was well written. -/
theorem Entered.written (h : Entered srv m) (hmt : m.msgType = MsgType.newOrderSingle) :
    ∃ qty price side, Written m qty price side := by
  rcases h.2 with ⟨n, -, hw, -⟩ | hrej
  · exact ⟨_, _, _, hw⟩
  · exact absurd hrej (not_rejects hmt)

end Route

/-- **Order entry**: whatever the server holds, a NewOrderSingle is
entered as it is written, or rejected, exactly if its quantity, price,
side and type are well written. -/
theorem entered_iff_written (srv : Server) (m : Message)
    (hmt : m.msgType = MsgType.newOrderSingle) :
    Entered srv m ↔ ∃ qty price side, Written m qty price side := by
  constructor
  · intro h
    exact h.written hmt
  · rintro ⟨qty, price, side, hw⟩
    have hsub := submits_of_newOrder hmt (hw.newOrder srv)
    refine ⟨fun e he => ?_, .inl ⟨_, hw.newOrder srv, hw, hsub⟩⟩
    rcases hsub.handed with ⟨f, -, hroute⟩ | ⟨srv', evs, -, hroute⟩
    · rw [hroute] at he
      cases he
    · rw [hroute] at he
      cases he

/-- A NewOrderSingle with its type. -/
def typedOrder (side price qty ordType : String) : Message :=
  ⟨addFields ∅ [(Tag.msgType, MsgType.newOrderSingle), (Tag.clOrdID, ascii "A"),
    (Tag.side, ascii side), (Tag.price, ascii price), (Tag.orderQty, ascii qty),
    (Tag.ordType, ascii ordType)]⟩

/-- A sell at a negative price, the quantity with leading zeros. -/
theorem entered_negative_price :
    Entered (Server.new .proRata) (typedOrder "2" "-105" "0042" "2") :=
  (entered_iff_written _ _ (by decide +kernel)).mpr ⟨42, -105, .sell,
    ⟨ascii "0042", by decide +kernel, by decide +kernel, by decide +kernel⟩,
    ⟨ascii "-105", by decide +kernel, ⟨ascii "105", by decide +kernel, .inr (by decide +kernel)⟩,
      by decide, by decide⟩,
    .inr ⟨by decide +kernel, rfl⟩, by decide +kernel⟩

/-- **A quantity of minus one is booked as the largest word**, and one
that is no number raises. The session hands both messages out. -/
theorem negative_quantity_wraps :
    (∃ s₁ step srv evs, loggedOn.handleMessage (typedOrder "1" "100" "-1" "2") = .ok (s₁, step) ∧
      step.app = [typedOrder "1" "100" "-1" "2"] ∧
      (Server.new .fifo).route (typedOrder "1" "100" "-1" "2") = .ok (srv, evs) ∧
      srv.engine.book.orders.map Order.origQty = [18446744073709551615] ∧
      ¬ Entered (Server.new .fifo) (typedOrder "1" "100" "-1" "2")) ∧
    ∃ s₁ step, loggedOn.handleMessage (typedOrder "1" "100" "ten" "2") = .ok (s₁, step) ∧
      step.app = [typedOrder "1" "100" "ten" "2"] ∧
      (Server.new .fifo).route (typedOrder "1" "100" "ten" "2") =
        .error (.field .invalidArgument) ∧
      ¬ Entered (Server.new .fifo) (typedOrder "1" "100" "ten" "2") := by
  refine ⟨?_, ?_⟩
  · obtain ⟨s₁, step, hhandle, happ⟩ :=
      handedOut_of_check (m := typedOrder "1" "100" "-1" "2") (by decide +kernel)
    obtain ⟨⟨srv, evs⟩, hroute, hqty⟩ := (@passes_iff _ _
      ((Server.new .fifo).route (typedOrder "1" "100" "-1" "2")) fun r : Server × EventList =>
        decide (r.1.engine.book.orders.map Order.origQty = [18446744073709551615])).mp
      (by decide +kernel)
    refine ⟨s₁, step, srv, evs, hhandle, happ, hroute, of_decide_eq_true hqty, fun h => ?_⟩
    obtain ⟨qty, price, side, hw⟩ := h.written (by decide +kernel)
    obtain ⟨v, hv, hdigits, -⟩ := hw.qty
    have hfield : (typedOrder "1" "100" "-1" "2").get Tag.orderQty = some (ascii "-1") := by
      decide +kernel
    rw [hfield, Option.some.injEq] at hv
    subst hv
    exact absurd hdigits (by decide)
  · obtain ⟨s₁, step, hhandle, happ⟩ :=
      handedOut_of_check (m := typedOrder "1" "100" "ten" "2") (by decide +kernel)
    have hroute : (Server.new .fifo).route (typedOrder "1" "100" "ten" "2") =
        .error (.field .invalidArgument) := raises_iff.mp (by decide +kernel)
    exact ⟨s₁, step, hhandle, happ, hroute, fun h => h.1 _ hroute⟩

end Net

end OrderbookFix
