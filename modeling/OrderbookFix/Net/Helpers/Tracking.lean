import OrderbookFix.Core.Helpers.Calls
import OrderbookFix.Core.Invariants
import OrderbookFix.Fix.Helpers.RoundTrip
import OrderbookFix.Net.Model.Hub
/-!
# What a message does to the server

One inversion of `serve` for all that is said of runs: a message that
returns is an order, a cancel, or one the server has no branch for, and
does to the book as values what that call does. The log tracks the book
along the way.
-/

namespace OrderbookFix

namespace Net

open OrderbookFix.Core OrderbookFix.Fix

/-- **The log tracks the book**: ids are handed out in turn, and the entry
of a live order's id is the latest under its ClOrdID. -/
structure Tracked (h : Hub) (d : Depth) : Prop where
  rep : Rep h.book d
  session : ∀ o ∈ d.orders, o.session = 0
  next : h.server.nextOrderId.toNat = h.log.length + 1
  ids : ∀ x ∈ h.log, x.id.toNat ≤ h.log.length
  entry : ∀ o ∈ d.orders, ∃ x, h.log.find? (fun x => x.id = o.id) = some x ∧
    h.log.find? (fun x => x.clordId = o.clordId) = some x

/-- How a message can fail: a field that is no number, or an overflow of
the matcher. No message makes the book read a freed order. -/
def Raised : Fault → Prop
  | .field _ => True
  | .book e => e = .signedOverflow

theorem tracked_new (algo : MatchAlgo) : Tracked (Hub.new algo) Depth.new where
  rep := rep_new
  session _ h := by cases h
  next := rfl
  ids _ h := by cases h
  entry _ h := by cases h

section Step

variable {h : Hub} {d : Depth} {c : Conn} {m : Message}

/-- What a NewOrderSingle does not choose. -/
theorem newOrder_spec {srv : Server} {n : NewOrder} (hn : srv.newOrder m = .ok n) :
    n.id = srv.nextOrderId ∧ n.session = 0 ∧ n.clordId = ⟨Server.field m Tag.clOrdID []⟩ := by
  rw [Server.newOrder] at hn
  rcases hpx : stoll (Server.field m Tag.price (ascii "0")) with e | price
  · rw [hpx] at hn
    cases hn
  rcases hq : stoull (Server.field m Tag.orderQty (ascii "0")) with e | qty
  · rw [hpx, hq] at hn
    cases hn
  rw [hpx, hq] at hn
  obtain rfl := Except.ok.inj hn
  exact ⟨rfl, rfl, rfl⟩

/-- The log after an order, and the book that goes with it. -/
theorem Tracked.submit (ht : Tracked h d) {n : NewOrder} {b' : OrderBook} {algo : MatchAlgo}
    (hn : n.id = h.server.nextOrderId) (hsession : n.session = 0)
    (hfree : h.book.find 0 n.clordId = none) (hrep : Rep b' (d.submit algo n.order).1)
    (hroom : h.log.length + 2 < 2 ^ 64) :
    Tracked ⟨⟨{ h.server.engine with book := b' }, h.server.nextOrderId + 1⟩,
      ⟨c, n.clordId, n.id⟩ :: h.log⟩ (d.submit algo n.order).1 where
  rep := hrep
  session o ho := by
    rcases mem_orders_submit ho with ⟨-, hkey⟩ | ⟨r, hr, -, hkey⟩
    · exact (IndexKey.mk.inj hkey).1.trans hsession
    · exact (IndexKey.mk.inj hkey).1.symm.trans (ht.session r hr)
  next := by
    have := ht.next
    rw [UInt64.toNat_add]
    change (_ + 1) % 2 ^ 64 = h.log.length + 1 + 1
    omega
  ids x hx := by
    rcases List.mem_cons.mp hx with rfl | hx
    · have := ht.next
      rw [← hn] at this
      exact Nat.le_of_eq this
    · exact Nat.le_succ_of_le (ht.ids x hx)
  entry o ho := by
    rcases mem_orders_submit ho with ⟨hid, hkey⟩ | ⟨r, hr, hid, hkey⟩
    · have hclord : o.clordId = n.clordId := congrArg ClOrdID.mk (IndexKey.mk.inj hkey).2
      exact ⟨_, List.find?_cons_of_pos (decide_eq_true hid.symm),
        List.find?_cons_of_pos (decide_eq_true hclord.symm)⟩
    · -- an order from before has another id and another ClOrdID
      obtain ⟨x, hxid, hxclord⟩ := ht.entry r hr
      have hclord : r.clordId = o.clordId := congrArg ClOrdID.mk (IndexKey.mk.inj hkey).2
      have hid' : n.id ≠ r.id := by
        intro he
        have hle := ht.ids x (List.mem_of_find?_eq_some hxid)
        have hxr : x.id = r.id := by simpa using List.find?_some hxid
        have := ht.next
        rw [hxr, ← he, hn] at hle
        omega
      have hclord' : n.clordId ≠ r.clordId := by
        intro he
        refine (ht.rep.lookup_eq_none.mp hfree) r hr ?_
        rw [Order.key, ht.session r hr, he]
      rw [hid] at hxid hid'
      rw [hclord] at hxclord hclord'
      exact ⟨x, by rw [List.find?_cons_of_neg (by simpa using hid'), hxid],
        by rw [List.find?_cons_of_neg (by simpa using hclord'), hxclord]⟩

/-- Cancelling leaves the log as it is, and of the book's orders all but
one key. -/
theorem Tracked.cancel (ht : Tracked h d) {b' : OrderBook} {k : IndexKey}
    (hrep : Rep b' (d.cancel k)) :
    Tracked ⟨{ h.server with engine := { h.server.engine with book := b' } }, h.log⟩
      (d.cancel k) where
  rep := hrep
  session o ho := by
    rw [orders_cancel] at ho
    exact ht.session o (List.mem_filter.mp ho).1
  next := ht.next
  ids := ht.ids
  entry o ho := by
    rw [orders_cancel] at ho
    exact ht.entry o (List.mem_filter.mp ho).1

/-- **What handling a message does**, to the server and to the book as
values. -/
inductive Serves (h : Hub) (d : Depth) (c : Conn) (m : Message) :
    Hub → Depth → EventList → Prop
  | order (n : NewOrder) (b' : OrderBook) (hmt : m.msgType = MsgType.newOrderSingle)
      (hnew : h.server.newOrder m = .ok n) (hkey : h.book.find n.session n.clordId = none) :
      Serves h d c m ⟨⟨{ h.server.engine with book := b' }, h.server.nextOrderId + 1⟩,
        ⟨c, n.clordId, n.id⟩ :: h.log⟩ (d.submit h.server.engine.algo n.order).1
        (d.submit h.server.engine.algo n.order).2
  | cancel (res : CancelResult) (b' : OrderBook)
      (hmt : m.msgType = MsgType.orderCancelRequest)
      (hok : res.ok = true ↔ ∃ o ∈ d.orders, o.key = ⟨0, Server.field m Tag.origClOrdID []⟩) :
      Serves h d c m ⟨{ h.server with engine := { h.server.engine with book := b' } }, h.log⟩
        (d.cancel ⟨0, Server.field m Tag.origClOrdID []⟩) [Server.cancelEvent m res]
  | other (hnew : m.msgType ≠ MsgType.newOrderSingle)
      (hcancel : m.msgType ≠ MsgType.orderCancelRequest) : Serves h d c m h d []

/-- A message adds one entry to the log at most. -/
theorem Serves.length_log {h' : Hub} {d' : Depth} {evs : EventList}
    (hs : Serves h d c m h' d' evs) : h'.log.length ≤ h.log.length + 1 := by
  cases hs with
  | order => exact Nat.le_refl _
  | cancel => exact Nat.le_succ _
  | other => exact Nat.le_succ _

/-- **Every message of clients that reuse no live ClOrdID** fails as
`Raised` allows, or does what `Serves` says and keeps the log tracking
the book. -/
theorem serve_serves (ht : Tracked h d) (hfresh : h.Fresh (c, m))
    (hroom : h.log.length + 2 < 2 ^ 64) :
    (∃ e, h.serve (c, m) = .error e ∧ Raised e) ∨
      ∃ h' d' evs, h.serve (c, m) = .ok (h', [⟨h, c, m, evs, h'⟩]) ∧ Serves h d c m h' d' evs ∧
        Tracked h' d' := by
  by_cases hmt : m.msgType = MsgType.newOrderSingle
  · rcases hnew : h.server.newOrder m with e | n
    · exact .inl ⟨.field e, by rw [Hub.serve, Server.route, if_pos hmt, hnew], trivial⟩
    obtain ⟨hid, hsession, hclord⟩ := newOrder_spec hnew
    have hfree : h.book.find 0 n.clordId = none := by
      rw [hclord]
      exact hfresh hmt
    have hkey : h.book.find n.session n.clordId = none := by rwa [hsession]
    rcases @submit_sim h.server.engine.algo _ _ n.order ht.rep hkey with ⟨-, b', hb, hrep⟩ | ⟨-, hb⟩
    · refine .inr ⟨_, _, _, ?_, .order n b' hmt hnew hkey,
        ht.submit hid hsession hfree hrep hroom⟩
      rw [Hub.serve, Server.route, if_pos hmt, hnew]
      dsimp only
      rw [hb]
      dsimp only
      rw [Hub.logged, if_pos hmt, hclord, hid]
    · refine .inl ⟨.book .signedOverflow, ?_, rfl⟩
      rw [Hub.serve, Server.route, if_pos hmt, hnew]
      dsimp only
      rw [hb]
  by_cases hcancel : m.msgType = MsgType.orderCancelRequest
  · obtain ⟨res, b', hb, hrep, hok⟩ := cancel_sim ht.rep 0 ⟨Server.field m Tag.origClOrdID []⟩
    refine .inr ⟨_, _, _, ?_, .cancel res b' hcancel hok, ht.cancel hrep⟩
    rw [Hub.serve, Server.route, if_neg hmt, if_pos hcancel, hb]
    dsimp only
    rw [Hub.logged, if_neg hmt]
  · refine .inr ⟨h, d, [], ?_, .other hmt hcancel, ht⟩
    rw [Hub.serve, Server.route, if_neg hmt, if_neg hcancel, Hub.logged, if_neg hmt]

end Step

/-- A NewOrderSingle. -/
def orderSingle (clord side price qty : String) : Message :=
  ⟨addFields ∅ [(Tag.msgType, MsgType.newOrderSingle), (Tag.clOrdID, ascii clord),
    (Tag.side, ascii side), (Tag.price, ascii price), (Tag.orderQty, ascii qty)]⟩

/-- An OrderCancelRequest. -/
def cancelRequest (clord orig : String) : Message :=
  ⟨addFields ∅ [(Tag.msgType, MsgType.orderCancelRequest), (Tag.clOrdID, ascii clord),
    (Tag.origClOrdID, ascii orig)]⟩

end Net

end OrderbookFix
