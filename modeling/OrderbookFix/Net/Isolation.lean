import OrderbookFix.Net.Helpers.Tracking
/-!
# Isolation of clients

The book's index is keyed by session and ClOrdID, but the server hands in
every order and every cancel under session 0, so all connections share
one space of ClOrdIDs. A connection that names another's live ClOrdID
cancels the other's order, and an order handed in under one is lost. What
holds is isolation of clients that keep apart: as long as no order comes
in under the ClOrdID of a live one, and no cancel names one that another
connection used last, a cancel takes only the sender's own order and
every order that rests can be cancelled alone.
-/

namespace OrderbookFix

namespace Net

open OrderbookFix.Core OrderbookFix.Fix

namespace Hub

/-- **Clients that keep apart**: an order's ClOrdID is not that of a live
order, and a cancel names no live order but one under a ClOrdID its
sender used last. -/
def Apart (h : Hub) (r : Conn × Message) : Prop :=
  (r.2.msgType = MsgType.newOrderSingle →
    h.book.find 0 ⟨Server.field r.2 Tag.clOrdID []⟩ = none) ∧
  (r.2.msgType = MsgType.orderCancelRequest →
    h.book.find 0 ⟨Server.field r.2 Tag.origClOrdID []⟩ = none ∨
      h.lastUser ⟨Server.field r.2 Tag.origClOrdID []⟩ = some r.1)

instance (h : Hub) (r : Conn × Message) : Decidable (h.Apart r) :=
  inferInstanceAs (Decidable (_ ∧ _))

end Hub

/-- The quantity traded in a list of events. -/
def traded (evs : EventList) : Quantity :=
  (evs.map fun
    | .trade t => t.qty
    | _ => 0).sum

/-- **Every order of a book can be cancelled alone**: it is live, its
ClOrdID finds it, and the server's cancel takes it and no other. -/
def Separate (b : OrderBook) : Prop :=
  ∀ p ∈ b.linked, ∃ o, b.heap.cells p = some o ∧ b.find 0 o.clordId = some p ∧
    ∃ res b', b.cancel 0 o.clordId = .ok (res, b') ∧ res.ok = true ∧
      ∀ r ∈ b.orders, r ∈ b'.orders ↔ r ≠ o

/-- **Isolation, for one message**: a cancel takes only orders of its
sender, an order that is not traded away is on the book, and every order
can be cancelled alone. -/
structure Handling.Isolated (x : Handling) : Prop where
  own : x.msg.msgType = MsgType.orderCancelRequest →
    ∀ o ∈ x.before.book.orders, o ∉ x.after.book.orders →
      x.before.submitter o.id = some x.conn
  live : ∀ n, x.msg.msgType = MsgType.newOrderSingle → x.before.server.newOrder x.msg = .ok n →
    n.qty - traded x.events ≠ 0 →
      ∃ o ∈ x.after.book.orders, o.id = n.id ∧ o.clordId = n.clordId ∧
        o.leavesQty = n.qty - traded x.events ∧ x.after.submitter o.id = some x.conn
  separate : Separate x.after.book

/-! ## One message -/

section Step

variable {h h' : Hub} {d d' : Depth} {c : Conn} {m : Message} {evs : EventList}

/-- In a tracked book every order can be cancelled alone. -/
theorem Tracked.separate (ht : Tracked h d) : Separate h.book := by
  intro p hp
  obtain ⟨o, ho, hcell⟩ := ht.rep.exists_of_linked hp
  have hkey : o.key = ⟨0, o.clordId.value⟩ := by rw [Order.key, ht.session o ho]
  have hfind : h.book.find 0 o.clordId = some p := by
    rw [OrderBook.find, ← hkey]
    exact (ht.rep.index o.key p).mpr ⟨hp, by rw [keyAt, hcell]; rfl⟩
  obtain ⟨res, b', hcancel, hrep, hok⟩ := cancel_sim ht.rep 0 o.clordId
  refine ⟨o, hcell, hfind, res, b', hcancel, hok.mpr ⟨o, ho, hkey⟩, fun r hr => ?_⟩
  rw [ht.rep.orders_eq] at hr
  rw [hrep.orders_eq, orders_cancel, List.mem_filter, ← hkey, decide_eq_true_eq]
  constructor
  · rintro ⟨-, hne⟩ rfl
    exact hne rfl
  · intro hne
    exact ⟨hr, fun he => hne (List.inj_on_of_nodup_map ht.rep.nodup_keys hr ho he)⟩

/-- **A cancel among clients that keep apart** takes an order of its
sender: what is gone had the key, so it is the order the ClOrdID was last
used for. -/
theorem Tracked.own_of_cancel (ht : Tracked h d) {clord : ClOrdID}
    (hapart : h.book.find 0 clord = none ∨ h.lastUser clord = some c) {o : Order}
    (ho : o ∈ d.orders) (hgone : o ∉ (d.cancel ⟨0, clord.value⟩).orders) :
    h.submitter o.id = some c := by
  rw [orders_cancel, List.mem_filter, decide_eq_true_eq] at hgone
  have hkey : o.key = ⟨0, clord.value⟩ := by
    by_contra hk
    exact hgone ⟨ho, hk⟩
  have hclord : o.clordId = clord := congrArg ClOrdID.mk (IndexKey.mk.inj hkey).2
  obtain ⟨p, hp, hcell⟩ := ht.rep.exists_ptr ho
  have hfind : h.book.find 0 clord = some p :=
    (ht.rep.index _ p).mpr ⟨hp, by rw [keyAt, hcell, ← hkey]; rfl⟩
  obtain ⟨x, hid, hlast⟩ := ht.entry o ho
  rcases hapart with hnone | huser
  · rw [hfind] at hnone
    cases hnone
  · rw [Hub.lastUser, ← hclord, hlast] at huser
    rw [Hub.submitter, hid]
    exact huser

/-- The events of a submit carry what it traded. -/
theorem traded_submit {algo : MatchAlgo} {o : Order} :
    traded (d.submit algo o).2 = tradedBy algo d o := by
  have htrades : ∀ ts : List Trade, traded (ts.map .trade) = (ts.map Trade.qty).sum := by
    intro ts
    rw [traded, List.map_map]
    rfl
  rw [tradedBy, ← htrades]
  exact UInt64.zero_add _

/-- **One message among clients that keep apart** is isolated. -/
theorem Serves.isolated (hs : Serves h d c m h' d' evs) (ht : Tracked h d) (ht' : Tracked h' d')
    (hapart : h.Apart (c, m)) : Handling.Isolated ⟨h, c, m, evs, h'⟩ := by
  cases hs with
  | order n b' hmt hnew hkey =>
    refine ⟨fun hc => absurd (hmt.symm.trans hc) (by decide), fun n' _ hn' hopen => ?_,
      ht'.separate⟩
    obtain rfl := Except.ok.inj (hnew.symm.trans hn')
    change n.qty - traded _ ≠ 0 at hopen
    change ∃ o ∈ OrderBook.orders b', _ ∧ _ ∧ _ = n.qty - traded _ ∧ _
    rw [traded_submit] at hopen ⊢
    refine ⟨n.order.fill (tradedBy h.server.engine.algo d n.order), ?_, rfl, rfl, rfl, ?_⟩
    · rw [ht'.rep.orders_eq]
      exact rests_submit hopen
    · have hhead : (Submission.mk c n.clordId n.id :: h.log).find? (fun x => x.id = n.id) =
          some ⟨c, n.clordId, n.id⟩ := List.find?_cons_of_pos (decide_eq_true rfl)
      exact congrArg (Option.map Submission.conn) hhead
  | cancel res b' hmt hok =>
    have hne : m.msgType ≠ MsgType.newOrderSingle := by rw [hmt]; decide
    refine ⟨fun _ o ho hgone => ?_, fun n hn => absurd hn hne, ht'.separate⟩
    change o ∈ h.book.orders at ho
    change o ∉ OrderBook.orders b' at hgone
    rw [ht.rep.orders_eq] at ho
    rw [ht'.rep.orders_eq] at hgone
    exact ht.own_of_cancel (hapart.2 hmt) ho hgone
  | other hnew hcancel =>
    exact ⟨fun hc => absurd hc hcancel, fun n hn => absurd hn hnew, ht.separate⟩

end Step

/-! ## Runs -/

/-- **Clients that keep apart are isolated**, however their messages
interleave. Such a run can end early by a field that is no number or by
an overflow only; fewer messages come in than there are ids. -/
theorem run_isolated (algo : MatchAlgo) (reqs : List (Conn × Message))
    (hcount : reqs.length + 1 < 2 ^ 64)
    (hapart : Guarded Hub.serve Hub.Apart (Hub.new algo) reqs) :
    (∃ e, run Hub.serve (Hub.new algo) reqs = .error e ∧ Raised e) ∨
      ∃ h outs, run Hub.serve (Hub.new algo) reqs = .ok (h, outs) ∧
        (∀ x ∈ outs, x.Isolated) ∧ Separate h.book := by
  -- The log grows by at most one a message, which keeps the ids it records from wrapping.
  rcases run_inv (E := Raised) (H := fun reqs : List (Conn × Message) => reqs.length + 1 < 2 ^ 64)
      (J := fun past outs (h : Hub) => (∃ d, Tracked h d) ∧ h.log.length ≤ past.length ∧
        ∀ x ∈ outs, x.Isolated)
      (fun as bs hlt => by rw [List.length_append] at hlt; omega)
      (fun past outs h r ⟨⟨d, ht⟩, hlen, hall⟩ hok hlt => by
        rw [List.length_append, List.length_singleton] at hlt
        rcases serve_serves (c := r.1) (m := r.2) ht hok.1 (by omega) with
          herr | ⟨h', d', evs, hs, hserves, ht'⟩
        · exact .inl herr
        · refine .inr ⟨h', _, hs, ⟨d', ht'⟩, ?_, ?_⟩
          · rw [List.length_append, List.length_singleton]
            exact hserves.length_log.trans (by omega)
          · intro y hy
            rcases List.mem_append.mp hy with hy | hy
            · exact hall y hy
            · exact List.mem_singleton.mp hy ▸ hserves.isolated ht ht' hok)
      ⟨⟨_, tracked_new algo⟩, Nat.le_refl _, fun _ h => by cases h⟩ hapart hcount with
    herr | ⟨h, outs, hr, ⟨d, ht⟩, -, hall⟩
  · exact .inl herr
  · exact .inr ⟨h, outs, hr, hall, ht.separate⟩

/-- Two clients that trade with each other and cancel what is left. -/
theorem run_isolated_two_clients :
    ∃ h outs, run Hub.serve (Hub.new .fifo)
      [(1, orderSingle "A" "1" "100" "10"), (2, orderSingle "B" "2" "100" "4"),
        (2, orderSingle "C" "2" "101" "5"), (1, cancelRequest "A2" "A"),
        (2, cancelRequest "C2" "C")] = .ok (h, outs) ∧
      (∀ x ∈ outs, x.Isolated) ∧ Separate h.book := by
  obtain ⟨h, outs, hr, -⟩ := @exists_of_run_check _ _ _ _ Hub.serve (fun _ => true)
    (Hub.new .fifo) [(1, orderSingle "A" "1" "100" "10"), (2, orderSingle "B" "2" "100" "4"),
      (2, orderSingle "C" "2" "101" "5"), (1, cancelRequest "A2" "A"), (2, cancelRequest "C2" "C")]
    (by decide +kernel)
  rcases run_isolated .fifo
      [(1, orderSingle "A" "1" "100" "10"), (2, orderSingle "B" "2" "100" "4"),
        (2, orderSingle "C" "2" "101" "5"), (1, cancelRequest "A2" "A"),
        (2, cancelRequest "C2" "C")] (by decide) (by decide +kernel) with ⟨e, he, -⟩ | hok
  · cases hr.symm.trans he
  · exact hok

/-- **Clients that share a ClOrdID are not isolated.** A cancel from the
second takes the order of the first; an order of the second under the
ClOrdID of the first is acknowledged and not on the book. -/
theorem shared_clordId_collides :
    (∃ h outs x, run Hub.serve (Hub.new .fifo)
        [(1, orderSingle "X" "1" "100" "10"), (2, cancelRequest "Y" "X")] = .ok (h, outs) ∧
      x ∈ outs ∧ x.conn = 2 ∧ x.msg.msgType = MsgType.orderCancelRequest ∧
      (x.before.book.orders.map fun o => x.before.submitter o.id) = [some 1] ∧
      x.after.book.orders = [] ∧ ¬ x.Isolated) ∧
    ∃ h outs x, run Hub.serve (Hub.new .fifo)
        [(1, orderSingle "X" "1" "100" "10"), (2, orderSingle "X" "1" "99" "5")] = .ok (h, outs) ∧
      x ∈ outs ∧ x.conn = 2 ∧ x.events = [.ack ⟨2, ⟨ascii "X"⟩⟩] ∧
      x.after.book.linked.length = 2 ∧
      (x.after.book.orders.map fun o => x.after.submitter o.id) = [some 1] ∧ ¬ x.Isolated := by
  constructor
  · obtain ⟨h, outs, hr, hc⟩ := @exists_of_run_check _ _ _ _ Hub.serve
      (fun r => r.2.any fun x => decide (x.conn = 2 ∧
        x.msg.msgType = MsgType.orderCancelRequest ∧
        (x.before.book.orders.map fun o => x.before.submitter o.id) = [some 1] ∧
        x.after.book.orders = [])) (Hub.new .fifo)
      [(1, orderSingle "X" "1" "100" "10"), (2, cancelRequest "Y" "X")] (by decide +kernel)
    obtain ⟨x, hx, hc⟩ := List.any_eq_true.mp hc
    obtain ⟨hconn, hmt, hbefore, hafter⟩ := of_decide_eq_true hc
    refine ⟨h, outs, x, hr, hx, hconn, hmt, hbefore, hafter, fun hiso => ?_⟩
    obtain ⟨o, ho, hsub⟩ := List.mem_map.mp (hbefore ▸ List.mem_singleton_self (some 1))
    have hown := hiso.own hmt o ho (by rw [hafter]; exact List.not_mem_nil)
    rw [hsub, hconn] at hown
    exact absurd hown (by decide)
  · obtain ⟨h, outs, hr, hc⟩ := @exists_of_run_check _ _ _ _ Hub.serve
      (fun r => r.2.any fun x => decide (x.conn = 2 ∧ x.events = [.ack ⟨2, ⟨ascii "X"⟩⟩] ∧
        x.after.book.linked.length = 2 ∧
        (x.after.book.orders.map fun o => x.after.submitter o.id) = [some 1] ∧
        1 ∈ x.after.book.linked ∧ x.after.book.heap.cells 1 = none)) (Hub.new .fifo)
      [(1, orderSingle "X" "1" "100" "10"), (2, orderSingle "X" "1" "99" "5")] (by decide +kernel)
    obtain ⟨x, hx, hc⟩ := List.any_eq_true.mp hc
    obtain ⟨hconn, hevents, hlinked, hafter, hmem, hfreed⟩ := of_decide_eq_true hc
    refine ⟨h, outs, x, hr, hx, hconn, hevents, hlinked, hafter, fun hiso => ?_⟩
    obtain ⟨o, hcell, -⟩ := hiso.separate 1 hmem
    rw [hfreed] at hcell
    cases hcell

end Net

end OrderbookFix
