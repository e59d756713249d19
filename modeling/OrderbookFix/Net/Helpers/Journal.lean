import OrderbookFix.Core.Arithmetic
import OrderbookFix.Core.Conservation
import OrderbookFix.Net.Helpers.Tracking
/-!
# The journal of the server

The messages handled in a run are calls on the book, so the account of
quantities is kept over them as it is over the calls. It is kept as long
as no order reuses the ClOrdID of a live one and the levels an order
crosses add up below half the word size.
-/

namespace OrderbookFix

namespace Net

open OrderbookFix.Core OrderbookFix.Fix

/-- The call on the book that a message makes. -/
def Server.call (srv : Server) (m : Message) : Option Call :=
  if m.msgType = MsgType.newOrderSingle then
    match srv.newOrder m with
    | .error _ => none
    | .ok n => some (.submit n)
  else if m.msgType = MsgType.orderCancelRequest then
    some (.cancel 0 ⟨Server.field m Tag.origClOrdID []⟩)
  else none

namespace Hub

/-- A message whose call has a free key and stays in range. -/
def Bounded (h : Hub) (r : Conn × Message) : Prop :=
  h.Fresh r ∧ ∀ call ∈ h.server.call r.2, h.server.engine.Bounded call

instance (h : Hub) (r : Conn × Message) : Decidable (h.Bounded r) :=
  inferInstanceAs (Decidable (_ ∧ _))

end Hub

namespace Handling

/-- The call a message made. -/
def call (x : Handling) : Option Call := x.before.server.call x.msg

/-- What a message adds to the journal: the order it cancelled, as it
was, and its events. -/
def records (x : Handling) : List Record :=
  (x.call.bind x.before.server.engine.cancelling).toList.map .cancelled ++ x.events.map .event

/-- The order a message brought in. -/
def order (x : Handling) : Option NewOrder := x.call.bind Call.submitted

end Handling

/-- The journal of the messages handled. -/
def journal (outs : List Handling) : List Record := outs.flatMap Handling.records

/-- The orders accepted. -/
def accepted (outs : List Handling) : List NewOrder := outs.filterMap Handling.order

/-- **An order executed** on the values of a book: it filled the ladder it
was matched against, within the word size. -/
def Filled (algo : MatchAlgo) (d : Depth) (n : NewOrder) (evs : EventList) : Prop :=
  (∀ a ∈ d.ladder n.side.book.opposite, crosses n.side n.price a.1 = true →
      leavesSum a.2 < 2 ^ 63) ∧
    ∃ d', Execution d n.order
      (ladderFills algo (d.ladder n.side.book.opposite) n.order).flatten d' evs

/-- **A message executed** on an intact book: an order was matched with
the open orders, and anything else has the answer to a cancel for its only
event. -/
def Handling.Executed (x : Handling) : Prop :=
  ∃ d, Tracked x.before d ∧ d.Good ∧
    (∀ n, x.order = some n → Filled x.before.server.engine.algo d n x.events) ∧
    (x.order = none → ∀ ev ∈ x.events, ∃ res, ev = Server.cancelEvent x.msg res)

/-- **The account of a run of the server.** -/
structure Journaled (outs : List Handling) (h : Hub) (d : Depth) : Prop where
  tracked : Tracked h d
  good : d.Good
  account : Account (outs.filterMap Handling.call) (journal outs) d
  ids : ∀ n ∈ accepted outs, n.id.toNat ≤ h.log.length
  nodup : ((accepted outs).map NewOrder.id).Nodup
  executed : ∀ x ∈ outs, x.Executed

section Calls

variable {h : Hub} {m : Message}

theorem call_order {n : NewOrder} (hmt : m.msgType = MsgType.newOrderSingle)
    (hnew : h.server.newOrder m = .ok n) : h.server.call m = some (.submit n) := by
  rw [Server.call, if_pos hmt, hnew]

theorem call_cancel (hmt : m.msgType = MsgType.orderCancelRequest) :
    h.server.call m = some (.cancel 0 ⟨Server.field m Tag.origClOrdID []⟩) := by
  have hne : m.msgType ≠ MsgType.newOrderSingle := by rw [hmt]; decide
  rw [Server.call, if_neg hne, if_pos hmt]

theorem call_other (hnew : m.msgType ≠ MsgType.newOrderSingle)
    (hcancel : m.msgType ≠ MsgType.orderCancelRequest) : h.server.call m = none := by
  rw [Server.call, if_neg hnew, if_neg hcancel]

end Calls

/-- The orders accepted are those submitted. -/
theorem accepted_eq (outs : List Handling) :
    accepted outs = submitted (outs.filterMap Handling.call) := by
  rw [accepted, submitted, List.filterMap_filterMap]
  rfl

theorem accepted_append (outs outs' : List Handling) :
    accepted (outs ++ outs') = accepted outs ++ accepted outs' := List.filterMap_append ..

theorem journal_append (outs outs' : List Handling) :
    journal (outs ++ outs') = journal outs ++ journal outs' := List.flatMap_append ..

theorem journal_singleton (x : Handling) : journal [x] = x.records := List.append_nil _

/-- The trades of a message are those of its events. -/
theorem tradesIn_records (x : Handling) : tradesIn x.records = tradesIn (x.events.map .event) := by
  rw [Handling.records, tradesIn_append]
  cases x.call.bind x.before.server.engine.cancelling <;> rfl

/-- The trades of the journal, message by message. -/
theorem mem_tradesIn_journal {outs : List Handling} {t : Trade} :
    t ∈ tradesIn (journal outs) ↔ ∃ x ∈ outs, t ∈ tradesIn x.records := by
  induction outs with
  | nil =>
    constructor
    · intro h
      cases h
    · rintro ⟨x, hx, -⟩
      cases hx
  | cons x outs ih =>
    have hcons : journal (x :: outs) = x.records ++ journal outs := rfl
    rw [hcons, tradesIn_append, List.mem_append, ih, List.exists_mem_cons_iff]

/-- The answer to a cancel is no trade. -/
theorem tradesIn_cancelEvent {m : Message} {res : CancelResult} {rs : List Record} {o : Option Order} :
    tradesIn (rs ++ (o.toList.map .cancelled ++ [Server.cancelEvent m res].map .event)) =
      tradesIn rs := by
  rw [tradesIn_append, Server.cancelEvent]
  cases o <;> split <;> exact List.append_nil _

theorem cancelledIn_cancelEvent {m : Message} {res : CancelResult} {rs : List Record}
    {o : Option Order} :
    cancelledIn (rs ++ (o.toList.map .cancelled ++ [Server.cancelEvent m res].map .event)) =
      cancelledIn rs ++ o.toList := by
  rw [cancelledIn_append, cancelledIn_append, cancelledIn_events, List.append_nil]
  cases o <;> rfl

section Step

variable {h h' : Hub} {d d' : Depth} {c : Conn} {m : Message} {evs : EventList}
  {outs : List Handling}

theorem journaled_new (algo : MatchAlgo) : Journaled [] (Hub.new algo) Depth.new where
  tracked := tracked_new algo
  good := good_new
  account := Account.new
  ids _ h := by cases h
  nodup := List.nodup_nil
  executed _ h := by cases h

/-- **An order keeps the account.** -/
theorem Journaled.order (hj : Journaled outs h d) {n : NewOrder} {b' : OrderBook}
    (hmt : m.msgType = MsgType.newOrderSingle) (hnew : h.server.newOrder m = .ok n)
    (hb : h.server.engine.Bounded (.submit n))
    (ht' : Tracked ⟨⟨{ h.server.engine with book := b' }, h.server.nextOrderId + 1⟩,
      ⟨c, n.clordId, n.id⟩ :: h.log⟩ (d.submit h.server.engine.algo n.order).1) :
    Journaled
      (outs ++ [⟨h, c, m, (d.submit h.server.engine.algo n.order).2,
        ⟨⟨{ h.server.engine with book := b' }, h.server.nextOrderId + 1⟩,
          ⟨c, n.clordId, n.id⟩ :: h.log⟩⟩])
      ⟨⟨{ h.server.engine with book := b' }, h.server.nextOrderId + 1⟩,
        ⟨c, n.clordId, n.id⟩ :: h.log⟩ (d.submit h.server.engine.algo n.order).1 := by
  set evs := (d.submit h.server.engine.algo n.order).2
  set h' : Hub := ⟨⟨{ h.server.engine with book := b' }, h.server.nextOrderId + 1⟩,
    ⟨c, n.clordId, n.id⟩ :: h.log⟩
  set x : Handling := ⟨h, c, m, evs, h'⟩
  have hcall : x.call = some (.submit n) := call_order hmt hnew
  have horder : x.order = some n := by rw [Handling.order, hcall]; rfl
  have hrecords : x.records = evs.map .event := by rw [Handling.records, hcall]; rfl
  have hacc : accepted (outs ++ [x]) = accepted outs ++ [n] := by
    rw [accepted_append, accepted, accepted, List.filterMap_cons_some horder]
    rfl
  have hcalls : (outs ++ [x]).filterMap Handling.call =
      outs.filterMap Handling.call ++ [.submit n] := by
    rw [List.filterMap_append, List.filterMap_cons_some hcall]
    rfl
  -- its id is the next one, above all before it
  have hid : n.id = h.server.nextOrderId := (newOrder_spec hnew).1
  have hnext : n.id.toNat = h.log.length + 1 := by rw [hid]; exact hj.tracked.next
  have hnot : n.id ∉ (accepted outs).map NewOrder.id := by
    intro hmem
    obtain ⟨n', hn', he⟩ := List.mem_map.mp hmem
    have hle := hj.ids n' hn'
    rw [he] at hle
    omega
  have hlt := hj.tracked.rep.level_lt hb
  have hex := @execution_ladderFills h.server.engine.algo d n.order hj.tracked.rep.toPlaced
    fun a ha hc => by
      have := hlt a ha hc
      omega
  refine ⟨ht', hex.good hj.good (Nat.le_refl _), ?_, fun n' hn' => ?_, ?_, fun y hy => ?_⟩
  · rw [hcalls, journal_append, journal_singleton, hrecords]
    exact hj.account.submit hex (by rw [← accepted_eq]; exact hnot)
  · rw [hacc, List.mem_append, List.mem_singleton] at hn'
    change _ ≤ h.log.length + 1
    rcases hn' with hn' | rfl
    · exact Nat.le_succ_of_le (hj.ids n' hn')
    · exact Nat.le_of_eq hnext
  · rw [hacc, List.map_append, List.nodup_append']
    refine ⟨hj.nodup, List.nodup_singleton _, fun i hi hi' => ?_⟩
    exact hnot (List.mem_singleton.mp hi' ▸ hi)
  · rcases List.mem_append.mp hy with hy | hy
    · exact hj.executed y hy
    · obtain rfl := List.mem_singleton.mp hy
      refine ⟨d, hj.tracked, hj.good, fun n' hn' => ?_, fun hnone => ?_⟩
      · obtain rfl := Option.some.inj (horder.symm.trans hn')
        exact ⟨hlt, _, hex⟩
      · rw [horder] at hnone
        cases hnone

/-- **A message that is no order keeps the account**, where live and
cancelled orders together are as before. -/
theorem Journaled.quiet (hj : Journaled outs h d) (ht' : Tracked h' d') (hd' : d'.Good)
    (hlog : h'.log = h.log) (horder : (⟨h, c, m, evs, h'⟩ : Handling).order = none)
    (hevs : ∀ ev ∈ evs, ∃ res, ev = Server.cancelEvent m res)
    (htrades : tradesIn (journal (outs ++ [⟨h, c, m, evs, h'⟩])) = tradesIn (journal outs))
    (hperm : (d'.orders ++ cancelledIn (journal (outs ++ [⟨h, c, m, evs, h'⟩]))).Perm
      (d.orders ++ cancelledIn (journal outs))) :
    Journaled (outs ++ [⟨h, c, m, evs, h'⟩]) h' d' := by
  set x : Handling := ⟨h, c, m, evs, h'⟩
  have hacc : accepted (outs ++ [x]) = accepted outs := by
    rw [accepted_append, accepted, accepted, List.filterMap_cons_none horder]
    exact List.append_nil _
  refine ⟨ht', hd', ?_, ?_, ?_, fun y hy => ?_⟩
  · refine hj.account.of_perm ?_ htrades hperm
    rw [← accepted_eq, ← accepted_eq, hacc]
  · rw [hacc, hlog]
    exact hj.ids
  · rw [hacc]
    exact hj.nodup
  · rcases List.mem_append.mp hy with hy | hy
    · exact hj.executed y hy
    · obtain rfl := List.mem_singleton.mp hy
      refine ⟨d, hj.tracked, hj.good, fun n hn => ?_, fun _ => hevs⟩
      rw [horder] at hn
      cases hn

/-- **One message keeps the account.** -/
theorem Journaled.serves (hj : Journaled outs h d) (hs : Serves h d c m h' d' evs)
    (ht' : Tracked h' d') (hb : h.Bounded (c, m)) :
    Journaled (outs ++ [⟨h, c, m, evs, h'⟩]) h' d' := by
  cases hs with
  | order n b' hmt hnew hkey =>
    exact hj.order hmt hnew (hb.2 _ (call_order hmt hnew)) ht'
  | cancel res b' hmt hok =>
    have hcall := @call_cancel h m hmt
    refine hj.quiet ht' (hj.good.cancel _) rfl ?_ ?_ ?_ ?_
    · rw [Handling.order, Handling.call, hcall]
      rfl
    · intro ev hev
      exact ⟨res, List.mem_singleton.mp hev⟩
    · rw [journal_append, journal_singleton]
      exact tradesIn_cancelEvent
    · -- the cancelled order moves from the book to the journal
      rw [journal_append, journal_singleton, Handling.records, Handling.call, hcall]
      dsimp only [Option.bind_some]
      rw [cancelledIn_cancelEvent]
      have hmove := (@cancelling_sim _ _ 0 ⟨Server.field m Tag.origClOrdID []⟩
        hj.tracked.rep).append_right (cancelledIn (journal outs))
      refine List.Perm.trans ?_ hmove.symm
      rw [List.append_assoc, ← List.append_assoc (Depth.orders _)]
      exact List.perm_append_comm
  | other hnew hcancel =>
    have hcall := @call_other h m hnew hcancel
    have hrecords : (⟨h, c, m, [], h⟩ : Handling).records = [] := by
      rw [Handling.records, Handling.call, hcall]
      rfl
    refine hj.quiet ht' hj.good rfl ?_ (fun ev hev => by cases hev) ?_ ?_
    · rw [Handling.order, Handling.call, hcall]
      rfl
    · rw [journal_append, journal_singleton, hrecords, List.append_nil]
    · rw [journal_append, journal_singleton, hrecords, List.append_nil]

end Step

/-- **The account of a bounded run.** -/
theorem run_journaled {algo : MatchAlgo} {reqs : List (Conn × Message)}
    (hcount : reqs.length + 1 < 2 ^ 64)
    (hb : Guarded Hub.serve Hub.Bounded (Hub.new algo) reqs) {h : Hub} {outs : List Handling}
    (hrun : run Hub.serve (Hub.new algo) reqs = .ok (h, outs)) : ∃ d, Journaled outs h d := by
  rcases run_inv (E := fun _ => True)
      (H := fun reqs : List (Conn × Message) => reqs.length + 1 < 2 ^ 64)
      (J := fun past outs (h : Hub) => h.log.length ≤ past.length ∧ ∃ d, Journaled outs h d)
      (fun as bs hlt => by rw [List.length_append] at hlt; omega)
      (fun past outs h r ⟨hlen, d, hj⟩ hok hlt => by
        rw [List.length_append, List.length_singleton] at hlt
        rcases serve_serves (c := r.1) (m := r.2) hj.tracked hok.1 (by omega) with
          ⟨e, he, -⟩ | ⟨h', d', evs, hs, hserves, ht'⟩
        · exact .inl ⟨e, he, trivial⟩
        · refine .inr ⟨h', _, hs, ?_, d', hj.serves hserves ht' hok⟩
          rw [List.length_append, List.length_singleton]
          exact hserves.length_log.trans (by omega))
      ⟨Nat.le_refl _, Depth.new, journaled_new algo⟩ hb hcount with
    ⟨e, he, -⟩ | ⟨h₁, outs₁, hr, -, hj⟩
  · rw [hrun] at he
    cases he
  · obtain ⟨rfl, rfl⟩ := Prod.mk.inj (Except.ok.inj (hrun.symm.trans hr))
    exact hj

end Net

end OrderbookFix
