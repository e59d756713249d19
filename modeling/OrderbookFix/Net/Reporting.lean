import OrderbookFix.Net.Helpers.Journal
/-!
# Reports of fills

A trade has two sides, but the server reports it to one: the ExecutionReport
of a Trade carries the aggressor's OrderID. So the fills reported of an
order are those it had as the aggressor, and what is missing is what it
traded while resting. Nothing is missing exactly in runs without a trade.
-/

namespace OrderbookFix

namespace Net

open OrderbookFix.Core OrderbookFix.Fix

/-! ## What is reported -/

/-- The value of a field of a body. -/
def valueOf (body : Body) (t : Int) : Option Bytes :=
  (body.find? fun kv => kv.1 = t).map Prod.snd

/-- The LastQty of a report, 0 where it has none. -/
def lastQty (body : Body) : ℕ :=
  match valueOf body Tag.lastQty with
  | none => 0
  | some v =>
    match stoull v with
    | .error _ => 0
    | .ok q => q.toNat

/-- The ExecutionReports of a run, on any connection. -/
def reportsOf (outs : List Handling) : List Body :=
  outs.flatMap fun x => x.events.filterMap report

/-- **The fills reported of an order**: LastQty over the reports with
ExecType F and its OrderID. -/
def reportedQty (bodies : List Body) (id : OrderId) : ℕ :=
  ((bodies.filter fun b => valueOf b Tag.execType = some (ascii "F") ∧
    valueOf b Tag.orderID = some (dec id)).map lastQty).sum

/-- **No fill goes unreported**: what is reported of an order and what is
open of it make up its quantity. -/
def AllReported (h : Hub) (outs : List Handling) : Prop :=
  ∀ n ∈ accepted outs,
    reportedQty (reportsOf outs) n.id + h.book.openQty (journal outs) n.id = n.qty.toNat

/-- **A message that trades nothing**: an order of no quantity, or one
that crosses no live order. -/
def Hub.Uncrossing (h : Hub) (r : Conn × Message) : Prop :=
  ∀ n ∈ (h.server.call r.2).bind Call.submitted, n.qty = 0 ∨
    ∀ o ∈ h.book.ordersOn n.side.book.opposite, crosses n.side n.price o.price = false

instance (h : Hub) (r : Conn × Message) : Decidable (h.Uncrossing r) :=
  inferInstanceAs (Decidable (∀ n ∈ _, _ ∨ _))

theorem reportedQty_append (bs bs' : List Body) (id : OrderId) :
    reportedQty (bs ++ bs') id = reportedQty bs id + reportedQty bs' id := by
  rw [reportedQty, List.filter_append, List.map_append, List.sum_append]
  rfl

theorem reportedQty_cons_of_ne {body : Body} {bodies : List Body} {id : OrderId}
    (h : valueOf body Tag.execType ≠ some (ascii "F")) :
    reportedQty (body :: bodies) id = reportedQty bodies id := by
  rw [reportedQty, List.filter_cons_of_neg]
  · rfl
  · intro hc
    exact h (of_decide_eq_true hc).1

theorem reportedQty_cons_trade {t : Trade} {bodies : List Body} {id : OrderId} :
    reportedQty (execReportForTrade t t.restingId t.aggressorId true :: bodies) id =
      (if t.aggressorId = id then t.qty.toNat else 0) + reportedQty bodies id := by
  have hid : valueOf (execReportForTrade t t.restingId t.aggressorId true) Tag.orderID =
      some (dec t.aggressorId) := rfl
  have htype : valueOf (execReportForTrade t t.restingId t.aggressorId true) Tag.execType =
      some (ascii "F") := rfl
  have hqty : lastQty (execReportForTrade t t.restingId t.aggressorId true) = t.qty.toNat := by
    have hvalue : valueOf (execReportForTrade t t.restingId t.aggressorId true) Tag.lastQty =
        some (dec t.qty) := rfl
    rw [lastQty, hvalue]
    dsimp only
    rw [stoull_dec]
  rw [reportedQty, List.filter_cons, hid, htype, reportedQty]
  split_ifs with hmatch he he
  · rw [List.map_cons, List.sum_cons, hqty]
  · exact absurd (dec_inj (Option.some.inj (of_decide_eq_true hmatch).2)) he
  · exact absurd (decide_eq_true ⟨rfl, by rw [he]⟩) hmatch
  · rw [Nat.zero_add]

/-- **The reports of events** carry the aggressor's side of their
trades. -/
theorem reportedQty_events (evs : EventList) (id : OrderId) :
    reportedQty (evs.filterMap report) id = aggressorQty (tradesIn (evs.map .event)) id := by
  have hne : ∀ {body : Body} {v : Bytes} {rest : List Body}, valueOf body Tag.execType = some v →
      v ≠ ascii "F" → reportedQty (body :: rest) id = reportedQty rest id := fun h hv =>
    reportedQty_cons_of_ne (by rw [h]; exact fun hc => hv (Option.some.inj hc))
  induction evs with
  | nil => rfl
  | cons ev evs ih =>
    cases ev with
    | ack a =>
      have htype : valueOf (execReportForAck a a.id) Tag.execType = some (ascii "0") := rfl
      exact (hne htype (by decide)).trans ih
    | cancelAck c => exact (hne rfl (by decide)).trans ih
    | ordReject r => exact (hne rfl (by decide)).trans ih
    | replaceAck r => exact ih
    | trade t =>
      have htrades : tradesIn ((Event.trade t :: evs).map .event) =
          [t] ++ tradesIn (evs.map .event) := rfl
      have hone : aggressorQty [t] id = if t.aggressorId = id then t.qty.toNat else 0 := by
        rw [aggressorQty, List.filter_cons]
        by_cases he : t.aggressorId = id
        · rw [if_pos (decide_eq_true he), if_pos he]
          rfl
        · rw [if_neg (fun hc => he (of_decide_eq_true hc)), if_neg he]
          rfl
      rw [htrades, aggressorQty_append, hone, ← ih]
      exact reportedQty_cons_trade

/-- **The fills reported of an order are those it had as the
aggressor.** -/
theorem reportedQty_reportsOf (outs : List Handling) (id : OrderId) :
    reportedQty (reportsOf outs) id = aggressorQty (tradesIn (journal outs)) id := by
  induction outs with
  | nil => rfl
  | cons x outs ih =>
    have hreports : reportsOf (x :: outs) = x.events.filterMap report ++ reportsOf outs := rfl
    have hjournal : journal (x :: outs) = x.records ++ journal outs := rfl
    rw [hreports, hjournal, reportedQty_append, tradesIn_append, aggressorQty_append,
      reportedQty_events, tradesIn_records, ih]

/-! ## When nothing is traded -/

/-- A sum of positive terms is nothing exactly if there are none. -/
theorem restingQty_eq_zero {ts : List Trade} {id : OrderId} (hpos : ∀ t ∈ ts, 0 < t.qty) :
    restingQty ts id = 0 ↔ ∀ t ∈ ts, t.restingId ≠ id := by
  constructor
  · intro h t ht he
    have hmem : t.qty.toNat ∈ (ts.filter fun t => t.restingId = id).map fun t => t.qty.toNat :=
      List.mem_map.mpr ⟨t, List.mem_filter.mpr ⟨ht, decide_eq_true he⟩, rfl⟩
    have hle := List.le_sum_of_mem hmem
    have := toNat_pos.mp (hpos t ht)
    rw [restingQty] at h
    omega
  · exact restingQty_of_ne

/-- **An order trades nothing** exactly if it has no quantity or crosses
no open order. -/
theorem orderTrades_eq_nil_iff {d d' : Depth} {o : Order} {fs : List Quantity}
    {evs : EventList} (h : Execution d o fs d' evs) (hd : d.Good) :
    orderTrades o (d.ordersOn o.side.book.opposite) fs = [] ↔ o.leavesQty = 0 ∨
      ∀ r ∈ d.ordersOn o.side.book.opposite, crosses o.side o.price r.price = false := by
  set opp := d.ordersOn o.side.book.opposite with hopp
  have hnil : orderTrades o opp fs = [] ↔ ∀ x ∈ opp.zip fs, x.2 = 0 := by
    rw [orderTrades, List.map_eq_nil_iff, List.filter_eq_nil_iff]
    simp only [ne_eq, decide_not, Bool.not_eq_true', decide_eq_false_iff_not, not_not]
  rw [hnil]
  have hfst : (opp.zip fs).map Prod.fst = opp := List.map_fst_zip (Nat.le_of_eq h.length_eq.symm)
  have hsnd : (opp.zip fs).map Prod.snd = fs := List.map_snd_zip (Nat.le_of_eq h.length_eq)
  constructor
  · intro hzero
    by_cases hq : o.leavesQty = 0
    · exact .inl hq
    refine .inr fun r hr => ?_
    -- with quantity left over, everyone crossed would have been filled
    have hsum : (fs.map UInt64.toNat).sum = 0 := by
      rw [← hsnd, List.map_map]
      refine List.sum_eq_zero fun q hq => ?_
      obtain ⟨x, hx, rfl⟩ := List.mem_map.mp hq
      change x.2.toNat = 0
      rw [hzero x hx]
      rfl
    have hpos := ne_zero_iff_toNat.mp hq
    obtain ⟨x, hx, rfl⟩ := List.mem_map.mp (hfst ▸ hr)
    have hwant := h.fill_eq_want (by omega) x hx
    rw [hzero x hx, want] at hwant
    by_contra hc
    rw [if_pos (Bool.eq_true_of_not_eq_false hc)] at hwant
    have hmem : x.1 ∈ d.orders := mem_orders.mpr ⟨_, hr⟩
    exact ne_zero_iff_toNat.mp (hd.live x.1 hmem).1 hwant.symm
  · intro hidle x hx
    have hle : x.2.toNat ≤ want o x.1 := (List.forall₂_iff_zip.mp h.fill_le_want).2 hx
    refine UInt64.toNat_inj.mp ?_
    change x.2.toNat = 0
    rcases hidle with hq | hc
    · have hmem : x.2.toNat ∈ fs.map UInt64.toNat := List.mem_map_of_mem (List.of_mem_zip hx).2
      have hsum := List.le_sum_of_mem hmem
      have hall := h.alloc.sum_le_avail
      rw [hq] at hall
      change _ ≤ 0 at hall
      omega
    · rw [want, hc x.1 (List.of_mem_zip hx).1] at hle
      exact Nat.le_zero.mp hle

/-- A message trades nothing exactly if it is uncrossing. -/
theorem Handling.Executed.uncrossing_iff {x : Handling} (h : x.Executed) :
    tradesIn x.records = [] ↔ x.before.Uncrossing (x.conn, x.msg) := by
  obtain ⟨d, ht, hd, hexec, hother⟩ := h
  rcases horder : x.order with _ | n
  · -- no order, and the answer to a cancel is no trade
    refine ⟨fun _ n hn => ?_, fun _ => ?_⟩
    · rw [← Handling.call, ← Handling.order, horder] at hn
      cases hn
    · rw [tradesIn_records, tradesIn, List.filterMap_map, List.filterMap_eq_nil_iff]
      intro ev hev
      obtain ⟨res, rfl⟩ := hother horder ev hev
      rw [Function.comp_apply, Server.cancelEvent]
      by_cases hok : res.ok = true
      · rw [if_pos hok]
      · rw [if_neg hok]
  obtain ⟨-, d', hex⟩ := hexec n horder
  have hopp : x.before.book.ordersOn n.side.book.opposite =
      d.ordersOn n.order.side.book.opposite := ht.rep.ordersOn_eq _
  rw [tradesIn_records, hex.events, tradesIn_events, orderTrades_eq_nil_iff hex hd]
  constructor
  · intro h n' hn'
    obtain rfl := Option.some.inj (horder.symm.trans hn')
    rw [hopp]
    exact h
  · intro h
    have := h n horder
    rw [hopp] at this
    exact this

/-- **What is missing from an order's reports** is what it traded while
resting. -/
theorem Journaled.reported_iff {outs : List Handling} {h : Hub} {d : Depth}
    (hj : Journaled outs h d) {n : NewOrder} (hn : n ∈ accepted outs) :
    reportedQty (reportsOf outs) n.id + h.book.openQty (journal outs) n.id = n.qty.toNat ↔
      restingQty (tradesIn (journal outs)) n.id = 0 := by
  have hopen : h.book.openQty (journal outs) n.id =
      leavesOf (d.orders ++ cancelledIn (journal outs)) n.id := hj.account.openQty_eq hj.tracked.rep _
  have hcons := hj.account.conserved n (by rw [← accepted_eq]; exact hn)
  rw [reportedQty_reportsOf, hopen]
  omega

/-- The condition on the messages of a run, read off the messages
handled. -/
theorem guarded_iff_handled {P : Hub → Conn × Message → Prop} {h h' : Hub}
    {reqs : List (Conn × Message)} {outs : List Handling}
    (hrun : run Hub.serve h reqs = .ok (h', outs)) :
    Guarded Hub.serve P h reqs ↔ ∀ x ∈ outs, P x.before (x.conn, x.msg) := by
  induction reqs generalizing h outs with
  | nil =>
    obtain ⟨-, rfl⟩ := Prod.mk.inj (Except.ok.inj hrun)
    exact ⟨fun _ x hx => (by cases hx), fun _ => trivial⟩
  | cons r reqs ih =>
    obtain ⟨h₁, out, outs', hs, hr, rfl⟩ := exists_of_run_cons hrun
    obtain ⟨evs, rfl⟩ : ∃ evs, out = [⟨h, r.1, r.2, evs, h₁⟩] := by
      rw [Hub.serve] at hs
      rcases hroute : h.server.route r.2 with e | ⟨srv, evs⟩
      · rw [hroute] at hs
        cases hs
      · rw [hroute] at hs
        obtain ⟨rfl, rfl⟩ := Prod.mk.inj (Except.ok.inj hs)
        exact ⟨evs, rfl⟩
    rw [List.singleton_append, List.forall_mem_cons, ← ih hr]
    constructor
    · intro hg
      exact ⟨hg.1, hg.2 h₁ _ hs⟩
    · intro hg
      refine ⟨hg.1, fun h₂ out₂ hs₂ => ?_⟩
      obtain ⟨rfl, -⟩ := Prod.mk.inj (Except.ok.inj (hs.symm.trans hs₂))
      exact hg.2

/-- **When every fill is reported.** In every run of the server, however
its messages interleave, that reuses no live ClOrdID and stays in range,
the fills reported make up the filled quantity of every order exactly if
no message trades: whatever is traded is missing from the resting order's
reports. -/
theorem run_reported_iff (algo : MatchAlgo) (reqs : List (Conn × Message))
    (hcount : reqs.length + 1 < 2 ^ 64)
    (hb : Guarded Hub.serve Hub.Bounded (Hub.new algo) reqs) {h : Hub} {outs : List Handling}
    (hrun : run Hub.serve (Hub.new algo) reqs = .ok (h, outs)) :
    AllReported h outs ↔ Guarded Hub.serve Hub.Uncrossing (Hub.new algo) reqs := by
  obtain ⟨d, hj⟩ := run_journaled hcount hb hrun
  rw [guarded_iff_handled hrun]
  constructor
  · intro hall x hx
    rw [← (hj.executed x hx).uncrossing_iff, List.eq_nil_iff_forall_not_mem]
    intro t ht
    -- the resting order of a trade was accepted, and misses what it traded
    have htj : t ∈ tradesIn (journal outs) := mem_tradesIn_journal.mpr ⟨x, hx, ht⟩
    obtain ⟨-, -, hrest⟩ := hj.account.trades t htj
    rw [← accepted_eq] at hrest
    obtain ⟨n, hn, hid⟩ := List.mem_map.mp hrest
    have hzero := (hj.reported_iff hn).mp (hall n hn)
    exact (restingQty_eq_zero fun t ht => (hj.account.trades t ht).1).mp hzero t htj hid.symm
  · intro hall n hn
    have hnone : tradesIn (journal outs) = [] := by
      rw [List.eq_nil_iff_forall_not_mem]
      intro t ht
      obtain ⟨x, hx, hxt⟩ := mem_tradesIn_journal.mp ht
      rw [(hj.executed x hx).uncrossing_iff.mpr (hall x hx)] at hxt
      cases hxt
    rw [hj.reported_iff hn, hnone]
    rfl

/-- Two clients whose orders do not cross, one of them cancelled. -/
theorem run_reported_iff_uncrossed :
    ∃ h outs, run Hub.serve (Hub.new .proRata)
      [(1, orderSingle "A" "1" "99" "10"), (2, orderSingle "B" "2" "100" "4"),
        (1, cancelRequest "A2" "A")] = .ok (h, outs) ∧
      (accepted outs).length = 2 ∧ AllReported h outs := by
  obtain ⟨h, outs, hr, hc⟩ := @exists_of_run_check _ _ _ _ Hub.serve
    (fun r => decide ((accepted r.2).length = 2)) (Hub.new .proRata)
    [(1, orderSingle "A" "1" "99" "10"), (2, orderSingle "B" "2" "100" "4"),
      (1, cancelRequest "A2" "A")] (by decide +kernel)
  refine ⟨h, outs, hr, of_decide_eq_true hc, ?_⟩
  exact (run_reported_iff .proRata _ (by decide) (by decide +kernel) hr).mpr (by decide +kernel)

/-- **A fill of a resting order is not reported.** Ten are offered and
four are bought: the buyer's report is the only one, and of the seller's
order, with six left, none of the four is reported. -/
theorem resting_fill_unreported :
    ∃ h outs n, run Hub.serve (Hub.new .fifo)
      [(1, orderSingle "A" "2" "100" "10"), (2, orderSingle "B" "1" "100" "4")] = .ok (h, outs) ∧
      n ∈ accepted outs ∧ n.id = 1 ∧ n.qty = 10 ∧
      restingQty (tradesIn (journal outs)) n.id = 4 ∧
      h.book.openQty (journal outs) n.id = 6 ∧ reportedQty (reportsOf outs) n.id = 0 ∧
      reportedQty (reportsOf outs) 2 = 4 ∧ ¬ AllReported h outs := by
  obtain ⟨h, outs, hr, hc⟩ := @exists_of_run_check _ _ _ _ Hub.serve
    (fun r => (accepted r.2).any fun n => decide (n.id = 1 ∧ n.qty = 10 ∧
      restingQty (tradesIn (journal r.2)) n.id = 4 ∧
      r.1.book.openQty (journal r.2) n.id = 6 ∧ reportedQty (reportsOf r.2) n.id = 0 ∧
      reportedQty (reportsOf r.2) 2 = 4)) (Hub.new .fifo)
    [(1, orderSingle "A" "2" "100" "10"), (2, orderSingle "B" "1" "100" "4")] (by decide +kernel)
  obtain ⟨n, hn, hc⟩ := List.any_eq_true.mp hc
  obtain ⟨hid, hqty, hrest, hopen, hrep, htwo⟩ := of_decide_eq_true hc
  refine ⟨h, outs, n, hr, hn, hid, hqty, hrest, hopen, hrep, htwo, fun hall => ?_⟩
  have := hall n hn
  rw [hrep, hopen, hqty] at this
  exact absurd this (by decide)

end Net

end OrderbookFix
