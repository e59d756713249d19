import OrderbookFix.Net.Reporting
/-!
# ExecIDs

An ExecID is made of the order's id, a letter and, for a fill, the
quantity filled. Ids are handed out once, so two ExecIDs can only be equal
among the fills of one order, and they are where it takes the same
quantity from two resting orders. They all differ where its fills are
bound to: it is served head to tail, and what it takes next is never
what one of the orders before had left.
-/

namespace OrderbookFix

namespace Net

open OrderbookFix.Core OrderbookFix.Fix

/-- The ExecIDs of a run, on any connection. -/
def execIds (outs : List Handling) : List Bytes :=
  (reportsOf outs).filterMap fun body => valueOf body Tag.execID

namespace Hub

/-- The open quantities an order crosses, level by level, best price
first. -/
def crossed (h : Hub) (n : NewOrder) : List (List ℕ) :=
  ((h.book.levels n.side.book.opposite).entries.filter fun l => crosses n.side n.price l.1).map
    fun l => (h.book.ordersAt l.2).map fun o => o.leavesQty.toNat

/-- **An order whose fills are bound to differ**: matched first come, or
against levels of which none is split, so that it is served head to tail;
and what it takes from an order is none of what those before it had
open. -/
def Telling (h : Hub) (r : Conn × Message) : Prop :=
  ∀ n ∈ (h.server.call r.2).bind Call.submitted,
    (h.server.engine.algo = .fifo ∨ Cascade.Whole n.qty.toNat (h.crossed n)) ∧
      Alloc.Distinct n.qty.toNat [] (h.crossed n).flatten

instance (h : Hub) (r : Conn × Message) : Decidable (h.Telling r) :=
  inferInstanceAs (Decidable (∀ n ∈ _, _ ∧ _))

/-- A message that is bounded and telling. -/
def Identifying (h : Hub) (r : Conn × Message) : Prop := h.Bounded r ∧ h.Telling r

instance (h : Hub) (r : Conn × Message) : Decidable (h.Identifying r) :=
  inferInstanceAs (Decidable (_ ∧ _))

end Hub

/-! ## The texts -/

/-- An id and what follows the dash can be told apart. -/
theorem dash_inj {a b : UInt64} {x y : Bytes} (h : dec a ++ 0x2d :: x = dec b ++ 0x2d :: y) :
    a = b ∧ x = y := by
  have hhead : ∀ (n : UInt64) (z : Bytes), (dec n ++ 0x2d :: z).takeWhile isDigit = dec n := by
    intro n z
    have hdigits : ∀ c ∈ dec n, isDigit c = true := fun c hc => isDigit_of_mem_decimal hc
    rw [List.takeWhile_append_of_pos hdigits, List.takeWhile_cons_of_neg (by decide),
      List.append_nil]
  have hdec : dec a = dec b := by rw [← hhead a x, ← hhead b y, h]
  refine ⟨dec_inj hdec, ?_⟩
  rw [hdec] at h
  exact (List.cons.inj (List.append_cancel_left h)).2

/-- The ExecIDs of the events of a submit. -/
theorem execIds_events {a : Ack} {ts : List Trade} :
    ((Event.ack a :: ts.map .trade).filterMap report).filterMap
        (fun body => valueOf body Tag.execID) =
      (dec a.id ++ ascii "-A") :: ts.map fun t => dec t.aggressorId ++ ascii "-T" ++ dec t.qty := by
  rw [List.filterMap_filterMap, List.filterMap_cons, List.filterMap_map]
  change _ :: ts.filterMap (fun t => some (dec t.aggressorId ++ ascii "-T" ++ dec t.qty)) = _
  rw [List.filterMap_eq_map']

/-- The quantities of an order's trades are its fills that are not
nothing. -/
theorem qty_orderTrades {aggr : Order} {os : List Order} {fs : List Quantity}
    (h : fs.length = os.length) :
    (orderTrades aggr os fs).map Trade.qty = fs.filter (· ≠ 0) := by
  have hsnd : (os.zip fs).map Prod.snd = fs := List.map_snd_zip (Nat.le_of_eq h)
  conv_rhs => rw [← hsnd, List.filter_map]
  rw [orderTrades, List.map_map]
  rfl

/-- An order whose trades differ in quantity has ExecIDs that differ. -/
theorem nodup_execIds_of_qty {id : OrderId} {qs : List Quantity} (h : qs.Nodup) :
    ((dec id ++ ascii "-A") :: qs.map fun q => dec id ++ ascii "-T" ++ dec q).Nodup := by
  have hT : ∀ q, dec id ++ ascii "-T" ++ dec q = dec id ++ 0x2d :: 0x54 :: dec q := fun q =>
    List.append_assoc ..
  rw [List.nodup_cons]
  constructor
  · intro hmem
    obtain ⟨q, -, he⟩ := List.mem_map.mp hmem
    rw [hT] at he
    have hrest := (dash_inj (x := 0x54 :: dec q) (y := [0x41]) he).2
    exact absurd (List.cons.inj hrest).1 (by decide)
  · refine h.map fun q q' he => ?_
    rw [hT, hT] at he
    exact dec_inj (List.cons.inj (dash_inj he).2).2

/-! ## One order -/

/-- What an order crosses, as the ladder asks for it. -/
theorem crossed_eq {h : Hub} {d : Depth} (hrep : Rep h.book d) (n : NewOrder) :
    h.crossed n = ((d.ladder n.side.book.opposite).filter fun a =>
      crosses n.side n.price a.1).map fun a => a.2.map fun o => o.leavesQty.toNat := by
  rw [Hub.crossed, ← hrep.ladder_eq, List.filter_map, List.map_map]
  rfl

/-- Levels an order does not cross ask for nothing, so they are left out
of what it is served over. -/
theorem whole_demand {aggr : Order} {l : Ladder} {a : ℕ}
    (h : Cascade.Whole a ((l.filter fun x => crosses aggr.side aggr.price x.1).map fun x =>
      x.2.map fun o => o.leavesQty.toNat)) : Cascade.Whole a (l.map (demand aggr)) := by
  induction l generalizing a with
  | nil => trivial
  | cons x l ih =>
    rw [List.map_cons, demand]
    by_cases hc : crosses aggr.side aggr.price x.1 = true
    · rw [List.filter_cons, if_pos hc, List.map_cons] at h
      rw [if_pos hc]
      exact ⟨h.1, ih h.2⟩
    · rw [List.filter_cons, if_neg hc] at h
      rw [if_neg hc]
      have hsum : (x.2.map fun _ => 0).sum = 0 := by simp
      refine ⟨.inr (.inl (by rw [hsum]; exact Nat.zero_le a)), ?_⟩
      rw [hsum, Nat.sub_zero]
      exact ih h

theorem filter_demand {aggr : Order} {l : Ladder} :
    (l.map (demand aggr)).flatten.filter (· ≠ 0) =
      ((l.filter fun x => crosses aggr.side aggr.price x.1).map fun x =>
        x.2.map fun o => o.leavesQty.toNat).flatten.filter (· ≠ 0) := by
  induction l with
  | nil => rfl
  | cons x l ih =>
    rw [List.map_cons, List.flatten_cons, List.filter_append, ih, demand]
    by_cases hc : crosses aggr.side aggr.price x.1 = true
    · rw [if_pos hc, List.filter_cons, if_pos hc, List.map_cons, List.flatten_cons,
        List.filter_append]
    · rw [if_neg hc, List.filter_cons, if_neg hc]
      have hnone : ((x.2.map fun _ => 0).filter (· ≠ 0)) = [] := by simp
      rw [hnone, List.nil_append]

/-- **The fills of a telling order differ.** -/
theorem nodup_fills {h : Hub} {d : Depth} {n : NewOrder} (hrep : Rep h.book d)
    (hlt : ∀ a ∈ d.ladder n.side.book.opposite, crosses n.side n.price a.1 = true →
      leavesSum a.2 < 2 ^ 63)
    (hserved : h.server.engine.algo = .fifo ∨ Cascade.Whole n.qty.toNat (h.crossed n))
    (hdistinct : Alloc.Distinct n.qty.toNat [] (h.crossed n).flatten) :
    ((ladderFills h.server.engine.algo (d.ladder n.side.book.opposite) n.order).flatten.filter
      (· ≠ 0)).Nodup := by
  set l := d.ladder n.side.book.opposite with hl
  set fs := (ladderFills h.server.engine.algo l n.order).flatten with hfs
  have hcrossed := crossed_eq hrep n
  rw [← hl] at hcrossed
  have hgreedy : fs.map UInt64.toNat =
      Alloc.greedy n.qty.toNat (l.map (demand n.order)).flatten := by
    refine toNat_ladderFills (fun a ha hc => ?_) (hserved.imp_right fun hw => ?_)
    · have := hlt a ha hc
      omega
    · rw [hcrossed] at hw
      exact whole_demand hw
  have hfilter : (fs.filter (· ≠ 0)).map UInt64.toNat = (fs.map UInt64.toNat).filter (· ≠ 0) := by
    rw [List.filter_map]
    refine congrArg (List.map UInt64.toNat) (List.filter_congr fun q _ => ?_)
    rw [Function.comp_apply, decide_eq_decide]
    exact ne_zero_iff_toNat
  refine List.Nodup.of_map UInt64.toNat ?_
  have hdemand := @filter_demand n.order l
  change _ = (((l.filter fun x => crosses n.side n.price x.1).map _).flatten).filter _ at hdemand
  rw [hfilter, hgreedy, Alloc.filter_greedy, hdemand, ← hcrossed, ← Alloc.filter_greedy]
  exact hdistinct.nodup.1

/-- **The ExecIDs of a message** start with the id of the order it brought
in, and differ where it is telling. -/
theorem Handling.Executed.execIds {x : Handling} (h : x.Executed) :
    (∀ e ∈ Net.execIds [x], ∃ n, x.order = some n ∧ ∃ rest, e = dec n.id ++ 0x2d :: rest) ∧
      (x.before.Telling (x.conn, x.msg) → (Net.execIds [x]).Nodup) := by
  obtain ⟨d, ht, hd, hexec, hother⟩ := h
  have hone : Net.execIds [x] =
      (x.events.filterMap report).filterMap fun body => valueOf body Tag.execID := by
    rw [Net.execIds, reportsOf, List.flatMap_singleton]
  rcases horder : x.order with _ | n
  · -- the answer to a cancel carries none
    have hnone : Net.execIds [x] = [] := by
      rw [hone, List.filterMap_filterMap, List.filterMap_eq_nil_iff]
      intro ev hev
      obtain ⟨res, rfl⟩ := hother horder ev hev
      rw [Server.cancelEvent]
      by_cases hok : res.ok = true
      · rw [if_pos hok]
        rfl
      · rw [if_neg hok]
        rfl
    rw [hnone]
    exact ⟨fun e he => (by cases he), fun _ => List.nodup_nil⟩
  obtain ⟨hlt, d', hex⟩ := hexec n horder
  set fs := (ladderFills x.before.server.engine.algo (d.ladder n.side.book.opposite)
    n.order).flatten with hfs
  have hids : Net.execIds [x] = (dec n.id ++ ascii "-A") ::
      (fs.filter (· ≠ 0)).map fun q => dec n.id ++ ascii "-T" ++ dec q := by
    rw [hone, hex.events, execIds_events, ← qty_orderTrades hex.length_eq, orderTrades, List.map_map,
      List.map_map, List.map_map]
    rfl
  rw [hids]
  constructor
  · intro e he
    refine ⟨n, rfl, ?_⟩
    rcases List.mem_cons.mp he with rfl | he
    · exact ⟨[0x41], rfl⟩
    · obtain ⟨q, -, rfl⟩ := List.mem_map.mp he
      exact ⟨0x54 :: dec q, List.append_assoc ..⟩
  · intro htell
    obtain ⟨hserved, hdistinct⟩ := htell n horder
    exact nodup_execIds_of_qty (nodup_fills ht.rep hlt hserved hdistinct)

/-! ## Runs -/

/-- **ExecIDs are unique** in every run of the server whose messages reuse
no live ClOrdID, stay in range, and bring in orders whose fills are bound
to differ. -/
theorem run_execIds_nodup (algo : MatchAlgo) (reqs : List (Conn × Message))
    (hcount : reqs.length + 1 < 2 ^ 64)
    (hg : Guarded Hub.serve Hub.Identifying (Hub.new algo) reqs) {h : Hub} {outs : List Handling}
    (hrun : run Hub.serve (Hub.new algo) reqs = .ok (h, outs)) : (execIds outs).Nodup := by
  have hall := (guarded_iff_handled hrun).mp hg
  obtain ⟨d, hj⟩ := run_journaled hcount ((guarded_iff_handled hrun).mpr fun x hx => (hall x hx).1)
    hrun
  have hflat : execIds outs = outs.flatMap fun x => execIds [x] := by
    rw [execIds, reportsOf, List.filterMap_flatMap]
    refine List.flatMap_congr fun x _ => ?_
    rw [execIds, reportsOf, List.flatMap_singleton]
  rw [hflat, List.nodup_flatMap]
  refine ⟨fun x hx => (hj.executed x hx).execIds.2 (hall x hx).2, ?_⟩
  -- two messages bring in orders with different ids
  have hids := hj.nodup
  rw [accepted, List.map_filterMap, List.Nodup, List.pairwise_filterMap] at hids
  refine hids.imp_of_mem fun {x y} hx hy hxy e hex hey => ?_
  obtain ⟨n, hn, rest, he⟩ := (hj.executed x hx).execIds.1 e hex
  obtain ⟨n', hn', rest', he'⟩ := (hj.executed y hy).execIds.1 e hey
  refine hxy n.id (by rw [hn]; rfl) n'.id (by rw [hn']; rfl) ?_
  exact (dash_inj (he.symm.trans he')).1

/-- An order that takes three from one level and four of the five at the
next. -/
theorem run_execIds_nodup_two_levels :
    ∃ h outs, run Hub.serve (Hub.new .proRata)
      [(1, orderSingle "A" "2" "100" "3"), (2, orderSingle "B" "2" "101" "5"),
        (3, orderSingle "C" "1" "101" "7")] = .ok (h, outs) ∧
      execIds outs = [ascii "1-A", ascii "2-A", ascii "3-A", ascii "3-T3", ascii "3-T4"] ∧
      (execIds outs).Nodup := by
  obtain ⟨h, outs, hr, hc⟩ := @exists_of_run_check _ _ _ _ Hub.serve
    (fun r => decide (execIds r.2 =
      [ascii "1-A", ascii "2-A", ascii "3-A", ascii "3-T3", ascii "3-T4"])) (Hub.new .proRata)
    [(1, orderSingle "A" "2" "100" "3"), (2, orderSingle "B" "2" "101" "5"),
      (3, orderSingle "C" "1" "101" "7")] (by decide +kernel)
  exact ⟨h, outs, hr, of_decide_eq_true hc,
    run_execIds_nodup .proRata _ (by decide) (by decide +kernel) hr⟩

/-- **Two equal fills of one order share their ExecID.** Two clients offer
five each and a third buys all ten. -/
theorem equal_fills_collide :
    ∃ h outs, run Hub.serve (Hub.new .proRata)
      [(1, orderSingle "A" "2" "100" "5"), (2, orderSingle "B" "2" "100" "5"),
        (3, orderSingle "C" "1" "100" "10")] = .ok (h, outs) ∧
      execIds outs = [ascii "1-A", ascii "2-A", ascii "3-A", ascii "3-T5", ascii "3-T5"] ∧
      ¬ (execIds outs).Nodup := by
  obtain ⟨h, outs, hr, hc⟩ := @exists_of_run_check _ _ _ _ Hub.serve
    (fun r => decide (execIds r.2 =
      [ascii "1-A", ascii "2-A", ascii "3-A", ascii "3-T5", ascii "3-T5"])) (Hub.new .proRata)
    [(1, orderSingle "A" "2" "100" "5"), (2, orderSingle "B" "2" "100" "5"),
      (3, orderSingle "C" "1" "100" "10")] (by decide +kernel)
  have hids := of_decide_eq_true hc
  refine ⟨h, outs, hr, hids, ?_⟩
  rw [hids]
  decide

end Net

end OrderbookFix
