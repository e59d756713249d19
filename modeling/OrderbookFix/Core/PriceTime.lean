import OrderbookFix.Core.Model.PriceTime
import OrderbookFix.Core.Helpers.Levels
/-!
# First come is price-time priority

The walk down the levels, the fills written back order by order and the
sweep that removes what they exhausted come to one pass over a list: the
live orders of the opposite side, best price first and in the order they
were rested. The queue of a level is in that order after every call, a
cancel and a pro-rata fill included, since each call takes orders out of
the queues where they stand and rests at most one, at the end of its
queue.
-/

namespace OrderbookFix

namespace Core

/-! ## The order of rest -/

/-- **The queues are in the order of rest**: the keys of the live orders
are listed, and those of each level come in the order of the list. -/
structure Aged (rested : List IndexKey) (d : Depth) : Prop where
  perm : rested.Perm (d.orders.map Order.key)
  queues : ∀ s, ∀ a ∈ d.ladder s, (a.2.map Order.key).Sublist rested

/-- A level after a call: what stood in the queue in its order, and at
most one order that was not there. -/
def LevelFrom (rested : List IndexKey) (os : List Order) : Prop :=
  ∃ ks new, os.map Order.key = ks ++ new ∧ ks.Sublist rested ∧
    (new = [] ∨ ∃ k, new = [k] ∧ k ∉ rested)

theorem levelFrom_of_sublist {rested : List IndexKey} {os : List Order}
    (h : (os.map Order.key).Sublist rested) : LevelFrom rested os :=
  ⟨_, [], (List.append_nil _).symm, h, .inl rfl⟩

/-- Keys that stay and keys that are new make up those that are live. -/
theorem perm_struck_out {rested live : List IndexKey} (h : rested.Nodup) (h' : live.Nodup) :
    (rested.filter (· ∈ live) ++ live.filter (· ∉ rested)).Perm live := by
  have hstay : (rested.filter (· ∈ live)).Perm (live.filter (· ∈ rested)) := by
    rw [List.perm_ext_iff_of_nodup (h.filter _) (h'.filter _)]
    intro k
    simp [and_comm]
  have hsplit := List.filter_append_perm (fun k => decide (k ∈ rested)) live
  simp only [← decide_not] at hsplit
  exact (hstay.append_right _).trans hsplit

/-- **The order of rest is kept**, with the keys no longer live struck out
and the new one at the end. -/
theorem Aged.next {rested : List IndexKey} {d d' : Depth} (h : Aged rested d)
    (hnd : (d.orders.map Order.key).Nodup) (hnd' : (d'.orders.map Order.key).Nodup)
    (hfrom : ∀ s, ∀ a ∈ d'.ladder s, LevelFrom rested a.2) :
    Aged (rested.filter (· ∈ d'.orders.map Order.key) ++
      (d'.orders.map Order.key).filter (· ∉ rested)) d' where
  perm := perm_struck_out (h.perm.nodup_iff.mpr hnd) hnd'
  queues s a ha := by
    obtain ⟨ks, new, heq, hks, hnew⟩ := hfrom s a ha
    have hlive : ∀ k ∈ a.2.map Order.key, k ∈ d'.orders.map Order.key := by
      intro k hk
      obtain ⟨o, ho, rfl⟩ := List.mem_map.mp hk
      exact List.mem_map_of_mem (mem_orders.mpr ⟨s, mem_ordersOn.mpr ⟨a, ha, ho⟩⟩)
    rw [heq] at hlive ⊢
    refine List.Sublist.append ?_ ?_
    · have hkeep : ks.filter (· ∈ d'.orders.map Order.key) = ks :=
        List.filter_eq_self.mpr fun k hk => decide_eq_true (hlive k (List.mem_append_left _ hk))
      rw [← hkeep]
      exact hks.filter _
    · rcases hnew with rfl | ⟨k, rfl, hk⟩
      · exact List.nil_sublist _
      · refine List.singleton_sublist.mpr (List.mem_filter.mpr ⟨?_, decide_eq_true hk⟩)
        exact hlive k (List.mem_append_right _ (List.mem_singleton_self k))

section Calls

variable {rested : List IndexKey} {d : Depth}

theorem levelFrom_matched (h : Aged rested d) (algo : MatchAlgo) (o : Order) (s : BookSide) :
    ∀ a ∈ (d.matched algo o).ladder s, (a.2.map Order.key).Sublist rested := by
  intro a ha
  rcases o.side.book.opposite.eq_or_ne_of s with rfl | hs
  · rw [Depth.matched, ladder_setLadder] at ha
    obtain ⟨c, hc, rfl⟩ := List.mem_map.mp (List.mem_filter.mp ha).1
    obtain ⟨os, fs, hm, hlen, he⟩ := filledFrom_matchLadder hc
    have hkeys : (c.2.map Order.key).Sublist rested := by
      rw [he, map_fillQueue (fun _ _ => rfl) hlen]
      exact h.queues _ _ hm
    exact (List.filter_sublist.map _).trans hkeys
  · rw [Depth.matched, ladder_setLadder_of_ne hs] at ha
    exact h.queues s a ha

/-- A submit fills the queues where they stand, and rests one order at
most. -/
theorem levelFrom_submit (h : Aged rested d) (algo : MatchAlgo) {o : Order}
    (hk : ∀ r ∈ d.orders, r.key ≠ o.key) (s : BookSide) :
    ∀ a ∈ (d.submit algo o).1.ladder s, LevelFrom rested a.2 := by
  have hmatched := levelFrom_matched h algo o
  have hnew : o.key ∉ rested := by
    rw [h.perm.mem_iff]
    intro hmem
    obtain ⟨r, hr, heq⟩ := List.mem_map.mp hmem
    exact hk r hr heq
  intro a ha
  rw [submit_fst] at ha
  split at ha
  · rcases o.side.book.eq_or_ne_of s with rfl | hs
    · rw [ladder_setLadder] at ha
      rcases mem_restLadder ha with ha | ⟨-, os, hos, hold⟩
      · exact levelFrom_of_sublist (hmatched _ a ha)
      · refine ⟨os.map Order.key, [o.key], ?_, ?_, .inr ⟨_, rfl, hnew⟩⟩
        · rw [hos, List.map_append]
          rfl
        · rcases hold with rfl | hold
          · exact List.nil_sublist _
          · exact hmatched _ _ hold
    · rw [ladder_setLadder_of_ne hs] at ha
      exact levelFrom_of_sublist (hmatched _ a ha)
  · exact levelFrom_of_sublist (hmatched _ a ha)

theorem levelFrom_step (h : Aged rested d) (algo : MatchAlgo) {c : Call}
    (hk : ∀ n, c = .submit n → ∀ r ∈ d.orders, r.key ≠ n.order.key) (s : BookSide) :
    ∀ a ∈ (d.step algo c).1.ladder s, LevelFrom rested a.2 := by
  cases c with
  | submit n => exact levelFrom_submit h algo (hk n rfl) s
  | cancel sid clord =>
    intro a ha
    have hladder : (d.cancel ⟨sid, clord.value⟩).ladder s = dropKey ⟨sid, clord.value⟩ (d.ladder s) := by
      cases s <;> rfl
    rw [Depth.step, hladder] at ha
    obtain ⟨c, hc, rfl⟩ := List.mem_map.mp ha
    exact levelFrom_of_sublist ((List.filter_sublist.map _).trans (h.queues s c hc))
  | setAlgo a => exact fun a ha => levelFrom_of_sublist (h.queues s a ha)

end Calls

/-! ## Runs -/

/-- The clock changes nothing of the engine. -/
theorem Timed.step_engine (t : Timed) (c : Call) :
    t.engine.step c = (t.step c).map fun r => (r.1.engine, r.2.map id) := by
  rw [Timed.step]
  rcases t.engine.step c with f | ⟨e, evs⟩
  · rfl
  · simp [Except.map]

theorem run_engine (t : Timed) (calls : List Call) :
    run Engine.step t.engine calls =
      (run Timed.step t calls).map fun r => (r.1.engine, r.2.map id) := by
  have hmap := @run_map _ _ _ _ Timed.step _ _ _ Engine.step Timed.engine id id
    Timed.step_engine t calls
  rwa [List.map_id] at hmap

/-- **A run keeps the order of rest.** -/
theorem run_aged (algo : MatchAlgo) (calls : List Call)
    (hfresh : Guarded Engine.step Engine.Fresh (Engine.new algo) calls)
    (hsum : submittedQty calls < 2 ^ 63) :
    ∃ t evs, run Timed.step (Timed.new algo) calls = .ok (t, evs) ∧
      ∃ d, Rep t.engine.book d ∧ d.Good ∧ leavesSum d.orders ≤ submittedQty calls ∧
        Aged t.rested d := by
  have hguard : Guarded Timed.step (fun t c => t.engine.Fresh c) (Timed.new algo) calls := by
    refine @Guarded.comap _ _ _ _ _ _ _ _ Timed.engine _ (fun t c t₁ out hs => ?_) _ _ hfresh
    exact ⟨out, by rw [Timed.step_engine, hs]; simp [Except.map]⟩
  refine run_inv_ok (H := fun cs => submittedQty cs < 2 ^ 63)
    (J := fun past _ (t : Timed) => ∃ d, Rep t.engine.book d ∧ d.Good ∧
      leavesSum d.orders ≤ submittedQty past ∧ Aged t.rested d)
    (fun cs cs' h => by rw [submittedQty_append] at h; omega) ?_ ?_ hguard hsum
  · rintro past outs t c ⟨d, hrep, hd, hle, haged⟩ hf hlt
    obtain ⟨e', hs, hrep', hd', hle'⟩ := step_good hrep hd hle hf hlt
    have hkeys : e'.liveKeys = (d.step t.engine.algo c).1.orders.map Order.key := by
      rw [Engine.liveKeys, hrep'.orders_eq]
    refine ⟨_, _, by rw [Timed.step, hs], _, hrep', hd', hle', ?_⟩
    rw [hkeys]
    refine haged.next hrep.nodup_keys hrep'.nodup_keys (levelFrom_step haged _ fun n hn => ?_)
    subst hn
    exact hrep.lookup_eq_none.mp hf
  · refine ⟨Depth.new, rep_new, good_new, Nat.zero_le _, .nil, fun s a ha => ?_⟩
    cases s <;> cases ha

/-! ## The listing -/

section Listing

variable {t : Timed} {d : Depth}

/-- The order of a live key. -/
theorem Rep.order_of_key {b : OrderBook} (h : Rep b d) {o : Order} (ho : o ∈ d.orders) :
    (b.index.lookup o.key).bind b.heap.cells = some o := by
  obtain ⟨p, hp, hcell⟩ := h.exists_ptr ho
  have hlook := (h.index o.key p).mpr ⟨hp, by rw [keyAt, hcell]; rfl⟩
  rw [hlook]
  exact hcell

theorem Rep.orders_of_keys {b : OrderBook} (h : Rep b d) {os : List Order}
    (hos : ∀ o ∈ os, o ∈ d.orders) :
    (os.map Order.key).filterMap (fun k => (b.index.lookup k).bind b.heap.cells) = os := by
  refine filterMap_of_map_some ?_
  rw [List.map_map]
  exact List.map_congr_left fun o ho => h.order_of_key (hos o ho)

theorem arrivals_perm (h : Rep t.engine.book d) (ha : Aged t.rested d) :
    t.arrivals.Perm d.orders := by
  have hperm := ha.perm.filterMap fun k =>
    (t.engine.book.index.lookup k).bind t.engine.book.heap.cells
  rwa [h.orders_of_keys fun o ho => ho] at hperm

theorem filter_side (h : d.Placed) (s : BookSide) :
    (d.orders.filter fun o => o.side.book = s) = d.ordersOn s := by
  have hon : ∀ u, ((d.ordersOn u).filter fun o => o.side.book = s) =
      if u = s then d.ordersOn u else [] := by
    intro u
    split
    · rename_i hu
      exact List.filter_eq_self.mpr fun o ho => decide_eq_true ((h.side u o ho).trans hu)
    · rename_i hu
      exact List.filter_eq_nil_iff.mpr fun o ho => by simpa [h.side u o ho] using hu
  rw [Depth.orders, List.filter_append, hon, hon]
  cases s
  · simp
  · simp

/-- A level's queue, out of the arrivals. -/
theorem arrivals_at (h : Rep t.engine.book d) (ha : Aged t.rested d) (s : BookSide) (px : Price) :
    ((t.arrivals.filter fun o => o.side.book = s).filter fun o => o.price = px) =
      (d.ordersOn s).filter fun o => o.price = px := by
  have hsub : ((d.ordersOn s).filter fun o => o.price = px).Sublist t.arrivals := by
    by_cases hex : ∃ a ∈ d.ladder s, a.1 = px
    · obtain ⟨⟨px', os⟩, hmem, rfl⟩ := hex
      obtain ⟨pre, post, hsplit⟩ := List.append_of_mem hmem
      rw [h.toPlaced.filter_price hsplit]
      have hkeys := (ha.queues s _ hmem).filterMap fun k =>
        (t.engine.book.index.lookup k).bind t.engine.book.heap.cells
      rwa [h.orders_of_keys fun o ho => mem_orders.mpr ⟨s, mem_ordersOn.mpr ⟨_, hmem, ho⟩⟩] at hkeys
    · rw [Depth.ordersOn, filter_price_of_ne (h.toPlaced.priced s) fun a ha hpx => hex ⟨a, ha, hpx⟩]
      exact List.nil_sublist _
  have hsub' := (hsub.filter fun o => o.side.book = s).filter fun o => o.price = px
  have hself : ∀ o ∈ (d.ordersOn s).filter (fun o => o.price = px),
      o.side.book = s ∧ o.price = px := fun o ho =>
    ⟨h.toPlaced.side s o (List.mem_filter.mp ho).1, by simpa using (List.mem_filter.mp ho).2⟩
  rw [List.filter_eq_self.mpr fun o ho => decide_eq_true (hself o ho).1,
    List.filter_eq_self.mpr fun o ho => decide_eq_true (hself o ho).2] at hsub'
  refine (hsub'.eq_of_length ?_).symm
  rw [← filter_side h.toPlaced s]
  exact ((((arrivals_perm h ha).filter _).filter _).length_eq).symm

/-- **The ladder is the listing.** -/
theorem priceTime_arrivals (h : Rep t.engine.book d) (ha : Aged t.rested d) (s : BookSide) :
    priceTime s t.arrivals = d.ordersOn s :=
  stableSort_eq s.before Order.price
    (Ladder.keySorted (h.toPlaced.sorted s) (h.toPlaced.priced s)) (arrivals_at h ha s)

end Listing

/-! ## One pass -/

theorem consume_eq {aggr : Order} {left : Quantity} {os : List Order} {fs : List Quantity}
    (h : fs.map UInt64.toNat = Alloc.greedy left.toNat (os.map fun o => o.leavesQty.toNat)) :
    consume aggr left os =
      ⟨orderTrades aggr os fs, (fillQueue os fs).filter fun o => o.leavesQty ≠ 0, left - fs.sum⟩ := by
  induction os generalizing left fs with
  | nil =>
    obtain rfl := List.map_eq_nil_iff.mp h
    simp [consume, orderTrades, fillQueue]
  | cons o os ih =>
    rw [List.map_cons, Alloc.greedy] at h
    obtain ⟨f, fs, rfl, hf, hfs⟩ := List.map_eq_cons_iff.mp h
    have hmin : f = min left o.leavesQty := by
      rw [← UInt64.toNat_inj, UInt64.toNat_min, hf]
    have hle : f ≤ left := by
      rw [UInt64.le_iff_toNat_le, hf]
      exact Nat.min_le_left ..
    -- The subtraction does not wrap: what the order takes is at most what is left.
    have hnext : (left - f).toNat = left.toNat - o.leavesQty.toNat := by
      rw [UInt64.toNat_sub_of_le _ _ hle, hf]
      omega
    have hrest := @ih (left - f) fs (by rw [hnext]; exact hfs)
    have hsum : left - f - fs.sum = left - (f :: fs).sum := by
      rw [List.sum_cons]
      grind
    rw [consume, ← hmin, hrest, hsum]
    simp only [Consumed.mk.injEq, and_true]
    constructor
    · by_cases hz : f = 0
      · simp [orderTrades, hz]
      · simp [orderTrades, hz]
    · by_cases hz : o.leavesQty - f = 0
      · simp [fillQueue, hz]
      · simp [fillQueue, hz]

/-- A list whose items that pass come first. -/
theorem eq_filter_append {α : Type*} {p : α → Bool} {l : List α}
    (h : l.Pairwise fun a b => p b = true → p a = true) :
    l = l.filter p ++ l.filter fun a => !p a := by
  induction l with
  | nil => rfl
  | cons a l ih =>
    obtain ⟨hhead, htail⟩ := List.pairwise_cons.mp h
    by_cases hp : p a = true
    · rw [List.filter_cons_of_pos hp, List.filter_cons_of_neg (by simpa using hp), List.cons_append,
        ← ih htail]
    · have hnone : l.filter p = [] := List.filter_eq_nil_iff.mpr fun b hb hpb => hp (hhead b hb hpb)
      have hall : (l.filter fun a => !p a) = l := by
        have := ih htail
        rw [hnone, List.nil_append] at this
        exact this.symm
      rw [List.filter_cons_of_neg hp, List.filter_cons_of_pos (by simpa using hp), hnone, hall,
        List.nil_append]

/-- What an order crosses comes first. -/
theorem crossing_first {d : Depth} (h : d.Placed) (o : Order) :
    d.ordersOn o.side.book.opposite =
      ((d.ordersOn o.side.book.opposite).filter fun r => crosses o.side o.price r.price) ++
        (d.ordersOn o.side.book.opposite).filter fun r => !crosses o.side o.price r.price := by
  refine eq_filter_append ?_
  refine (Ladder.keySorted (h.sorted _) (h.priced _)).imp fun {a b} hab hb => ?_
  rcases trichotomous_of o.side.book.opposite.before a.price b.price with hlt | heq | hgt
  · exact crosses_of_before hlt hb
  · rw [heq]
    exact hb
  · exact absurd hgt hab

/-- **First come fills, in one pass** over what the order crosses. -/
theorem consume_fills {d : Depth} {o : Order} {fs : List Quantity} (h : d.Placed) (hd : d.Good)
    (hfs : fs.map UInt64.toNat = Alloc.greedy o.leavesQty.toNat
      ((d.ordersOn o.side.book.opposite).map (want o))) :
    let listed := d.ordersOn o.side.book.opposite
    let matched := consume o o.leavesQty (listed.filter fun r => crosses o.side o.price r.price)
    orderTrades o listed fs = matched.trades ∧
      (fillQueue listed fs).filter (fun r => r.leavesQty ≠ 0) =
        matched.orders ++ listed.filter (fun r => !crosses o.side o.price r.price) ∧
      o.leavesQty - fs.sum = matched.left := by
  intro listed matched
  have hsplit : listed = _ := crossing_first h o
  set l₁ := listed.filter fun r => crosses o.side o.price r.price with hl₁
  set l₂ := listed.filter fun r => !crosses o.side o.price r.price with hl₂
  have hw₁ : l₁.map (want o) = l₁.map fun r => r.leavesQty.toNat :=
    List.map_congr_left fun r hr => if_pos (List.mem_filter.mp hr).2
  have hw₂ : l₂.map (want o) = l₂.map fun _ => 0 := by
    refine List.map_congr_left fun r hr => if_neg ?_
    have := (List.mem_filter.mp hr).2
    simpa using this
  change fs.map UInt64.toNat = Alloc.greedy _ (listed.map (want o)) at hfs
  rw [hsplit, List.map_append, hw₁, hw₂, Alloc.greedy_append, Alloc.greedy_none] at hfs
  obtain ⟨fs₁, fs₂, rfl, hfs₁, hfs₂⟩ := List.map_eq_append_iff.mp hfs
  have hconsume : matched = _ := consume_eq hfs₁
  -- what is not crossed is not filled, and stays as it is
  have hnone : fs₂ = l₂.map fun _ => 0 := by
    refine List.map_injective_iff.mpr (fun a b => UInt64.toNat_inj.mp) ?_
    rw [hfs₂, List.map_map]
    rfl
  have hlen : fs₁.length = l₁.length := by
    have := congrArg List.length hfs₁
    rwa [List.length_map, (Alloc.isAlloc_greedy _ _).length_eq, List.length_map] at this
  have hopen : l₂.filter (fun r => r.leavesQty ≠ 0) = l₂ := by
    refine List.filter_eq_self.mpr fun r hr => decide_eq_true (hd.live r ?_).1
    exact mem_orders.mpr ⟨_, (List.mem_filter.mp hr).1⟩
  have hsum : fs₂.sum = 0 := sum_eq_zero fun f hf => by
    rw [hnone] at hf
    obtain ⟨r, -, rfl⟩ := List.mem_map.mp hf
    rfl
  rw [hsplit, hconsume]
  refine ⟨?_, ?_, ?_⟩
  · have htrades : orderTrades o l₂ (l₂.map fun _ => 0) = [] := by
      refine List.map_eq_nil_iff.mpr (List.filter_eq_nil_iff.mpr fun x hx => ?_)
      obtain ⟨r, -, hr⟩ := List.mem_map.mp (List.of_mem_zip hx).2
      simp [← hr]
    rw [orderTrades_append hlen, hnone, htrades, List.append_nil]
  · rw [fillQueue, List.zipWith_append hlen.symm, List.filter_append, ← fillQueue, ← fillQueue,
      hnone, fillQueue_zero, hopen]
  · rw [List.sum_append, hsum, UInt64.add_zero]

/-- **A submit by price and time**: one Ack and the trades of one pass
over the opposite side, listed by price and time, as far as the order
crosses it. The opposite side is then that list less what the pass used
up. The order's own side is as it was, but for what is left of the order,
at the end of its price's queue. -/
def MatchesByPriceTime (t : Timed) (o : Order) : Prop :=
  let listed := priceTime o.side.book.opposite t.arrivals
  let matched := consume o o.leavesQty (listed.filter fun r => crosses o.side o.price r.price)
  ∃ b, submit .fifo t.engine.book o =
      .ok (b, .ack ⟨o.id, o.clordId⟩ :: matched.trades.map .trade) ∧
    b.ordersOn o.side.book.opposite =
      matched.orders ++ listed.filter (fun r => !crosses o.side o.price r.price) ∧
    ∀ px, b.queueAt o.side.book px =
      t.engine.book.queueAt o.side.book px ++
        if px = o.price ∧ 0 < matched.left then [some { o with leavesQty := matched.left }]
        else []

/-- **First come is price-time priority**, after any run that reuses no
live key and hands in less than half the word size, for any order under a
free key. -/
theorem submit_fifo_priceTime (algo : MatchAlgo) (calls : List Call)
    (hfresh : Guarded Engine.step Engine.Fresh (Engine.new algo) calls)
    (hsum : submittedQty calls < 2 ^ 63) :
    ∃ t evs, run Timed.step (Timed.new algo) calls = .ok (t, evs) ∧
      run Engine.step (Engine.new algo) calls = .ok (t.engine, evs) ∧
      ∀ o : Order, t.engine.book.find o.session o.clordId = none → MatchesByPriceTime t o := by
  obtain ⟨t, evs, hr, d, hrep, hd, hle, haged⟩ := run_aged algo calls hfresh hsum
  refine ⟨t, evs, hr, ?_, fun o hk => ?_⟩
  · have hrun : run Engine.step (Engine.new algo) calls = _ := run_engine (Timed.new algo) calls
    rw [hr] at hrun
    simpa [Except.map] using hrun
  rw [MatchesByPriceTime, priceTime_arrivals hrep haged]
  set listed := d.ordersOn o.side.book.opposite with hlisted
  set matched := consume o o.leavesQty
    (listed.filter fun r => crosses o.side o.price r.price) with hmatched
  have hplaced := hrep.toPlaced
  have hlt : ∀ a ∈ d.ladder o.side.book.opposite,
      crosses o.side o.price a.1 = true → leavesSum a.2 < 2 ^ 63 := fun a ha _ => by
    have := leavesSum_le_of_mem ha
    omega
  -- Under FIFO the ladder is filled greedily, level after level, which is how `consume` walks it.
  have hgreedy := @toNat_ladderFills .fifo o (d.ladder o.side.book.opposite)
    (fun a ha hc => Nat.lt_trans (hlt a ha hc) (by decide)) (.inl rfl)
  rw [flatten_demand (hplaced.priced _)] at hgreedy
  obtain ⟨htrades, horders, hleft⟩ := consume_fills hplaced hd hgreedy
  obtain ⟨b, hb, hsub⟩ := @submit_fills .fifo _ d o hrep hlt _ rfl
  set fs := (ladderFills .fifo (d.ladder o.side.book.opposite) o).flatten with hfs
  have hopp := @ordersOn_matched .fifo d o hplaced fs rfl
  have hown : ∀ px, b.queueAt o.side.book px = t.engine.book.queueAt o.side.book px := fun px => by
    rw [hb.queueAt_eq, hrep.queueAt_eq, ordersOn_matched_own]
  have hres : o.fill fs.sum = { o with leavesQty := matched.left } := by
    rw [Order.fill, hleft]
  rw [htrades, hres] at hsub
  set rest : Order := { o with leavesQty := matched.left } with hrest
  have hkey : b.index.lookup rest.key = none := @lookup_of_matched .fifo _ b d o hrep hk hb
  -- The opposite side is untouched by the resting remainder; the own side gains it at the back.
  refine ⟨_, hsub, ?_, fun px => ?_⟩
  · rw [← horders, ← hopp]
    split
    · have hne : o.side.book.opposite ≠ rest.side.book := (book_opposite_ne _).symm
      rw [(hb.rest hkey).ordersOn_eq, Depth.ordersOn, ladder_setLadder_of_ne hne]
      rfl
    · exact hb.ordersOn_eq _
  · by_cases hpos : 0 < matched.left
    · rw [if_pos (show 0 < rest.leavesQty from hpos), hb.queueAt_rest, hown, if_pos hkey]
      simp only [hpos, and_true, hrest, true_and]
    · rw [if_neg (show ¬ 0 < rest.leavesQty from hpos), hown, if_neg fun h => hpos h.2,
        List.append_nil]

/-- Sells at two prices, two of them cut down by a pro-rata fill and one
cancelled. -/
def twoPrices : List Call :=
  [.submit ⟨1, 1, ⟨ascii "A"⟩, .sell, 101, 5⟩, .submit ⟨2, 2, ⟨ascii "B"⟩, .sell, 100, 5⟩,
    .submit ⟨3, 3, ⟨ascii "C"⟩, .sell, 100, 5⟩, .submit ⟨4, 4, ⟨ascii "D"⟩, .buy, 100, 4⟩,
    .submit ⟨5, 5, ⟨ascii "E"⟩, .sell, 100, 9⟩, .cancel 5 ⟨ascii "E"⟩]

theorem submit_fifo_priceTime_two_prices :
    ∃ t evs, run Timed.step (Timed.new .proRata) twoPrices = .ok (t, evs) ∧
      run Engine.step (Engine.new .proRata) twoPrices = .ok (t.engine, evs) ∧
      ∀ o : Order, t.engine.book.find o.session o.clordId = none → MatchesByPriceTime t o :=
  submit_fifo_priceTime _ _ (by decide +kernel) (by decide)

end Core

end OrderbookFix
