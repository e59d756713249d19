import OrderbookFix.Core.Invariants
/-!
# Conservation of quantity

Every unit an order was handed in with is, at any point of a run, in a
trade that names it, on the book, or in what a cancel took off. The
account is kept over the live orders and the cancelled ones together: a
cancel only moves an order from one to the other, and a submit moves
quantity from both sides of its trades into the journal.
-/

namespace OrderbookFix

namespace Core

/-! ## Sums by order -/

/-- The leaves of the orders with an id. -/
def leavesOf (os : List Order) (id : OrderId) : ℕ := leavesSum (os.filter fun o => o.id = id)

/-- The fills of the orders with an id. -/
def fillsOf (l : List (Order × Quantity)) (id : OrderId) : ℕ :=
  ((l.filter fun x => x.1.id = id).map fun x => x.2.toNat).sum

theorem leavesOf_append {os os' : List Order} {id : OrderId} :
    leavesOf (os ++ os') id = leavesOf os id + leavesOf os' id := by
  rw [leavesOf, List.filter_append, leavesSum_append]
  rfl

theorem leavesOf_perm {os os' : List Order} (h : os.Perm os') (id : OrderId) :
    leavesOf os id = leavesOf os' id := leavesSum_perm (h.filter _)

theorem leavesOf_of_notMem {os : List Order} {id : OrderId} (h : id ∉ os.map Order.id) :
    leavesOf os id = 0 := by
  have hnil : (os.filter fun o => o.id = id) = [] := by
    rw [List.filter_eq_nil_iff]
    intro o ho hid
    exact h (List.mem_map.mpr ⟨o, ho, by simpa using hid⟩)
  rw [leavesOf, hnil]
  rfl

theorem leavesOf_swept {os : List Order} {id : OrderId} :
    leavesOf (os.filter fun o => o.leavesQty ≠ 0) id = leavesOf os id := by
  rw [leavesOf, List.filter_comm, leavesSum_filter, leavesOf]

theorem leavesOf_fillQueue {os : List Order} {fs : List Quantity} {id : OrderId}
    (h : List.Forall₂ (fun o f => f.toNat ≤ o.leavesQty.toNat) os fs) :
    leavesOf (fillQueue os fs) id + fillsOf (os.zip fs) id = leavesOf os id := by
  induction h with
  | nil => rfl
  | @cons o f os fs hle _ ih =>
    have hq : fillQueue (o :: os) (f :: fs) = o.fill f :: fillQueue os fs := rfl
    have hid : (o.fill f).id = o.id := rfl
    rw [leavesOf, leavesOf, fillsOf] at ih
    rw [leavesOf, leavesOf, fillsOf, hq, List.zip_cons_cons, List.filter_cons, List.filter_cons,
      List.filter_cons, hid]
    by_cases ho : o.id = id
    · simp only [ho, decide_true, if_true, leavesSum_cons, List.map_cons, List.sum_cons,
        Order.leavesQty_fill]
      rw [toNat_sub_of_le hle]
      omega
    · simp only [ho, decide_false, Bool.false_eq_true, if_false]
      exact ih

/-- In an account with distinct ids, the leaves of an id are those of the
first order found. -/
theorem leavesOf_eq_find? {os : List Order} {id : OrderId} (h : (os.map Order.id).Nodup) :
    leavesOf os id =
      match os.find? fun o => o.id = id with
      | some o => o.leavesQty.toNat
      | none => 0 := by
  induction os with
  | nil => rfl
  | cons o os ih =>
    rw [List.map_cons, List.nodup_cons] at h
    rw [leavesOf, List.filter_cons, List.find?_cons]
    by_cases ho : o.id = id
    · have hrest := @leavesOf_of_notMem os id (ho ▸ h.1)
      rw [leavesOf] at hrest
      simp only [ho, decide_true, if_true, leavesSum_cons]
      omega
    · simp only [ho, decide_false, Bool.false_eq_true, if_false]
      exact ih h.2

/-! ## The trades of a submit -/

section Trades

variable {aggr : Order} {os : List Order} {fs : List Quantity} {id : OrderId}

theorem mem_orderTrades {t : Trade} (h : t ∈ orderTrades aggr os fs) :
    ∃ x ∈ os.zip fs, x.2 ≠ 0 ∧ t = trade aggr x.1 x.1.price x.2 := by
  obtain ⟨x, hx, rfl⟩ := List.mem_map.mp h
  obtain ⟨hmem, hne⟩ := List.mem_filter.mp hx
  exact ⟨x, hmem, by simpa using hne, rfl⟩

theorem restingQty_orderTrades :
    restingQty (orderTrades aggr os fs) id = fillsOf (os.zip fs) id := by
  rw [orderTrades]
  induction os.zip fs with
  | nil => rfl
  | cons x l ih =>
    rw [fillsOf, List.filter_cons, List.filter_cons]
    rw [restingQty, fillsOf] at ih
    by_cases hf : x.2 = 0
    · rw [if_neg (by simpa using hf), restingQty, ih]
      split
      · rw [List.map_cons, List.sum_cons, hf]
        exact (Nat.zero_add _).symm
      · rfl
    · rw [if_pos (by simpa using hf), restingQty, List.map_cons, List.filter_cons]
      have hid : (trade aggr x.1 x.1.price x.2).restingId = x.1.id := rfl
      rw [hid]
      split
      · rw [List.map_cons, List.sum_cons, List.map_cons, List.sum_cons, ih]
        rfl
      · exact ih

theorem aggressorQty_orderTrades_of_ne (h : aggr.id ≠ id) :
    aggressorQty (orderTrades aggr os fs) id = 0 := by
  rw [aggressorQty, List.filter_eq_nil_iff.mpr]
  · rfl
  · intro t ht
    obtain ⟨x, -, -, rfl⟩ := mem_orderTrades ht
    exact fun hc => h (of_decide_eq_true hc)

theorem aggressorQty_orderTrades (h : fs.length = os.length) :
    aggressorQty (orderTrades aggr os fs) aggr.id = (fs.map UInt64.toNat).sum := by
  have hall : ((orderTrades aggr os fs).filter fun t => t.aggressorId = aggr.id) =
      orderTrades aggr os fs := by
    rw [List.filter_eq_self]
    intro t ht
    obtain ⟨x, -, -, rfl⟩ := mem_orderTrades ht
    exact decide_eq_true rfl
  have hzip : (os.zip fs).map Prod.snd = fs := List.map_snd_zip (by omega)
  rw [aggressorQty, hall, orderTrades, List.map_map]
  conv_rhs => rw [← hzip]
  induction os.zip fs with
  | nil => rfl
  | cons x l ih =>
    rw [List.filter_cons, List.map_cons, List.map_cons, List.sum_cons]
    by_cases hf : x.2 = 0
    · rw [if_neg (by simpa using hf), ih, hf]
      exact (Nat.zero_add _).symm
    · rw [if_pos (by simpa using hf), List.map_cons, List.sum_cons, ih]
      rfl

/-- One trade at most with each resting order. -/
theorem nodup_orderTrades (h : (os.map Order.id).Nodup) (hlen : fs.length = os.length) :
    ((orderTrades aggr os fs).map fun t => (t.aggressorId, t.restingId)).Nodup := by
  have hsub : (((os.zip fs).filter fun x => x.2 ≠ 0).map fun x => x.1.id).Sublist
      (os.map Order.id) := by
    refine (List.filter_sublist.map _).trans ?_
    have hz : ((os.zip fs).map fun x => x.1.id) = ((os.zip fs).map Prod.fst).map Order.id := by
      rw [List.map_map]
      rfl
    rw [hz, List.map_fst_zip (by omega)]
  rw [orderTrades, List.map_map]
  have hpair : ((fun t : Trade => (t.aggressorId, t.restingId)) ∘
      fun x : Order × Quantity => trade aggr x.1 x.1.price x.2) =
      (fun r => (aggr.id, r)) ∘ fun x => x.1.id := rfl
  rw [hpair, ← List.map_map]
  exact (h.sublist hsub).map fun _ _ hxy => (Prod.mk.inj hxy).2

end Trades

/-! ## The orders after a submit -/

section Residual

variable {o r : Order} {fs : List Quantity} {id : OrderId}

theorem id_residual (h : r ∈ residual o fs) : r.id = o.id := by
  rw [residual] at h
  split at h
  · obtain rfl := List.mem_singleton.mp h
    rfl
  · cases h

theorem nodup_residual : ((residual o fs).map Order.id).Nodup := by
  rw [residual]
  split
  · exact List.nodup_singleton _
  · exact List.nodup_nil

theorem leavesOf_residual : leavesOf (residual o fs) o.id = leavesSum (residual o fs) := by
  rw [leavesOf, List.filter_eq_self.mpr fun r hr => decide_eq_true (id_residual hr)]

theorem leavesOf_residual_of_ne (h : o.id ≠ id) : leavesOf (residual o fs) id = 0 := by
  refine leavesOf_of_notMem fun hmem => ?_
  obtain ⟨r, hr, hid⟩ := List.mem_map.mp hmem
  exact h ((id_residual hr).symm.trans hid)

end Residual

/-- **The orders that survive a submit**: those of its own side, and those
of the other that it did not exhaust. -/
def Depth.survivors (d : Depth) (o : Order) (fs : List Quantity) : List Order :=
  d.ordersOn o.side.book ++
    (fillQueue (d.ordersOn o.side.book.opposite) fs).filter fun r => r.leavesQty ≠ 0

namespace Execution

variable {d d' : Depth} {o : Order} {fs : List Quantity} {evs : EventList} {cs : List Order}

/-- After a submit there are the survivors, and what is left of its order. -/
theorem perm_survivors (h : Execution d o fs d' evs) (cs : List Order) :
    (d'.orders ++ cs).Perm (residual o fs ++ (d.survivors o fs ++ cs)) := by
  refine ((orders_perm o.side.book).append_right _).trans ?_
  rw [h.opposite, Depth.survivors, ← List.append_assoc, ← List.append_assoc]
  exact (h.own.append_right _).append_right _

/-- The survivors have the ids they had. -/
theorem ids_survivors (h : Execution d o fs d' evs) :
    ((d.survivors o fs ++ cs).map Order.id).Sublist
      ((d.ordersOn o.side.book ++ d.ordersOn o.side.book.opposite ++ cs).map Order.id) := by
  rw [Depth.survivors, List.map_append, List.map_append, List.map_append, List.map_append]
  refine ((List.Sublist.refl _).append ?_).append (List.Sublist.refl _)
  rw [← map_fillQueue (g := Order.id) (fun _ _ => rfl) h.length_eq]
  exact List.filter_sublist.map _

theorem nodup_survivors (h : Execution d o fs d' evs)
    (hids : ((d.orders ++ cs).map Order.id).Nodup) :
    ((d.survivors o fs ++ cs).map Order.id).Nodup := by
  have hperm := ((orders_perm (d := d) o.side.book).append_right cs).map Order.id
  exact (hperm.nodup_iff.mp hids).sublist h.ids_survivors

theorem mem_ids_survivors (h : Execution d o fs d' evs) {id : OrderId}
    (hmem : id ∈ (d.survivors o fs ++ cs).map Order.id) : id ∈ (d.orders ++ cs).map Order.id := by
  have hperm := ((orders_perm (d := d) o.side.book).append_right cs).map Order.id
  exact hperm.mem_iff.mpr (h.ids_survivors.subset hmem)

/-- What an order lost by a submit is in its fills. -/
theorem leavesOf_survivors (h : Execution d o fs d' evs) (id : OrderId) :
    leavesOf (d.survivors o fs) id + fillsOf ((d.ordersOn o.side.book.opposite).zip fs) id =
      leavesOf d.orders id := by
  have hfill := @leavesOf_fillQueue (d.ordersOn o.side.book.opposite) fs id h.fill_le
  rw [leavesOf_perm (orders_perm o.side.book), leavesOf_append, Depth.survivors, leavesOf_append,
    leavesOf_swept]
  omega

end Execution

/-! ## The account -/

/-- **The account of a run**: over the live orders and the cancelled ones
together, what the journal and the book say of every order handed in. -/
structure Account (past : List Call) (rs : List Record) (d : Depth) : Prop where
  ids : ((d.orders ++ cancelledIn rs).map Order.id).Nodup
  known : ∀ o ∈ d.orders ++ cancelledIn rs, o.id ∈ (submitted past).map NewOrder.id
  trades : ∀ t ∈ tradesIn rs, 0 < t.qty ∧ t.aggressorId ∈ (submitted past).map NewOrder.id ∧
    t.restingId ∈ (submitted past).map NewOrder.id
  pairs : ((tradesIn rs).map fun t => (t.aggressorId, t.restingId)).Nodup
  conserved : ∀ n ∈ submitted past, n.qty.toNat = aggressorQty (tradesIn rs) n.id +
    restingQty (tradesIn rs) n.id + leavesOf (d.orders ++ cancelledIn rs) n.id

theorem tradesIn_append {rs rs' : List Record} :
    tradesIn (rs ++ rs') = tradesIn rs ++ tradesIn rs' := List.filterMap_append ..

theorem cancelledIn_append {rs rs' : List Record} :
    cancelledIn (rs ++ rs') = cancelledIn rs ++ cancelledIn rs' := List.filterMap_append ..

theorem aggressorQty_append {ts ts' : List Trade} {id : OrderId} :
    aggressorQty (ts ++ ts') id = aggressorQty ts id + aggressorQty ts' id := by
  simp [aggressorQty]

theorem restingQty_append {ts ts' : List Trade} {id : OrderId} :
    restingQty (ts ++ ts') id = restingQty ts id + restingQty ts' id := by
  simp [restingQty]

theorem aggressorQty_of_ne {ts : List Trade} {id : OrderId} (h : ∀ t ∈ ts, t.aggressorId ≠ id) :
    aggressorQty ts id = 0 := by
  rw [aggressorQty, List.filter_eq_nil_iff.mpr]
  · rfl
  · exact fun t ht hc => h t ht (of_decide_eq_true hc)

theorem restingQty_of_ne {ts : List Trade} {id : OrderId} (h : ∀ t ∈ ts, t.restingId ≠ id) :
    restingQty ts id = 0 := by
  rw [restingQty, List.filter_eq_nil_iff.mpr]
  · rfl
  · exact fun t ht hc => h t ht (of_decide_eq_true hc)

/-- The lines a submit adds hold its trades and no cancel. -/
theorem tradesIn_events {a : Ack} {ts : List Trade} :
    tradesIn ((Event.ack a :: ts.map .trade).map .event) = ts := by
  rw [tradesIn, List.map_cons, List.filterMap_cons, List.map_map, List.filterMap_map]
  exact List.filterMap_some

theorem cancelledIn_events {evs : EventList} : cancelledIn (evs.map .event) = [] := by
  rw [cancelledIn, List.filterMap_map, List.filterMap_eq_nil_iff]
  exact fun _ _ => rfl

/-- Orders with a key each, less the one of a key. -/
theorem perm_cons_filter_key {os : List Order} {o : Order} (h : (os.map Order.key).Nodup)
    (ho : o ∈ os) : os.Perm (o :: os.filter fun x => x.key ≠ o.key) := by
  have hfilter : (os.filter fun x => x.key ≠ o.key) = os.erase o := by
    rw [(List.Nodup.of_map _ h).erase_eq_filter]
    refine List.filter_congr fun x hx => ?_
    have hinj := List.inj_on_of_nodup_map h hx ho
    by_cases hxo : x = o
    · simp [hxo]
    · have hkey : x.key ≠ o.key := fun hc => hxo (hinj hc)
      simp [hxo, hkey]
  rw [hfilter]
  exact List.perm_cons_erase ho

namespace Account

variable {past : List Call} {rs : List Record} {d d' : Depth}

theorem new : Account [] [] Depth.new where
  ids := List.nodup_nil
  known o ho := by cases ho
  trades t ht := by cases ht
  pairs := List.nodup_nil
  conserved n hn := by cases hn

/-- An account passes to a book with the same orders, live and cancelled
together, where nothing was traded or handed in. -/
theorem of_perm (h : Account past rs d) {past' : List Call} {rs' : List Record}
    (hpast : submitted past' = submitted past) (htrades : tradesIn rs' = tradesIn rs)
    (hperm : (d'.orders ++ cancelledIn rs').Perm (d.orders ++ cancelledIn rs)) :
    Account past' rs' d' where
  ids := (hperm.map _).nodup_iff.mpr h.ids
  known o ho := by
    rw [hpast]
    exact h.known o (hperm.mem_iff.mp ho)
  trades t ht := by
    rw [hpast]
    exact h.trades t (htrades ▸ ht)
  pairs := by
    rw [htrades]
    exact h.pairs
  conserved n hn := by
    rw [htrades, leavesOf_perm hperm]
    exact h.conserved n (hpast ▸ hn)

section Submit

variable {n : NewOrder} {fs : List Quantity} {evs : EventList}

/-- An order of the opposite side was handed in. -/
theorem known_opposite (h : Account past rs d) {o r : Order}
    (hr : r ∈ d.ordersOn o.side.book.opposite) : r.id ∈ (submitted past).map NewOrder.id := by
  refine h.known r (List.mem_append_left _ ((orders_perm o.side.book).mem_iff.mpr ?_))
  exact List.mem_append_right _ hr

/-- No order that survives has a new id. -/
theorem new_notMem (h : Account past rs d) (hex : Execution d n.order fs d' evs)
    (hnew : n.id ∉ (submitted past).map NewOrder.id) :
    n.id ∉ (d.survivors n.order fs ++ cancelledIn rs).map Order.id := by
  intro hmem
  obtain ⟨o, ho, hid⟩ := List.mem_map.mp (hex.mem_ids_survivors hmem)
  exact hnew (hid ▸ h.known o ho)

/-- An earlier order: what it lost in a submit is in its new trades. -/
theorem conserved_earlier (h : Account past rs d) (hex : Execution d n.order fs d' evs)
    {m : NewOrder} (hm : m ∈ submitted past) (hne : n.id ≠ m.id) :
    m.qty.toNat =
      aggressorQty (tradesIn rs ++ orderTrades n.order (d.ordersOn n.order.side.book.opposite) fs)
        m.id +
      restingQty (tradesIn rs ++ orderTrades n.order (d.ordersOn n.order.side.book.opposite) fs)
        m.id + leavesOf (d'.orders ++ cancelledIn rs) m.id := by
  have hold := h.conserved m hm
  have hlost := hex.leavesOf_survivors m.id
  rw [leavesOf_append] at hold
  rw [aggressorQty_append, restingQty_append, restingQty_orderTrades,
    aggressorQty_orderTrades_of_ne hne, leavesOf_perm (hex.perm_survivors _), leavesOf_append,
    leavesOf_append, leavesOf_residual_of_ne hne]
  omega

/-- The order itself: traded in its submit as the aggressor, or left to
rest. -/
theorem conserved_new (h : Account past rs d) (hex : Execution d n.order fs d' evs)
    (hnew : n.id ∉ (submitted past).map NewOrder.id) :
    n.qty.toNat =
      aggressorQty (tradesIn rs ++ orderTrades n.order (d.ordersOn n.order.side.book.opposite) fs)
        n.id +
      restingQty (tradesIn rs ++ orderTrades n.order (d.ordersOn n.order.side.book.opposite) fs)
        n.id + leavesOf (d'.orders ++ cancelledIn rs) n.id := by
  have hnotrade : aggressorQty (tradesIn rs) n.id = 0 :=
    aggressorQty_of_ne fun t ht hc => hnew (hc ▸ (h.trades t ht).2.1)
  have hnorest : restingQty (tradesIn rs) n.id = 0 :=
    restingQty_of_ne fun t ht hc => hnew (hc ▸ (h.trades t ht).2.2)
  have hnofill : restingQty (orderTrades n.order (d.ordersOn n.order.side.book.opposite) fs)
      n.id = 0 := by
    refine restingQty_of_ne fun t ht hc => ?_
    obtain ⟨x, hx, -, rfl⟩ := mem_orderTrades ht
    exact hnew (hc ▸ h.known_opposite (List.of_mem_zip hx).1)
  have hagg : aggressorQty (orderTrades n.order (d.ordersOn n.order.side.book.opposite) fs) n.id =
      (fs.map UInt64.toNat).sum := aggressorQty_orderTrades hex.length_eq
  have hres : leavesOf (residual n.order fs) n.id = leavesSum (residual n.order fs) :=
    leavesOf_residual
  have hsplit := hex.leavesSum_residual
  have hqty : n.order.leavesQty.toNat = n.qty.toNat := rfl
  rw [aggressorQty_append, restingQty_append, leavesOf_perm (hex.perm_survivors _),
    leavesOf_append, leavesOf_of_notMem (h.new_notMem hex hnew), hres, hagg, hnotrade, hnorest,
    hnofill]
  omega

/-- **A submit keeps the account**, its id being new. -/
theorem submit (h : Account past rs d) (hex : Execution d n.order fs d' evs)
    (hnew : n.id ∉ (submitted past).map NewOrder.id) :
    Account (past ++ [.submit n]) (rs ++ evs.map .event) d' := by
  have hpast : submitted (past ++ [.submit n]) = submitted past ++ [n] := submitted_append
  have htrades : tradesIn (rs ++ evs.map .event) =
      tradesIn rs ++ orderTrades n.order (d.ordersOn n.order.side.book.opposite) fs := by
    rw [tradesIn_append, hex.events, tradesIn_events]
  have hcanc : cancelledIn (rs ++ evs.map .event) = cancelledIn rs := by
    rw [cancelledIn_append, cancelledIn_events, List.append_nil]
  have hafter := hex.perm_survivors (cancelledIn rs)
  refine ⟨?_, ?_, ?_, ?_, ?_⟩
  · rw [hcanc, (hafter.map _).nodup_iff, List.map_append, List.nodup_append]
    refine ⟨nodup_residual, hex.nodup_survivors h.ids, ?_⟩
    rintro i hi j hj rfl
    obtain ⟨o, ho, rfl⟩ := List.mem_map.mp hi
    have hid : o.id = n.id := id_residual ho
    exact h.new_notMem hex hnew (hid ▸ hj)
  · intro o ho
    rw [hcanc, hafter.mem_iff, List.mem_append] at ho
    rw [hpast, List.map_append, List.mem_append]
    rcases ho with ho | ho
    · exact Or.inr (List.mem_singleton.mpr (id_residual ho))
    · obtain ⟨o', ho', hid⟩ := List.mem_map.mp (hex.mem_ids_survivors (List.mem_map_of_mem ho))
      exact Or.inl (hid ▸ h.known o' ho')
  · intro t ht
    rw [htrades, List.mem_append] at ht
    rw [hpast, List.map_append]
    rcases ht with ht | ht
    · obtain ⟨hpos, ha, hr⟩ := h.trades t ht
      exact ⟨hpos, List.mem_append_left _ ha, List.mem_append_left _ hr⟩
    · obtain ⟨x, hx, hne, rfl⟩ := mem_orderTrades ht
      exact ⟨UInt64.pos_iff_ne_zero.mpr hne,
        List.mem_append_right _ (List.mem_singleton.mpr rfl),
        List.mem_append_left _ (h.known_opposite (List.of_mem_zip hx).1)⟩
  · have hopp : ((d.ordersOn n.order.side.book.opposite).map Order.id).Nodup := by
      have hids := h.ids
      rw [((orders_perm n.order.side.book).append_right _ |>.map Order.id).nodup_iff,
        List.map_append, List.map_append] at hids
      exact (List.nodup_append.mp (List.nodup_append.mp hids).1).2.1
    rw [htrades, List.map_append, List.nodup_append]
    refine ⟨h.pairs, nodup_orderTrades hopp hex.length_eq, ?_⟩
    -- the aggressor of an earlier trade was handed in earlier
    rintro p hp q hq rfl
    obtain ⟨t, ht, rfl⟩ := List.mem_map.mp hp
    obtain ⟨t', ht', heq⟩ := List.mem_map.mp hq
    obtain ⟨x, -, -, rfl⟩ := mem_orderTrades ht'
    have hid : n.id = t.aggressorId := (Prod.mk.inj heq).1
    exact hnew (hid ▸ (h.trades t ht).2.1)
  · intro m hm
    rw [hpast, List.mem_append, List.mem_singleton] at hm
    rw [htrades, hcanc]
    rcases hm with hm | rfl
    · exact h.conserved_earlier hex hm fun hc => hnew (hc ▸ List.mem_map_of_mem hm)
    · exact h.conserved_new hex hnew

end Submit

/-- What is open of an order, read off the book and the journal. -/
theorem openQty_eq (h : Account past rs d) {b : OrderBook} (hrep : Rep b d) (id : OrderId) :
    b.openQty rs id = leavesOf (d.orders ++ cancelledIn rs) id := by
  rw [leavesOf_eq_find? h.ids, List.find?_append, OrderBook.openQty, hrep.orders_eq]
  cases d.orders.find? fun o => o.id = id <;> rfl

end Account

/-! ## Runs -/

/-- The order a cancel takes, on a represented book. -/
theorem cancelling_sim {e : Engine} {d : Depth} {s : SessionId} {clord : ClOrdID}
    (h : Rep e.book d) :
    d.orders.Perm ((e.cancelling (.cancel s clord)).toList ++ (d.cancel ⟨s, clord.value⟩).orders) := by
  rw [orders_cancel, Engine.cancelling, OrderBook.find]
  rcases hlk : e.book.index.lookup ⟨s, clord.value⟩ with _ | p
  · have hkeep := h.lookup_eq_none.mp hlk
    have hself : (d.orders.filter fun o => o.key ≠ ⟨s, clord.value⟩) = d.orders :=
      List.filter_eq_self.mpr fun o ho => decide_eq_true (hkeep o ho)
    rw [hself, hlk]
    exact List.Perm.refl _
  · obtain ⟨hp, hkey⟩ := (h.index _ p).mp hlk
    obtain ⟨o, ho, hcell⟩ := h.exists_of_linked hp
    rw [keyAt, hcell] at hkey
    have hk : o.key = ⟨s, clord.value⟩ := Option.some.inj hkey
    rw [hlk, Option.bind_some, hcell, ← hk]
    exact perm_cons_filter_key h.nodup_keys ho

/-- **One call keeps the account.** -/
theorem step_account {e : Engine} {d : Depth} {c : Call} {past : List Call} {rs : List Record}
    (h : Rep e.book d) (hacc : Account past rs d) (hsum : leavesSum d.orders < 2 ^ 63)
    (hids : ((submitted (past ++ [c])).map NewOrder.id).Nodup) :
    Account (past ++ [c])
      (rs ++ ((e.cancelling c).toList.map .cancelled ++ (d.step e.algo c).2.map .event))
      (d.step e.algo c).1 := by
  cases c with
  | submit n =>
    obtain ⟨fs, hex⟩ := @execution_of_lt e.algo d n h.toPlaced hsum
    refine hacc.submit hex fun hmem => ?_
    rw [submitted_append, List.map_append, List.nodup_append] at hids
    exact hids.2.2 _ hmem _ (List.mem_singleton.mpr rfl) rfl
  | cancel s clord =>
    refine hacc.of_perm (by rw [submitted_append]; exact List.append_nil _) ?_ ?_
    · rw [tradesIn_append]
      cases e.cancelling (.cancel s clord) <;> exact List.append_nil _
    · -- the cancelled order moves from the book to the journal
      have hmove := (@cancelling_sim e d s clord h).append_right (cancelledIn rs)
      have hline : cancelledIn (rs ++ ((e.cancelling (.cancel s clord)).toList.map .cancelled ++
          (d.step e.algo (.cancel s clord)).2.map .event)) =
          cancelledIn rs ++ (e.cancelling (.cancel s clord)).toList := by
        rw [cancelledIn_append]
        cases e.cancelling (.cancel s clord) <;> rfl
      rw [hline]
      refine List.Perm.trans ?_ hmove.symm
      rw [List.append_assoc, ← List.append_assoc (Depth.orders _)]
      exact List.perm_append_comm
  | setAlgo a =>
    refine hacc.of_perm (by rw [submitted_append]; exact List.append_nil _) ?_ ?_
    · exact congrArg tradesIn (List.append_nil rs)
    · change (d.orders ++ cancelledIn (rs ++ [])).Perm _
      rw [List.append_nil]

/-- **Quantity is conserved**, at every point of a run with distinct ids
that reuses no live key and hands in less than half the word size: what
an order was handed in with is what was traded with it on either side and
what is open of it, live or as it was cancelled. No trade is empty, and
no two orders trade twice. -/
theorem run_conserves (algo : MatchAlgo) (calls : List Call)
    (hfresh : Guarded Engine.record Engine.Fresh (Engine.new algo) calls)
    (hids : ((submitted calls).map NewOrder.id).Nodup) (hsum : submittedQty calls < 2 ^ 63) :
    ∃ e rs, run Engine.record (Engine.new algo) calls = .ok (e, rs) ∧
      (∀ n ∈ submitted calls, n.qty.toNat = aggressorQty (tradesIn rs) n.id +
        restingQty (tradesIn rs) n.id + e.book.openQty rs n.id) ∧
      (∀ t ∈ tradesIn rs, 0 < t.qty) ∧
      ((tradesIn rs).map fun t => (t.aggressorId, t.restingId)).Nodup := by
  obtain ⟨e, rs, hr, d, hrep, -, -, hacc⟩ :=
    run_inv_ok (H := fun cs => submittedQty cs < 2 ^ 63 ∧ ((submitted cs).map NewOrder.id).Nodup)
      (J := fun past rs (e : Engine) => ∃ d, Rep e.book d ∧ d.Good ∧
        leavesSum d.orders ≤ submittedQty past ∧ Account past rs d)
      (fun cs cs' h => by
        rw [submittedQty_append, submitted_append, List.map_append, List.nodup_append] at h
        exact ⟨by omega, h.2.1⟩)
      (fun past rs e c hJ hf h => by
        obtain ⟨d, hrep, hd, hle, hacc⟩ := hJ
        obtain ⟨e', hs, hrep', hd', hle'⟩ := step_good hrep hd hle hf h.1
        have hbound : leavesSum d.orders < 2 ^ 63 := by
          have := h.1
          rw [submittedQty_append] at this
          omega
        exact ⟨e', _, by rw [Engine.record, hs], _, hrep', hd', hle',
          step_account hrep hacc hbound h.2⟩)
      ⟨Depth.new, rep_new, good_new, Nat.zero_le _, Account.new⟩ hfresh ⟨hsum, hids⟩
  refine ⟨e, rs, hr, fun n hn => ?_, fun t ht => (hacc.trades t ht).1, hacc.pairs⟩
  rw [hacc.openQty_eq hrep]
  exact hacc.conserved n hn

/-- An order traded with on both sides, and one cancelled in between. -/
theorem run_conserves_both_sides :
    ∃ e rs, run Engine.record (Engine.new .proRata)
      [.submit ⟨1, 0, ⟨ascii "A"⟩, .sell, 10, 5⟩, .submit ⟨2, 0, ⟨ascii "B"⟩, .buy, 11, 8⟩,
        .submit ⟨3, 1, ⟨ascii "A"⟩, .sell, 9, 1⟩, .cancel 0 ⟨ascii "B"⟩] = .ok (e, rs) ∧
      (∀ n ∈ submitted
        [.submit ⟨1, 0, ⟨ascii "A"⟩, .sell, 10, 5⟩, .submit ⟨2, 0, ⟨ascii "B"⟩, .buy, 11, 8⟩,
          .submit ⟨3, 1, ⟨ascii "A"⟩, .sell, 9, 1⟩, .cancel 0 ⟨ascii "B"⟩],
        n.qty.toNat = aggressorQty (tradesIn rs) n.id + restingQty (tradesIn rs) n.id +
          e.book.openQty rs n.id) ∧
      (∀ t ∈ tradesIn rs, 0 < t.qty) ∧
      ((tradesIn rs).map fun t => (t.aggressorId, t.restingId)).Nodup :=
  run_conserves _ _ (by decide +kernel) (by decide) (by decide)

end Core

end OrderbookFix
