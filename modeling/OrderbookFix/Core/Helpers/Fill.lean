import OrderbookFix.Core.Model.Depth
/-!
# The fill loops, over values

Each loop of the allocators computed on the orders it reads: given a
queue of distinct live addresses and the orders behind them, the loop
writes the queue's fills back, emits their trades and folds the signed
delta. The fold is the only step that can fail.
-/

namespace OrderbookFix

namespace Core

/-- The signed delta of a list of fills, folded as the loops fold it. -/
def deltaFold : Int → List Quantity → Except Fault Int
  | d, [] => .ok d
  | d, f :: fs => if f = 0 then deltaFold d fs else i64 (d - toI64 f) >>= (deltaFold · fs)

/-- The state after the fills of a queue are written and their trades
emitted. -/
def MatchState.applyFills (st : MatchState) (px : Price) (ps : List Ptr) (os : List Order)
    (fs : List Quantity) : MatchState :=
  { st with
    out := st.out ++ (tradesOf st.aggr px os fs).map .trade
    book := { st.book with heap := st.book.heap.writeAll ps (fillQueue os fs) } }

@[simp] theorem Order.fill_zero (o : Order) : o.fill 0 = o := by
  simp [Order.fill]

theorem sum_eq_zero {fs : List Quantity} (h : ∀ f ∈ fs, f = 0) : fs.sum = 0 := by
  induction fs with
  | nil => rfl
  | cons f fs ih =>
    rw [List.sum_cons, h f (List.mem_cons_self ..),
      ih fun g hg => h g (List.mem_cons_of_mem _ hg), UInt64.zero_add]

theorem deltaFold_of_zero {d : Int} {fs : List Quantity} (h : ∀ f ∈ fs, f = 0) :
    deltaFold d fs = .ok d := by
  induction fs with
  | nil => rfl
  | cons f fs ih =>
    rw [deltaFold, if_pos (h f (List.mem_cons_self ..))]
    exact ih fun g hg => h g (List.mem_cons_of_mem _ hg)

theorem tradesOf_cons {aggr o : Order} {px : Price} {os : List Order} {f : Quantity}
    {fs : List Quantity} :
    tradesOf aggr px (o :: os) (f :: fs) =
      if f = 0 then tradesOf aggr px os fs else trade aggr o px f :: tradesOf aggr px os fs := by
  by_cases hf : f = 0
  · simp [tradesOf, hf]
  · simp [tradesOf, hf]

/-- The trades of a level carry its fills. -/
theorem sum_qty_tradesOf {aggr : Order} {px : Price} {os : List Order} {fs : List Quantity}
    (h : fs.length = os.length) : ((tradesOf aggr px os fs).map Trade.qty).sum = fs.sum := by
  induction os generalizing fs with
  | nil =>
    obtain rfl := List.length_eq_zero_iff.mp h
    rfl
  | cons o os ih =>
    obtain ⟨f, fs, rfl⟩ := List.exists_cons_of_length_eq_add_one h
    rw [tradesOf_cons, List.sum_cons]
    split_ifs with hf
    · rw [ih (Nat.succ.inj h), hf, UInt64.zero_add]
    · rw [List.map_cons, List.sum_cons, ih (Nat.succ.inj h)]
      rfl

section Step

variable {st : MatchState} {px : Price} {p : Ptr} {ps : List Ptr} {o : Order} {os : List Order}
variable {f : Quantity} {fs : List Quantity}

theorem deref_of_cell {b : OrderBook} (h : b.heap.cells p = some o) : b.deref p = .ok o := by
  rw [OrderBook.deref, h]

/-- A queue whose head is live and distinct from the rest, after the
head is written. -/
theorem map_cells_write (hnd : (p :: ps).Nodup) {v : Order}
    (hlive : ps.map st.book.heap.cells = os.map some) :
    ps.map (st.book.heap.write p v).cells = os.map some := by
  rw [← hlive]
  refine List.map_congr_left fun q hq => Heap.write_of_ne _ ?_
  rintro rfl
  exact (List.nodup_cons.mp hnd).1 hq

/-- An order with no fill is skipped. -/
theorem applyFills_cons_zero (hp : st.book.heap.cells p = some o) :
    st.applyFills px (p :: ps) (o :: os) (0 :: fs) = st.applyFills px ps os fs := by
  simp only [MatchState.applyFills, tradesOf_cons, fillQueue, List.zipWith_cons_cons,
    Order.fill_zero, Heap.writeAll, Heap.write_same _ hp, if_true]

/-- An order with a fill is written, and its trade emitted, before the rest. -/
theorem applyFills_cons (hf : f ≠ 0) :
    st.applyFills px (p :: ps) (o :: os) (f :: fs) =
      ({ st with
          out := emitTrade st.out st.aggr o px f
          book := { st.book with
            heap := st.book.heap.write p { o with leavesQty := o.leavesQty - f } } } :
        MatchState).applyFills px ps os fs := by
  simp only [MatchState.applyFills, tradesOf_cons, if_neg hf, fillQueue, List.zipWith_cons_cons,
    Heap.writeAll, emitTrade, List.map_cons, List.append_assoc, List.cons_append, List.nil_append]
  rfl

/-- No fill at all leaves the state as it is. -/
theorem applyFills_of_zero (hlive : ps.map st.book.heap.cells = os.map some)
    (hlen : fs.length = os.length) (h : ∀ f ∈ fs, f = 0) : st.applyFills px ps os fs = st := by
  induction fs generalizing ps os with
  | nil =>
    have hos : os = [] := List.eq_nil_of_length_eq_zero (by simpa using hlen.symm)
    have hps : ps = [] := by simpa [hos] using hlive
    subst hos hps
    simp [MatchState.applyFills, tradesOf, Heap.writeAll]
  | cons f fs ih =>
    obtain _ | ⟨o, os⟩ := os
    · simp at hlen
    obtain _ | ⟨p, ps⟩ := ps
    · simp at hlive
    simp only [List.map_cons, List.cons.injEq] at hlive
    rw [h f (List.mem_cons_self ..), applyFills_cons_zero hlive.1]
    exact ih hlive.2 (by simpa using hlen) fun g hg => h g (List.mem_cons_of_mem _ hg)

end Step

/-! ## FIFO -/

theorem fifoFills_of_not_lt {available filled : Quantity} (h : ¬ filled < available)
    (qs : List Quantity) : ∀ f ∈ fifoFills available filled qs, f = 0 := by
  induction qs with
  | nil => simp [fifoFills]
  | cons q qs ih =>
    simp only [fifoFills, if_neg h, List.mem_cons, UInt64.add_zero]
    rintro f (rfl | hf)
    · rfl
    · exact ih f hf

@[simp] theorem length_fifoFills {available filled : Quantity} {qs : List Quantity} :
    (fifoFills available filled qs).length = qs.length := by
  induction qs generalizing filled with
  | nil => rfl
  | cons q qs ih => simp [fifoFills, ih]

/-- **The FIFO loop.** -/
theorem fifoLoop_eq {px : Price} {available filled : Quantity} {ps : List Ptr} {os : List Order}
    {st : MatchState} {delta : Int} (hnd : ps.Nodup)
    (hlive : ps.map st.book.heap.cells = os.map some) :
    fifoLoop px available ps st filled delta =
      (deltaFold delta (fifoFills available filled (os.map Order.leavesQty))).map fun d =>
        (st.applyFills px ps os (fifoFills available filled (os.map Order.leavesQty)),
          filled + (fifoFills available filled (os.map Order.leavesQty)).sum, d) := by
  induction ps generalizing os st filled delta with
  | nil =>
    have hos : os = [] := by simpa using hlive.symm
    subst hos
    simp [fifoLoop, fifoFills, deltaFold, Except.map, MatchState.applyFills, tradesOf,
      Heap.writeAll]
  | cons p ps ih =>
    obtain _ | ⟨o, os⟩ := os
    · simp at hlive
    have hlive' := hlive
    simp only [List.map_cons, List.cons.injEq] at hlive
    obtain ⟨hp, hps⟩ := hlive
    have hps' := (List.nodup_cons.mp hnd).2
    rw [fifoLoop]
    by_cases hlt : filled < available
    · rw [if_pos hlt, deref_of_cell hp]
      simp only [List.map_cons, fifoFills, if_pos hlt, deltaFold]
      simp only [bind, Except.bind]
      by_cases hq : min (available - filled) o.leavesQty = 0
      · rw [if_pos hq, if_pos hq, hq, applyFills_cons_zero hp, List.sum_cons, ih hps' hps,
          UInt64.add_zero, UInt64.zero_add]
      · rw [if_neg hq, if_neg hq]
        rcases i64 (delta - toI64 (min (available - filled) o.leavesQty)) with e | d
        · rfl
        · simp only
          rw [ih hps' (map_cells_write hnd hps), applyFills_cons hq, List.sum_cons,
            UInt64.add_assoc]
    · -- the loop stops here, and every fill from here on is nil
      have hz := fifoFills_of_not_lt hlt ((o :: os).map Order.leavesQty)
      rw [if_neg hlt, deltaFold_of_zero hz, applyFills_of_zero hlive' (by simp) hz,
        sum_eq_zero hz]
      simp [Except.map]

/-! ## Pro-rata -/

/-- The snapshot of a queue, as values. -/
def slotsOf (ps : List Ptr) (os : List Order) : List Slot :=
  (ps.zip os).map fun x => ⟨x.1, x.2.leavesQty, 0⟩

theorem map_o_slotsOf {ps : List Ptr} {os : List Order} (h : ps.length = os.length) :
    (slotsOf ps os).map Slot.o = ps := by
  rw [slotsOf, List.map_map]
  exact List.map_fst_zip (le_of_eq h)

/-- The slots with their floor shares, read as leaves paired with shares. -/
theorem map_floorShares_slotsOf (toFill total : Quantity) {ps : List Ptr} {os : List Order}
    (h : ps.length = os.length) :
    (floorShares toFill total (slotsOf ps os)).map (fun s => (s.origLeaves, s.alloc)) =
      (os.map Order.leavesQty).zip
        ((os.map Order.leavesQty).map fun q => toFill * q / total) := by
  have hos : (ps.zip os).map Prod.snd = os := List.map_snd_zip (le_of_eq h.symm)
  rw [← List.map_prod_left_eq_zip, floorShares, slotsOf]
  conv_rhs => rw [← hos]
  simp only [List.map_map]
  rfl

/-- **The snapshot** of a live queue. -/
theorem snapshot_eq {b : OrderBook} {ps : List Ptr} {os : List Order}
    (hlive : ps.map b.heap.cells = os.map some) :
    snapshot b ps =
      .ok (slotsOf ps os, (os.map Order.leavesQty).sum) := by
  induction ps generalizing os with
  | nil =>
    have hos : os = [] := by simpa using hlive.symm
    subst hos
    rfl
  | cons p ps ih =>
    obtain _ | ⟨o, os⟩ := os
    · simp at hlive
    simp only [List.map_cons, List.cons.injEq] at hlive
    rw [snapshot, deref_of_cell hlive.1, ih hlive.2]
    rfl

/-- The residual moves allocations only. -/
theorem map_o_topUp {r : Quantity} {slots : List Slot} :
    (topUp r slots).map Slot.o = slots.map Slot.o := by
  induction slots generalizing r with
  | nil => rfl
  | cons s slots ih =>
    rw [topUp]
    split
    · rfl
    · simp [ih]

theorem map_alloc_topUp {r : Quantity} {slots : List Slot} :
    (topUp r slots).map Slot.alloc =
      topUpFills r (slots.map fun s => (s.origLeaves, s.alloc)) := by
  induction slots generalizing r with
  | nil => rfl
  | cons s slots ih =>
    rw [topUp, List.map_cons, topUpFills]
    by_cases hr : r = 0
    · rw [if_pos hr, if_pos hr]
      simp
    · rw [if_neg hr, if_neg hr, List.map_cons, ih]

theorem length_topUpFills {r : Quantity} {l : List (Quantity × Quantity)} :
    (topUpFills r l).length = l.length := by
  induction l generalizing r with
  | nil => rfl
  | cons x l ih =>
    rw [topUpFills]
    split
    · simp
    · simp [ih]

@[simp] theorem length_prorataFills {available : Quantity} {qs : List Quantity} :
    (prorataFills available qs).length = qs.length := by
  dsimp only [prorataFills]
  split
  · simp
  · simp [length_topUpFills]

/-- **The write-back loop.** -/
theorem applySlots_eq (os : List Order) {px : Price} {slots : List Slot} {st : MatchState}
    {filled : Quantity} {delta : Int} (hnd : (slots.map Slot.o).Nodup)
    (hlive : (slots.map Slot.o).map st.book.heap.cells = os.map some) :
    applySlots px slots st filled delta =
      (deltaFold delta (slots.map Slot.alloc)).map fun d =>
        (st.applyFills px (slots.map Slot.o) os (slots.map Slot.alloc),
          filled + (slots.map Slot.alloc).sum, d) := by
  induction slots generalizing os st filled delta with
  | nil =>
    have hos : os = [] := by simpa using hlive.symm
    subst hos
    simp [applySlots, deltaFold, Except.map, MatchState.applyFills, tradesOf, Heap.writeAll]
  | cons s slots ih =>
    obtain _ | ⟨o, os⟩ := os
    · simp at hlive
    simp only [List.map_cons, List.cons.injEq] at hlive hnd
    obtain ⟨hp, hps⟩ := hlive
    have hps' := (List.nodup_cons.mp hnd).2
    rw [applySlots]
    simp only [List.map_cons, deltaFold, List.sum_cons]
    by_cases hq : s.alloc = 0
    · rw [if_pos hq, if_pos hq, hq, applyFills_cons_zero hp, ih os hps' hps, UInt64.zero_add]
    · rw [if_neg hq, if_neg hq, deref_of_cell hp]
      simp only [bind, Except.bind]
      rcases i64 (delta - toI64 s.alloc) with e | d
      · rfl
      · simp only
        rw [ih os hps' (map_cells_write hnd hps), applyFills_cons hq, UInt64.add_assoc]

/-! ## One level -/

theorem toI64_mem (q : Quantity) : -2 ^ 63 ≤ toI64 q ∧ toI64 q < 2 ^ 63 := by
  have := q.toNat_lt
  unfold toI64
  split <;> omega

theorem i64_of_mem {x : Int} (h : -2 ^ 63 ≤ x ∧ x < 2 ^ 63) : i64 x = .ok x := if_pos h

/-- The cast to signed and back. -/
@[simp] theorem ofInt_toI64 (q : Quantity) : UInt64.ofInt (toI64 q) = q := by
  have := q.toNat_lt
  rw [← UInt64.toNat_inj, UInt64.ofInt, UInt64.toNat_ofNat', toI64]
  split <;> omega

theorem setLevels_levels (b : OrderBook) (s : BookSide) : b.setLevels s (b.levels s) = b := by
  cases s <;> rfl

/-- With nothing filled, the close changes nothing. -/
theorem settle_zero {s : BookSide} {px : Price} {st : MatchState} {level : PriceLevel}
    (h : (st.book.levels s).find? px = some level) : settle s px st 0 0 = .ok st := by
  have hnote : level.noteQtyDelta 0 = .ok level := by
    rw [PriceLevel.noteQtyDelta, Int.add_zero, i64_of_mem (toI64_mem _)]
    simp [bind, Except.bind, pure, Except.pure]
  simp only [settle, h, hnote, bind, Except.bind, OrderBook.modifyLevel,
    OrderedMap.modify_same h, setLevels_levels, UInt64.sub_zero]
  rfl

/-- The FIFO allocator on one level. -/
theorem fillLevelFifo_eq {s : BookSide} {px : Price} {level : PriceLevel} {available : Quantity}
    {st : MatchState} {os : List Order} (hnd : level.queue.Nodup)
    (hlive : level.queue.map st.book.heap.cells = os.map some) :
    fillLevelFifo s px level available st =
      deltaFold 0 (fills .fifo available (os.map Order.leavesQty)) >>= fun d =>
        settle s px
          (st.applyFills px level.queue os (fills .fifo available (os.map Order.leavesQty)))
          (fills .fifo available (os.map Order.leavesQty)).sum d := by
  rw [fillLevelFifo, fifoLoop_eq hnd hlive]
  simp only [bind, fills, UInt64.zero_add]
  rcases deltaFold 0 (fifoFills available 0 (os.map Order.leavesQty)) with e | d
  · rfl
  · rfl

/-- **The proportional allocator on one level.** The early return is the
case of no fill. -/
theorem fillLevelProrata_eq {s : BookSide} {px : Price} {level : PriceLevel}
    {available : Quantity} {st : MatchState} {os : List Order} (hnd : level.queue.Nodup)
    (hlive : level.queue.map st.book.heap.cells = os.map some)
    (hfind : (st.book.levels s).find? px = some level) :
    fillLevelProrata s px level available st =
      deltaFold 0 (fills .proRata available (os.map Order.leavesQty)) >>= fun d =>
        settle s px
          (st.applyFills px level.queue os (fills .proRata available (os.map Order.leavesQty)))
          (fills .proRata available (os.map Order.leavesQty)).sum d := by
  rw [fillLevelProrata, snapshot_eq hlive]
  simp only [bind, Except.bind, fills]
  by_cases h0 : (os.map Order.leavesQty).sum = 0 ∨ available = 0
  · have hz : ∀ f ∈ prorataFills available (os.map Order.leavesQty), f = 0 := by
      intro f hf
      rw [prorataFills, if_pos h0] at hf
      obtain ⟨q, -, rfl⟩ := List.mem_map.mp hf
      rfl
    rw [if_pos h0, deltaFold_of_zero hz, applyFills_of_zero hlive (by simp) hz, sum_eq_zero hz]
    simp only
    rw [settle_zero hfind]
    rfl
  · -- the slots carry the queue's addresses and the fills of the values
    have hlen : level.queue.length = os.length := by simpa using congrArg List.length hlive
    set total := (os.map Order.leavesQty).sum
    have hpairs := map_floorShares_slotsOf (min available total) total hlen
    set slots := floorShares (min available total) total (slotsOf level.queue os) with hslots
    have hshares : slots.map Slot.alloc =
        (os.map Order.leavesQty).map fun q => min available total * q / total := by
      have := congrArg (List.map Prod.snd) hpairs
      rwa [List.map_map, List.map_snd_zip (by simp)] at this
    set residual := min available total - (slots.map Slot.alloc).sum
    have ho : (topUp residual slots).map Slot.o = level.queue := by
      rw [map_o_topUp, hslots, floorShares, List.map_map]
      exact map_o_slotsOf hlen
    have hfs : (topUp residual slots).map Slot.alloc =
        prorataFills available (os.map Order.leavesQty) := by
      rw [map_alloc_topUp, hpairs, prorataFills, if_neg h0]
      simp only [residual, hshares]
      rfl
    rw [if_neg h0, applySlots_eq os (by rw [ho]; exact hnd) (by rw [ho]; exact hlive),
      hfs, ho, UInt64.zero_add]
    rcases deltaFold 0 (prorataFills available (os.map Order.leavesQty)) with e | d
    · rfl
    · rfl

end Core

end OrderbookFix
