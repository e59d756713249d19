import OrderbookFix.Core.Invariants
/-!
# Buyers and sellers

The two sides of the book run through duplicated code: two maps with
opposite comparators, two walks, two branches wherever a ladder is
chosen. Exchanging the sides and negating the prices is a renaming of
the whole state that every operation respects, so a run of the mirrored
calls is the mirror image of the run.
-/

namespace OrderbookFix

namespace Core

/-! ## The mirror -/

/-- Buy and Sell exchanged. Any other byte is handled as a sell is, and
mirrored as one. -/
def Side.mirror : Side → Side
  | .buy => .sell
  | _ => .buy

def Order.mirror (o : Order) : Order := { o with side := o.side.mirror, price := -o.price }

def Trade.mirror (t : Trade) : Trade :=
  { t with aggressorSide := t.aggressorSide.mirror, price := -t.price }

def Event.mirror : Event → Event
  | .trade t => .trade t.mirror
  | .replaceAck r => .replaceAck { r with newPrice := -r.newPrice }
  | ev => ev

def NewOrder.mirror (n : NewOrder) : NewOrder :=
  { n with side := n.side.mirror, price := -n.price }

def Call.mirror : Call → Call
  | .submit n => .submit n.mirror
  | c => c

theorem before_neg {s : BookSide} (a b : Price) : s.before a b ↔ s.opposite.before (-a) (-b) := by
  cases s
  · show b < a ↔ -a < -b
    exact neg_lt_neg_iff.symm
  · show a < b ↔ -b < -a
    exact neg_lt_neg_iff.symm

/-- A ladder under the negated prices, which put it in the order of the
other side. -/
def mirrorLevels {s : BookSide} (m : LevelMap s) : LevelMap s.opposite :=
  m.relabel (fun p => -p) before_neg

/-- **The mirror of a book.** The nodes stay at their addresses, so the
queues and the index are the same. -/
def OrderBook.mirror (b : OrderBook) : OrderBook where
  heap := b.heap.map Order.mirror
  bids := mirrorLevels b.asks
  asks := mirrorLevels b.bids
  index := b.index

def MatchState.mirror (st : MatchState) : MatchState :=
  ⟨st.book.mirror, st.aggr.mirror, st.out.map Event.mirror⟩

def Engine.mirror (e : Engine) : Engine := { e with book := e.book.mirror }

/-! ## Sides and ladders -/

theorem book_mirror (s : Side) : s.mirror.book = s.book.opposite := by
  cases s <;> rfl

/-- The comparison a side makes reads the same in the mirror. -/
theorem crosses_mirror (s : Side) (a p : Price) : crosses s.mirror (-a) (-p) = crosses s a p := by
  unfold crosses
  rcases s with _ | _ | c <;> simp [Side.mirror]

section Levels

variable {s : BookSide} (m : LevelMap s) (p : Price)

theorem find?_mirror : (mirrorLevels m).find? (-p) = m.find? p :=
  m.find?_relabel neg_injective p

theorem modify_mirror (f : PriceLevel → PriceLevel) :
    (mirrorLevels m).modify (-p) f = mirrorLevels (m.modify p f) :=
  m.modify_relabel neg_injective p f

theorem erase_mirror : (mirrorLevels m).erase (-p) = mirrorLevels (m.erase p) :=
  m.erase_relabel neg_injective p

theorem upsert_mirror (new : PriceLevel) (f : PriceLevel → PriceLevel) :
    (mirrorLevels m).upsert (-p) new f = mirrorLevels (m.upsert p new f) :=
  m.upsert_relabel neg_injective p new f

end Levels

/-! ## The book -/

namespace OrderBook

variable (b : OrderBook) (s : BookSide)

theorem levels_mirror : b.mirror.levels s.opposite = mirrorLevels (b.levels s) := by
  cases s <;> rfl

theorem setLevels_mirror (m : LevelMap s) :
    b.mirror.setLevels s.opposite (mirrorLevels m) = (b.setLevels s m).mirror := by
  cases s <;> rfl

theorem modifyLevel_mirror (p : Price) (f : PriceLevel → PriceLevel) :
    b.mirror.modifyLevel s.opposite (-p) f = (b.modifyLevel s p f).mirror := by
  unfold modifyLevel
  rw [levels_mirror, modify_mirror, setLevels_mirror]

theorem cells_mirror (p : Ptr) :
    b.mirror.heap.cells p = (b.heap.cells p).map Order.mirror := rfl

theorem index_mirror : b.mirror.index = b.index := rfl

theorem deref_mirror (p : Ptr) : b.mirror.deref p = (b.deref p).map Order.mirror := by
  unfold deref
  rw [cells_mirror]
  rcases b.heap.cells p with _ | o <;> rfl

theorem emplace_mirror (k : IndexKey) (p : Ptr) :
    b.mirror.emplace k p = (b.emplace k p).mirror := by
  unfold emplace
  rw [index_mirror]
  rcases b.index.lookup k with _ | q
  · rfl
  · unfold mirror
    rw [Heap.map_free]

theorem eraseKey_mirror (k : IndexKey) : b.mirror.eraseKey k = (b.eraseKey k).mirror := by
  unfold eraseKey
  rw [index_mirror]
  rcases b.index.lookup k with _ | q
  · rfl
  · unfold mirror
    rw [Heap.map_free]

theorem rest_mirror (o : Order) : b.mirror.rest o.mirror = (b.rest o).mirror := by
  have halloc : ({ b.mirror with heap := b.mirror.heap.alloc o.mirror } : OrderBook) =
      ({ b with heap := b.heap.alloc o } : OrderBook).mirror := by
    unfold mirror
    rw [Heap.map_alloc]
  unfold rest
  dsimp only
  rw [halloc, show o.mirror.side.book = o.side.book.opposite from book_mirror o.side,
    levels_mirror, show o.mirror.price = -o.price from rfl,
    show (fun l : PriceLevel => l.pushBack b.mirror.heap.next o.mirror) =
      fun l => l.pushBack b.heap.next o from rfl,
    upsert_mirror, setLevels_mirror]
  exact emplace_mirror _ _ _

/-- Unlinking an order reads its side and its price. -/
theorem unlink_mirror (p : Ptr) (o : Order) :
    b.mirror.modifyLevel o.mirror.side.book o.mirror.price (·.unlink p o.mirror) =
      (b.modifyLevel o.side.book o.price (·.unlink p o)).mirror := by
  rw [show o.mirror.side.book = o.side.book.opposite from book_mirror o.side]
  exact b.modifyLevel_mirror o.side.book o.price (·.unlink p o)

theorem cancel_mirror (sess : SessionId) (clord : ClOrdID) :
    b.mirror.cancel sess clord = (b.cancel sess clord).map fun r => (r.1, r.2.mirror) := by
  unfold cancel
  dsimp only
  rw [index_mirror]
  generalize (⟨sess, clord.value⟩ : IndexKey) = k
  rcases b.index.lookup k with _ | p
  · rfl
  · change (b.mirror.deref p >>= _) = Except.map _ (b.deref p >>= _)
    rw [deref_mirror]
    refine map_bind fun o => ?_
    rw [unlink_mirror, eraseKey_mirror]
    rfl

theorem remove_mirror (p : Ptr) : b.mirror.remove p = (b.remove p).map mirror := by
  unfold remove
  rw [deref_mirror]
  refine map_bind fun o => ?_
  dsimp only
  rw [unlink_mirror, eraseKey_mirror]
  rfl

theorem best_mirror : b.mirror.best s.opposite = (b.best s).map fun p => -p := by
  unfold best
  rw [levels_mirror]
  change (((b.levels s).entries.map fun e => (-e.1, e.2)).find? _).map _ = _
  rw [List.find?_map, Option.map_map, Option.map_map]
  rfl

theorem linkedOn_mirror : b.mirror.linkedOn s.opposite = b.linkedOn s := by
  unfold linkedOn
  rw [levels_mirror]
  exact List.flatMap_map _ _ _

theorem ordersOn_mirror : b.mirror.ordersOn s.opposite = (b.ordersOn s).map Order.mirror := by
  unfold ordersOn
  rw [linkedOn_mirror, List.map_filterMap]
  rfl

end OrderBook

/-! ## The walks -/

/-- A callback whose mirror is another one. -/
def Mirrors (fn fn' : Price → MatchState → Except Fault (Bool × MatchState)) : Prop :=
  ∀ p st, fn' (-p) st.mirror = (fn p st).map fun r => (r.1, r.2.mirror)

theorem walkFrom_mirror {s : BookSide} {fn fn' : Price → MatchState → Except Fault (Bool × MatchState)}
    (hfn : Mirrors fn fn') (ps : List Price) (st : MatchState) :
    OrderBook.walkFrom s.opposite fn' (ps.map fun p => -p) st.mirror =
      (OrderBook.walkFrom s fn ps st).map MatchState.mirror := by
  induction ps generalizing st with
  | nil => rfl
  | cons p ps ih =>
    -- the level the iterator drops, in either book
    have hdrop : ∀ st : MatchState,
        ({ st.mirror with
            book := st.mirror.book.setLevels s.opposite
              ((st.mirror.book.levels s.opposite).erase (-p)) } : MatchState) =
          ({ st with book := st.book.setLevels s ((st.book.levels s).erase p) } :
            MatchState).mirror := by
      intro st
      unfold MatchState.mirror
      rw [OrderBook.levels_mirror, erase_mirror, OrderBook.setLevels_mirror]
    have hfind : ∀ st : MatchState, (st.mirror.book.levels s.opposite).find? (-p) =
        (st.book.levels s).find? p := by
      intro st
      rw [show st.mirror.book = st.book.mirror from rfl, OrderBook.levels_mirror, find?_mirror]
    rw [List.map_cons, OrderBook.walkFrom, OrderBook.walkFrom, hfind, hdrop]
    rcases (st.book.levels s).find? p with _ | level
    · rfl
    dsimp only
    by_cases hempty : level.empty
    · rw [if_pos hempty, if_pos hempty, ih]
    rw [if_neg hempty, if_neg hempty, hfn p st]
    refine map_bind fun r => ?_
    obtain ⟨go, st'⟩ := r
    dsimp only
    cases go
    · rfl
    rw [hfind, hdrop]
    rcases (st'.book.levels s).find? p with _ | level'
    · rfl
    dsimp only [Bool.not_true, Bool.false_eq_true, if_false]
    by_cases hempty' : level'.empty
    · rw [if_pos hempty', if_pos hempty']
      exact ih _
    · rw [if_neg hempty', if_neg hempty']
      exact ih _

theorem walk_mirror {s : BookSide} {fn fn' : Price → MatchState → Except Fault (Bool × MatchState)}
    (hfn : Mirrors fn fn') (st : MatchState) :
    OrderBook.walk s.opposite fn' st.mirror =
      (OrderBook.walk s fn st).map MatchState.mirror := by
  unfold OrderBook.walk
  rw [← walkFrom_mirror hfn, show st.mirror.book = st.book.mirror from rfl,
    OrderBook.levels_mirror]
  unfold mirrorLevels OrderedMap.relabel
  rw [List.map_map, List.map_map]
  rfl

/-! ## The allocators -/

theorem snapshot_mirror (b : OrderBook) (ps : List Ptr) :
    snapshot b.mirror ps = snapshot b ps := by
  induction ps with
  | nil => rfl
  | cons p ps ih =>
    rw [snapshot, snapshot, OrderBook.deref_mirror, ih]
    rcases b.deref p with f | o <;> rfl

/-- A fill as both allocators write it: a trade put out, and the order
written back. -/
theorem filled_mirror (st : MatchState) (p : Ptr) (o : Order) (px : Price) (q : Quantity) :
    ({ st.mirror with
      out := emitTrade st.mirror.out st.mirror.aggr o.mirror (-px) q
      book := { st.mirror.book with
        heap := st.mirror.book.heap.write p
          { o.mirror with leavesQty := o.mirror.leavesQty - q } } } : MatchState) =
      ({ st with
        out := emitTrade st.out st.aggr o px q
        book := { st.book with
          heap := st.book.heap.write p { o with leavesQty := o.leavesQty - q } } } :
        MatchState).mirror := by
  have hheap := st.book.heap.map_write Order.mirror (p := p)
    (v := { o with leavesQty := o.leavesQty - q })
  unfold MatchState.mirror OrderBook.mirror emitTrade
  dsimp only
  rw [hheap, List.map_append]
  rfl

theorem applySlots_mirror (px : Price) (slots : List Slot) (st : MatchState) (filled : Quantity)
    (delta : Int) :
    applySlots (-px) slots st.mirror filled delta =
      (applySlots px slots st filled delta).map fun r => (r.1.mirror, r.2) := by
  induction slots generalizing st filled delta with
  | nil => rfl
  | cons s slots ih =>
    rw [applySlots, applySlots]
    by_cases hs : s.alloc = 0
    · rw [if_pos hs, if_pos hs, ih]
    rw [if_neg hs, if_neg hs, show st.mirror.book = st.book.mirror from rfl,
      OrderBook.deref_mirror]
    refine map_bind fun o => ?_
    rcases i64 (delta - toI64 s.alloc) with f | delta'
    · rfl
    · have hst := filled_mirror st s.o o px s.alloc
      exact (congrArg (fun st => applySlots (-px) slots st _ delta') hst).trans (ih _ _ _)

theorem fifoLoop_mirror (px : Price) (available : Quantity) (ps : List Ptr) (st : MatchState)
    (filled : Quantity) (delta : Int) :
    fifoLoop (-px) available ps st.mirror filled delta =
      (fifoLoop px available ps st filled delta).map fun r => (r.1.mirror, r.2) := by
  induction ps generalizing st filled delta with
  | nil => rfl
  | cons p ps ih =>
    rw [fifoLoop, fifoLoop]
    by_cases hlt : filled < available
    swap
    · rw [if_neg hlt, if_neg hlt]
      rfl
    rw [if_pos hlt, if_pos hlt, show st.mirror.book = st.book.mirror from rfl,
      OrderBook.deref_mirror]
    refine map_bind fun o => ?_
    dsimp only
    rw [show o.mirror.leavesQty = o.leavesQty from rfl]
    by_cases hq : min (available - filled) o.leavesQty = 0
    · rw [if_pos hq, if_pos hq, ih]
    rw [if_neg hq, if_neg hq]
    rcases i64 (delta - toI64 (min (available - filled) o.leavesQty)) with f | delta'
    · rfl
    · have hst := filled_mirror st p o px (min (available - filled) o.leavesQty)
      exact (congrArg (fun st => fifoLoop (-px) available ps st _ delta') hst).trans (ih _ _ _)

theorem settle_mirror (s : BookSide) (px : Price) (st : MatchState) (filled : Quantity)
    (delta : Int) :
    settle s.opposite (-px) st.mirror filled delta =
      (settle s px st filled delta).map MatchState.mirror := by
  unfold settle
  rw [show st.mirror.book = st.book.mirror from rfl, OrderBook.levels_mirror, find?_mirror]
  rcases (st.book.levels s).find? px with _ | level
  · rfl
  dsimp only
  rcases level.noteQtyDelta delta with f | level'
  · rfl
  · have hbook := st.book.modifyLevel_mirror s px fun _ => level'
    exact congrArg (fun b => Except.ok (⟨b, _, _⟩ : MatchState)) hbook

theorem fillLevelProrata_mirror (s : BookSide) (px : Price) (level : PriceLevel)
    (available : Quantity) (st : MatchState) :
    fillLevelProrata s.opposite (-px) level available st.mirror =
      (fillLevelProrata s px level available st).map MatchState.mirror := by
  unfold fillLevelProrata
  rw [show st.mirror.book = st.book.mirror from rfl, snapshot_mirror]
  rcases snapshot st.book level.queue with f | ⟨slots, total⟩
  · rfl
  change (if total = 0 ∨ available = 0 then _ else _) =
    Except.map _ (if total = 0 ∨ available = 0 then _ else _)
  by_cases hz : total = 0 ∨ available = 0
  · rw [if_pos hz, if_pos hz]
    rfl
  rw [if_neg hz, if_neg hz, applySlots_mirror]
  refine map_bind fun r => ?_
  exact settle_mirror s px r.1 r.2.1 r.2.2

theorem fillLevelFifo_mirror (s : BookSide) (px : Price) (level : PriceLevel)
    (available : Quantity) (st : MatchState) :
    fillLevelFifo s.opposite (-px) level available st.mirror =
      (fillLevelFifo s px level available st).map MatchState.mirror := by
  unfold fillLevelFifo
  rw [fifoLoop_mirror]
  refine map_bind fun r => ?_
  exact settle_mirror s px r.1 r.2.1 r.2.2

/-! ## Submitting -/

theorem onLevel_mirrors (algo : MatchAlgo) (s : BookSide) :
    Mirrors (onLevel algo s) (onLevel algo s.opposite) := by
  intro px st
  unfold onLevel
  rw [show st.mirror.aggr.leavesQty = st.aggr.leavesQty from rfl,
    show crosses st.mirror.aggr.side st.mirror.aggr.price (-px) =
      crosses st.aggr.side st.aggr.price px from crosses_mirror _ _ _,
    show st.mirror.book = st.book.mirror from rfl, OrderBook.levels_mirror, find?_mirror]
  by_cases hzero : st.aggr.leavesQty = 0
  · rw [if_pos hzero, if_pos hzero]
    rfl
  rw [if_neg hzero, if_neg hzero]
  by_cases hx : (!crosses st.aggr.side st.aggr.price px) = true
  · rw [if_pos hx, if_pos hx]
    rfl
  rw [if_neg hx, if_neg hx]
  rcases (st.book.levels s).find? px with _ | level
  · rfl
  dsimp only
  rcases algo
  · rw [fillLevelProrata_mirror]
    exact map_bind fun r => rfl
  · rw [fillLevelFifo_mirror]
    exact map_bind fun r => rfl

theorem sweepQueue_mirror (ps : List Ptr) (b : OrderBook) :
    sweepQueue ps b.mirror = (sweepQueue ps b).map OrderBook.mirror := by
  induction ps generalizing b with
  | nil => rfl
  | cons p ps ih =>
    rw [sweepQueue, sweepQueue, OrderBook.deref_mirror]
    refine map_bind fun o => ?_
    rw [show o.mirror.leavesQty = o.leavesQty from rfl]
    by_cases hz : o.leavesQty = 0
    · rw [if_pos hz, if_pos hz, OrderBook.remove_mirror]
      exact map_bind fun b' => ih b'
    · rw [if_neg hz, if_neg hz, ih]

theorem sweepLevel_mirrors (s : BookSide) : Mirrors (sweepLevel s) (sweepLevel s.opposite) := by
  intro px st
  unfold sweepLevel
  rw [show st.mirror.book = st.book.mirror from rfl, OrderBook.levels_mirror, find?_mirror]
  rcases (st.book.levels s).find? px with _ | level
  · rfl
  · dsimp only
    rw [sweepQueue_mirror]
    exact map_bind fun b => rfl

/-- What `submit` does once the ladder is swept. -/
def restResidual (st : MatchState) : Except Fault (OrderBook × EventList) :=
  if st.aggr.leavesQty > 0 then .ok (st.book.rest st.aggr, st.out) else .ok (st.book, st.out)

theorem restResidual_mirror (st : MatchState) :
    restResidual st.mirror =
      (restResidual st).map fun r => (r.1.mirror, r.2.map Event.mirror) := by
  unfold restResidual
  rw [show st.mirror.aggr.leavesQty = st.aggr.leavesQty from rfl]
  by_cases hpos : st.aggr.leavesQty > 0
  · rw [if_pos hpos, if_pos hpos]
    exact congrArg (fun b => Except.ok (b, _)) (st.book.rest_mirror st.aggr)
  · rw [if_neg hpos, if_neg hpos]
    rfl

theorem submit_mirror (algo : MatchAlgo) (b : OrderBook) (o : Order) :
    submit algo b.mirror o.mirror =
      (submit algo b o).map fun r => (r.1.mirror, r.2.map Event.mirror) := by
  set opp := o.side.book.opposite with hopp
  have hmatch := @walk_mirror opp _ _ (onLevel_mirrors algo opp) ⟨b, o, [.ack ⟨o.id, o.clordId⟩]⟩
  have hside : o.mirror.side.book = opp := book_mirror _
  rw [submit_eq, submit_eq, hside, ← hopp]
  refine (congrArg (· >>= _) hmatch).trans (map_bind fun st => ?_)
  refine (congrArg (· >>= _) (walk_mirror (sweepLevel_mirrors _) st)).trans (map_bind fun st => ?_)
  exact restResidual_mirror st

/-! ## Runs -/

theorem step_mirror (e : Engine) (c : Call) :
    e.mirror.step c.mirror = (e.step c).map fun r => (r.1.mirror, r.2.map Event.mirror) := by
  rcases c with n | ⟨sess, clord⟩ | a
  · change Engine.step e.mirror (.submit n.mirror) = _
    unfold Engine.step
    dsimp only
    rw [show n.mirror.order = n.order.mirror from rfl,
      show e.mirror.book = e.book.mirror from rfl, show e.mirror.algo = e.algo from rfl,
      submit_mirror]
    rcases submit e.algo e.book n.order with f | ⟨b, evs⟩ <;> rfl
  · change Engine.step e.mirror (.cancel sess clord) = _
    unfold Engine.step
    dsimp only
    rw [show e.mirror.book = e.book.mirror from rfl, OrderBook.cancel_mirror]
    rcases e.book.cancel sess clord with f | ⟨r, b⟩ <;> rfl
  · rfl

/-- **A run of the mirrored calls** is the mirror of the run, whatever
the calls. -/
theorem run_mirror (e : Engine) (calls : List Call) :
    run Engine.step e.mirror (calls.map Call.mirror) =
      (run Engine.step e calls).map fun r => (r.1.mirror, r.2.map Event.mirror) :=
  run_map step_mirror e calls

/-- **Buyers and sellers are treated alike.** A run that reuses no live
key and hands in less than half the word size returns, and the mirrored
calls put out the mirrored events and leave the mirrored book: the same
queues with the same leaves on the opposite ladders, best bid and best
ask exchanged. -/
theorem run_mirror_of_fresh (algo : MatchAlgo) (calls : List Call)
    (hfresh : Guarded Engine.step Engine.Fresh (Engine.new algo) calls)
    (hsum : submittedQty calls < 2 ^ 63) :
    ∃ e evs, run Engine.step (Engine.new algo) calls = .ok (e, evs) ∧
      run Engine.step (Engine.new algo) (calls.map Call.mirror) =
        .ok (e.mirror, evs.map Event.mirror) ∧
      (∀ s, e.mirror.book.ordersOn s.opposite = (e.book.ordersOn s).map Order.mirror) ∧
      e.mirror.book.bestBid = e.book.bestAsk.map (fun p => -p) ∧
      e.mirror.book.bestAsk = e.book.bestBid.map (fun p => -p) := by
  obtain ⟨e, evs, hr, -⟩ := run_good algo calls hfresh hsum
  have hm := run_mirror (Engine.new algo) calls
  rw [hr] at hm
  exact ⟨e, evs, hr, hm, e.book.ordersOn_mirror, e.book.best_mirror .ask,
    e.book.best_mirror .bid⟩

/-- A resting sell met by two buys, against a resting buy met by two
sells. -/
theorem run_mirror_of_fresh_partial_fill :
    ∃ e evs, run Engine.step (Engine.new .proRata)
        [.submit ⟨1, 0, ⟨ascii "A"⟩, .sell, 10, 5⟩, .submit ⟨2, 0, ⟨ascii "B"⟩, .buy, 11, 3⟩,
          .submit ⟨3, 0, ⟨ascii "C"⟩, .buy, 9, 4⟩] = .ok (e, evs) ∧
      run Engine.step (Engine.new .proRata)
        [.submit ⟨1, 0, ⟨ascii "A"⟩, .buy, -10, 5⟩, .submit ⟨2, 0, ⟨ascii "B"⟩, .sell, -11, 3⟩,
          .submit ⟨3, 0, ⟨ascii "C"⟩, .sell, -9, 4⟩] = .ok (e.mirror, evs.map Event.mirror) ∧
      (∀ s, e.mirror.book.ordersOn s.opposite = (e.book.ordersOn s).map Order.mirror) ∧
      e.mirror.book.bestBid = e.book.bestAsk.map (fun p => -p) ∧
      e.mirror.book.bestAsk = e.book.bestBid.map (fun p => -p) :=
  run_mirror_of_fresh .proRata _ (by decide +kernel) (by decide)

end Core

end OrderbookFix
