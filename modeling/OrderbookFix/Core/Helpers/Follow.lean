import OrderbookFix.Core.Helpers.Mirrors
/-!
# Following links is running along the queue

Each loop of the matcher, over nodes and over queues side by side. A loop
over nodes stands at an address of the queue and goes on to the next; what
the two do at an address is the same, a dead one included. The sweep
removes the node it stands on, so where it goes on to is read before.
-/

namespace OrderbookFix

namespace Core

namespace Linked

/-- **The two states of a match.** -/
structure Abreast (D : Prop) (st : MatchState) (st' : Core.MatchState) : Prop where
  book : Mirrors D st.book st'.book
  aggr : st.aggr = st'.aggr
  out : st.out = st'.out
  /-- the key of the aggressor stays free -/
  free : D ∨ st'.book.index.lookup st'.aggr.key = none

section Loops

variable {D : Prop} {nb : OrderBook} {b : Core.OrderBook} {s : BookSide} {px : Price} {p : Ptr}
variable {o : Order} {pre ps : List Ptr} {fuel : ℕ} {st : MatchState} {st' : Core.MatchState}

theorem Mirrors.find?_of_mem (h : Mirrors D nb b) (hp : p ∈ b.nodesAt s px) :
    ∃ l pl, (nb.levels s).find? px = some l ∧ (b.levels s).find? px = some pl ∧
      Shown nb.heap l pl := by
  rcases hpl : (b.levels s).find? px with _ | pl
  · rw [Core.OrderBook.nodesAt, hpl] at hp
    cases hp
  · obtain ⟨l, hl, hs⟩ := h.find? hpl
    exact ⟨l, pl, hl, rfl, hs⟩

/-- A live node links to the next of its queue. -/
theorem Mirrors.linkAt_next (h : Mirrors D nb b) (hnodes : b.nodesAt s px = pre ++ p :: ps)
    (ho : b.heap.cells p = some o) : linkAt nb.heap .next p = ps.head? := by
  obtain ⟨l, pl, hl, hpl, hs⟩ := h.find?_of_mem (s := s) (p := p) (by rw [hnodes]; simp)
  rw [nodesAt_of_find? hpl] at hnodes
  exact hs.forward.link_eq pre p ps hnodes (h.live_iff.mpr ⟨o, ho⟩)

/-- A dead node stops both sides. -/
theorem deref_none (h : Mirrors D nb b) (hp : b.heap.cells p = none) :
    deref nb.heap p = .error .danglingRead ∧ b.deref p = .error .danglingRead := by
  refine ⟨deref_dead fun hlive => ?_, by rw [Core.OrderBook.deref, hp]⟩
  obtain ⟨o, ho⟩ := h.live_iff.mp hlive
  rw [hp] at ho
  cases ho

/-- No queue is longer than the addresses handed out. -/
theorem length_nodesAt_le (h : Tidy D b) : (b.nodesAt s px).length ≤ b.heap.next := by
  have hsub : b.nodesAt s px ⊆ List.range b.heap.next := fun p hp =>
    List.mem_range.mpr (h.bounded s px p hp)
  simpa using ((h.nodup s px).subperm hsub).length_le

theorem snapshot_agrees (h : Mirrors D nb b) (pre : List Ptr)
    (hnodes : b.nodesAt s px = pre ++ ps) (hfuel : ps.length ≤ fuel) :
    Agrees D Eq (snapshot nb.heap fuel ps.head?) (Core.snapshot b ps) := by
  induction ps generalizing pre fuel with
  | nil =>
    cases fuel <;> exact .ok rfl
  | cons p ps ih =>
    obtain ⟨fuel, rfl⟩ := Nat.exists_eq_add_one.mpr (Nat.lt_of_lt_of_le (Nat.succ_pos _) hfuel)
    rw [List.head?_cons, snapshot, Core.snapshot]
    rcases hp : b.heap.cells p with _ | o
    · rw [(deref_none h hp).1, (deref_none h hp).2]
      exact .error Fault.danglingRead
    rw [h.deref_eq hp, h.linkAt_next hnodes hp, deref_of_cell hp]
    change Agrees D Eq (snapshot nb.heap fuel ps.head? >>= fun r =>
      .ok (⟨p, o.leavesQty, 0⟩ :: r.1, o.leavesQty + r.2)) (Core.snapshot b ps >>= _)
    refine (ih (pre ++ [p]) (by simp [hnodes]) (Nat.le_of_succ_le_succ hfuel)).bind ?_
    rintro r - rfl
    exact .ok rfl

/-- One fill on both sides. -/
theorem Abreast.fill (h : Abreast D st st') (ho : st'.book.heap.cells p = some o) (q : Quantity) :
    Abreast D (st.fill px p o q)
      { st' with
        out := emitTrade st'.out st'.aggr o px q
        book := { st'.book with
          heap := st'.book.heap.write p { o with leavesQty := o.leavesQty - q } } } where
  book := h.book.fill ho q
  aggr := h.aggr
  out := by
    change emitTrade st.out st.aggr o px q = _
    rw [h.out, h.aggr]
  free := h.free

theorem applySlots_agrees {slots : List Slot} {filled : Quantity} {delta : Int}
    (h : Abreast D st st') :
    Agrees D (fun r r' => Abreast D r.1 r'.1 ∧ r.2 = r'.2)
      (applySlots px slots st filled delta) (Core.applySlots px slots st' filled delta) := by
  induction slots generalizing st st' filled delta with
  | nil => exact .ok ⟨h, rfl⟩
  | cons a slots ih =>
    rw [applySlots, Core.applySlots]
    split
    · exact ih h
    rcases hp : st'.book.heap.cells a.o with _ | o
    · rw [(deref_none h.book hp).1, (deref_none h.book hp).2]
      exact .error Fault.danglingRead
    rw [h.book.deref_eq hp, deref_of_cell hp]
    rcases i64 (delta - toI64 a.alloc) with e | δ
    · exact .error e
    · exact ih (h.fill hp a.alloc)

theorem fifoLoop_agrees {available filled : Quantity} {delta : Int} (h : Abreast D st st')
    (pre : List Ptr) (hnodes : st'.book.nodesAt s px = pre ++ ps) (hfuel : ps.length ≤ fuel) :
    Agrees D (fun r r' => Abreast D r.1 r'.1 ∧ r.2 = r'.2)
      (fifoLoop px available fuel ps.head? st filled delta)
      (Core.fifoLoop px available ps st' filled delta) := by
  induction ps generalizing pre fuel st st' filled delta with
  | nil =>
    cases fuel <;> exact .ok ⟨h, rfl⟩
  | cons p ps ih =>
    obtain ⟨fuel, rfl⟩ := Nat.exists_eq_add_one.mpr (Nat.lt_of_lt_of_le (Nat.succ_pos _) hfuel)
    have hfuel := Nat.le_of_succ_le_succ hfuel
    rw [List.head?_cons, fifoLoop, Core.fifoLoop]
    split
    · rcases hp : st'.book.heap.cells p with _ | o
      · rw [(deref_none h.book hp).1, (deref_none h.book hp).2]
        exact .error Fault.danglingRead
      rw [h.book.deref_eq hp, h.book.linkAt_next hnodes hp, deref_of_cell hp]
      change Agrees D _ (if _ then _ else _) (if _ then _ else _)
      split
      · exact ih h (pre ++ [p]) (by simp [hnodes]) hfuel
      · rcases i64 (delta - toI64 (min (available - filled) o.leavesQty)) with e | δ
        · exact .error e
        · exact ih (h.fill hp _) (pre ++ [p]) (by
            rw [← List.append_cons, ← hnodes]
            cases s <;> rfl) hfuel
    · exact .ok ⟨h, rfl⟩

theorem settle_agrees {filled : Quantity} {delta : Int} (h : Abreast D st st') :
    Agrees D (Abreast D) (settle s px st filled delta) (Core.settle s px st' filled delta) := by
  rw [settle, Core.settle]
  rcases hpl : (st'.book.levels s).find? px with _ | pl
  · rw [h.book.find?_none hpl]
    exact .error Fault.danglingRead
  obtain ⟨l, hl, hs⟩ := h.book.find? hpl
  simp only [hl]
  rw [PriceLevel.noteQtyDelta, Core.PriceLevel.noteQtyDelta, hs.totalQty]
  rcases i64 (toI64 pl.totalQty + delta) with e | x
  · exact .error e
  · refine .ok ⟨h.book.setTotal hl hpl _, ?_, h.out, ?_⟩
    · change { st.aggr with leavesQty := st.aggr.leavesQty - filled } = _
      rw [h.aggr]
    · change D ∨ (st'.book.modifyLevel s px _).index.lookup st'.aggr.key = none
      rw [Core.OrderBook.modifyLevel, Core.index_setLevels]
      exact h.free

theorem fillLevelFifo_agrees {l : PriceLevel} {pl : Core.PriceLevel} {available : Quantity}
    (h : Abreast D st st') (hpl : (st'.book.levels s).find? px = some pl)
    (hs : Shown st.book.heap l pl) :
    Agrees D (Abreast D) (fillLevelFifo s px l available st)
      (Core.fillLevelFifo s px pl available st') := by
  have hfuel := @length_nodesAt_le D st'.book s px h.book.tidy
  rw [nodesAt_of_find? hpl, ← h.book.next_eq] at hfuel
  rw [fillLevelFifo, Core.fillLevelFifo, hs.head_eq]
  refine (fifoLoop_agrees h [] (nodesAt_of_find? hpl) hfuel).bind ?_
  rintro ⟨st₁, filled, δ⟩ ⟨st₁', filled', δ'⟩ ⟨h₁, heq⟩
  obtain ⟨rfl, rfl⟩ := Prod.mk.inj heq
  exact settle_agrees h₁

theorem fillLevelProrata_agrees {l : PriceLevel} {pl : Core.PriceLevel} {available : Quantity}
    (h : Abreast D st st') (hpl : (st'.book.levels s).find? px = some pl)
    (hs : Shown st.book.heap l pl) :
    Agrees D (Abreast D) (fillLevelProrata s px l available st)
      (Core.fillLevelProrata s px pl available st') := by
  have hfuel := @length_nodesAt_le D st'.book s px h.book.tidy
  rw [nodesAt_of_find? hpl, ← h.book.next_eq] at hfuel
  rw [fillLevelProrata, Core.fillLevelProrata, hs.head_eq]
  refine (snapshot_agrees h.book [] (nodesAt_of_find? hpl) hfuel).bind ?_
  rintro ⟨slots, total⟩ - rfl
  dsimp only
  split
  · exact .ok h
  refine (applySlots_agrees h).bind ?_
  rintro ⟨st₁, filled, δ⟩ ⟨st₁', filled', δ'⟩ ⟨h₁, heq⟩
  obtain ⟨rfl, rfl⟩ := Prod.mk.inj heq
  exact settle_agrees h₁

theorem onLevel_agrees (algo : MatchAlgo) (s : BookSide) (px : Price) (st : MatchState)
    (st' : Core.MatchState) (h : Abreast D st st') :
    Agrees D (fun r r' => r.1 = r'.1 ∧ Abreast D r.2 r'.2) (onLevel algo s px st)
      (Core.onLevel algo s px st') := by
  rw [onLevel, Core.onLevel, h.aggr]
  split
  · exact .ok ⟨rfl, h⟩
  split
  · exact .ok ⟨rfl, h⟩
  rcases hpl : (st'.book.levels s).find? px with _ | pl
  · rw [h.book.find?_none hpl]
    exact .error Fault.danglingRead
  obtain ⟨l, hl, hs⟩ := h.book.find? hpl
  simp only [hl]
  have hdone : ∀ a a', Abreast D a a' → Agrees D (fun r r' => r.1 = r'.1 ∧ Abreast D r.2 r'.2)
      (.ok (decide (a.aggr.leavesQty > 0), a)) (.ok (decide (a'.aggr.leavesQty > 0), a')) :=
    fun a a' ha => .ok ⟨by rw [ha.aggr], ha⟩
  cases algo with
  | proRata => exact (fillLevelProrata_agrees h hpl hs).bind hdone
  | fifo => exact (fillLevelFifo_agrees h hpl hs).bind hdone

/-- **The sweep of a level.** -/
theorem sweepQueue_agrees (h : Mirrors D nb b) (pre : List Ptr)
    (hnodes : b.nodesAt s px = pre ++ ps) (hfuel : ps.length ≤ fuel) :
    Agrees D
      (fun nb' b' => Mirrors D nb' b' ∧ ∀ k, b.index.lookup k = none → b'.index.lookup k = none)
      (sweepQueue fuel ps.head? nb) (Core.sweepQueue ps b) := by
  induction ps generalizing pre fuel nb b with
  | nil =>
    cases fuel <;> exact .ok ⟨h, fun _ hk => hk⟩
  | cons p ps ih =>
    obtain ⟨fuel, rfl⟩ := Nat.exists_eq_add_one.mpr (Nat.lt_of_lt_of_le (Nat.succ_pos _) hfuel)
    have hfuel := Nat.le_of_succ_le_succ hfuel
    rw [List.head?_cons, sweepQueue, Core.sweepQueue]
    rcases hp : b.heap.cells p with _ | o
    · rw [(deref_none h hp).1, (deref_none h hp).2]
      exact .error Fault.danglingRead
    rw [h.deref_eq hp, h.linkAt_next hnodes hp, deref_of_cell hp]
    change Agrees D _ (if _ then _ else _) (if _ then _ else _)
    split
    · rw [OrderBook.remove, Core.OrderBook.remove, h.deref_eq hp, deref_of_cell hp]
      change Agrees D _ ((nb.unlinkAt p o >>= fun nb' => .ok (nb'.eraseKey o.key)) >>= _)
        (Core.sweepQueue ps (b.drop p o))
      have hlk := h.tidy.indexed p o hp
      have hnodes' : (b.drop p o).nodesAt s px = pre ++ ps := by
        obtain ⟨rfl, rfl⟩ := h.tidy.placed s px p (by rw [hnodes]; simp) o hp
        have hnd := h.tidy.nodup o.side.book o.price
        rw [hnodes] at hnd
        have hpre : p ∉ pre := fun hmem =>
          (List.nodup_append.mp hnd).2.2 p hmem p (List.mem_cons_self ..) rfl
        rw [nodesAt_drop hlk, if_pos ⟨rfl, rfl⟩, hnodes, List.erase_append_right _ hpre,
          List.erase_cons_head]
      refine (h.drop hp).bind_of_ok fun nb₁ h₁ => (ih h₁ pre hnodes' hfuel).mono ?_
      rintro nb' b' ⟨h', hkeys⟩
      refine ⟨h', fun k hk => hkeys k ?_⟩
      rw [lookup_drop hlk, hk, ite_self]
    · exact ih h (pre ++ [p]) (by simp [hnodes]) hfuel

theorem sweepLevel_agrees (s : BookSide) (px : Price) (st : MatchState) (st' : Core.MatchState)
    (h : Abreast D st st') :
    Agrees D (fun r r' => r.1 = r'.1 ∧ Abreast D r.2 r'.2) (sweepLevel s px st)
      (Core.sweepLevel s px st') := by
  rw [sweepLevel, Core.sweepLevel]
  rcases hpl : (st'.book.levels s).find? px with _ | pl
  · rw [h.book.find?_none hpl]
    exact .error Fault.danglingRead
  obtain ⟨l, hl, hs⟩ := h.book.find? hpl
  have hfuel := @length_nodesAt_le D st'.book s px h.book.tidy
  rw [nodesAt_of_find? hpl, ← h.book.next_eq] at hfuel
  simp only [hl]
  rw [hs.head_eq]
  exact (sweepQueue_agrees h.book [] (nodesAt_of_find? hpl) hfuel).bind fun nb b hb =>
    .ok ⟨rfl, hb.1, h.aggr, h.out, h.free.imp_right (hb.2 _)⟩

/-! ## Walks -/

/-- **A walk agrees where its callbacks do.** -/
theorem walkFrom_agrees {fn : Price → MatchState → Except Halt (Bool × MatchState)}
    {fn' : Price → Core.MatchState → Except Fault (Bool × Core.MatchState)}
    (hfn : ∀ px st st', Abreast D st st' →
      Agrees D (fun r r' => r.1 = r'.1 ∧ Abreast D r.2 r'.2) (fn px st) (fn' px st'))
    {prices : List Price} (h : Abreast D st st') :
    Agrees D (Abreast D) (OrderBook.walkFrom s fn prices st)
      (Core.OrderBook.walkFrom s fn' prices st') := by
  -- an empty level is erased on both sides
  have herase : ∀ {a a' px} {pl : Core.PriceLevel}, Abreast D a a' →
      (a'.book.levels s).find? px = some pl → pl.empty = true →
      Abreast D { a with book := a.book.setLevels s ((a.book.levels s).erase px) }
        { a' with book := a'.book.setLevels s ((a'.book.levels s).erase px) } :=
    fun ha hpl hempty => ⟨ha.book.erase hpl hempty, ha.aggr, ha.out, by
      rw [Core.index_setLevels]
      exact ha.free⟩
  induction prices generalizing st st' with
  | nil => exact .ok h
  | cons px prices ih =>
    rw [OrderBook.walkFrom, Core.OrderBook.walkFrom]
    rcases hpl : (st'.book.levels s).find? px with _ | pl
    · rw [h.book.find?_none hpl]
      exact .error Fault.danglingRead
    obtain ⟨l, hl, hs⟩ := h.book.find? hpl
    simp only [hl, hs.empty_eq]
    split
    · exact ih (herase h hpl ‹_›)
    refine (hfn px st st' h).bind ?_
    rintro ⟨go, st₁⟩ ⟨go', st₁'⟩ ⟨rfl, h₁⟩
    dsimp only at h₁ ⊢
    split
    · exact .ok h₁
    rcases hpl₁ : (st₁'.book.levels s).find? px with _ | pl₁
    · rw [h₁.book.find?_none hpl₁]
      exact .error Fault.danglingRead
    obtain ⟨l₁, hl₁, hs₁⟩ := h₁.book.find? hpl₁
    simp only [hl₁, hs₁.empty_eq]
    split
    · exact ih (herase h₁ hpl₁ ‹_›)
    · exact ih h₁

theorem walk_agrees {fn : Price → MatchState → Except Halt (Bool × MatchState)}
    {fn' : Price → Core.MatchState → Except Fault (Bool × Core.MatchState)}
    (hfn : ∀ px st st', Abreast D st st' →
      Agrees D (fun r r' => r.1 = r'.1 ∧ Abreast D r.2 r'.2) (fn px st) (fn' px st'))
    (h : Abreast D st st') :
    Agrees D (Abreast D) (OrderBook.walk s fn st) (Core.OrderBook.walk s fn' st') := by
  rw [OrderBook.walk, Core.OrderBook.walk, h.book.keys]
  exact walkFrom_agrees hfn h

/-! ## Calls -/

theorem submit_eq {algo : MatchAlgo} :
    submit algo nb o = do
      let st ← OrderBook.walk o.side.book.opposite (onLevel algo o.side.book.opposite)
        ⟨nb, o, [.ack ⟨o.id, o.clordId⟩]⟩
      let st ← OrderBook.walk o.side.book.opposite (sweepLevel o.side.book.opposite) st
      if st.aggr.leavesQty > 0 then do
        let b ← st.book.rest st.aggr
        return (b, st.out)
      else return (st.book, st.out) := by
  obtain ⟨id, session, clordId, side, price, origQty, leavesQty⟩ := o
  cases side <;> rfl

/-- **A submit over nodes is the submit over queues**, or meets a dead
node. -/
theorem submit_agrees {algo : MatchAlgo} (h : Mirrors D nb b)
    (hk : D ∨ b.index.lookup o.key = none) :
    Agrees D (fun r r' => Mirrors D r.1 r'.1 ∧ r.2 = r'.2) (submit algo nb o)
      (Core.submit algo b o) := by
  rw [submit_eq, Core.submit_eq]
  have hstart : Abreast D ⟨nb, o, [.ack ⟨o.id, o.clordId⟩]⟩ ⟨b, o, [.ack ⟨o.id, o.clordId⟩]⟩ :=
    ⟨h, rfl, rfl, hk⟩
  refine (walk_agrees (onLevel_agrees algo o.side.book.opposite) hstart).bind
    fun st₁ st₁' h₁ => ?_
  refine (walk_agrees (sweepLevel_agrees o.side.book.opposite) h₁).bind fun st₂ st₂' h₂ => ?_
  rw [h₂.aggr, h₂.out]
  split
  · exact (h₂.book.rest h₂.free).bind_of_ok fun nb' h' => .ok ⟨h', rfl⟩
  · exact .ok ⟨h₂.book, rfl⟩

theorem cancel_agrees (h : Mirrors D nb b) (sess : SessionId) (clord : ClOrdID) :
    Agrees D (fun r r' => r.1 = r'.1 ∧ Mirrors D r.2 r'.2) (nb.cancel sess clord)
      (b.cancel sess clord) := by
  rw [OrderBook.cancel, Core.OrderBook.cancel, h.index]
  dsimp only
  rcases hk : b.index.lookup (⟨sess, clord.value⟩ : IndexKey) with _ | p
  · exact .ok ⟨rfl, h⟩
  obtain ⟨o, ho, hkey⟩ := h.tidy.owned _ _ hk
  simp only [h.deref_eq ho, deref_of_cell ho, ← hkey]
  have hsplit : (nb.unlinkAt p o >>= fun nb' =>
      (.ok ((⟨true, []⟩ : CancelResult), nb'.eraseKey o.key) : Except Halt _)) =
      (nb.unlinkAt p o >>= fun nb' => .ok (nb'.eraseKey o.key)) >>= fun nb' =>
        .ok (⟨true, []⟩, nb') := by
    cases nb.unlinkAt p o <;> rfl
  change Agrees D _ (nb.unlinkAt p o >>= fun nb' =>
    .ok ((⟨true, []⟩ : CancelResult), nb'.eraseKey o.key))
    (.ok ((⟨true, []⟩ : CancelResult), b.drop p o))
  rw [hsplit]
  exact (h.drop ho).bind_of_ok fun nb' h' => .ok ⟨rfl, h'⟩

end Loops

end Linked

end Core

end OrderbookFix
