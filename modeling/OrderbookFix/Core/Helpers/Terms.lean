import OrderbookFix.Core.Helpers.Levels
/-!
# What a submit keeps of every order

Matching writes leaves and nothing else, a sweep only frees, and what
rests is the order handed in. This holds of any book, also one whose
index has lost an order to a reused key, so no representation is assumed:
`Follows` says what any step of a submit may do, and every step is shown
to be in it.
-/

namespace OrderbookFix

namespace Core

/-- An order but for what is open of it. -/
def Order.terms (o : Order) : Order := { o with leavesQty := 0 }

theorem Order.of_terms_eq {o r : Order} (h : o.terms = r.terms) :
    o.origQty = r.origQty ∧ o.price = r.price ∧ o.side = r.side := by
  have hqty : o.terms.origQty = r.terms.origQty := by rw [h]
  have hprice : o.terms.price = r.terms.price := by rw [h]
  have hside : o.terms.side = r.terms.side := by rw [h]
  exact ⟨hqty, hprice, hside⟩

/-- **What a step of a submit may do**: nothing is allocated, an order
keeps its terms or is freed, the aggressor keeps its terms, and trades
are put out. -/
structure Follows (st st' : MatchState) : Prop where
  next : st'.book.heap.next = st.book.heap.next
  cells : ∀ p r, st'.book.heap.cells p = some r →
    ∃ r₀, st.book.heap.cells p = some r₀ ∧ r.terms = r₀.terms
  aggr : st'.aggr.terms = st.aggr.terms
  out : ∃ ts : List Trade, st'.out = st.out ++ ts.map .trade

namespace Follows

variable {st st₁ st' : MatchState}

theorem refl (st : MatchState) : Follows st st :=
  ⟨rfl, fun _ r hr => ⟨r, hr, rfl⟩, rfl, [], (List.append_nil _).symm⟩

theorem trans (h : Follows st st₁) (h' : Follows st₁ st') : Follows st st' where
  next := h'.next.trans h.next
  cells p r hr := by
    obtain ⟨r₁, hr₁, ht₁⟩ := h'.cells p r hr
    obtain ⟨r₀, hr₀, ht₀⟩ := h.cells p r₁ hr₁
    exact ⟨r₀, hr₀, ht₁.trans ht₀⟩
  aggr := h'.aggr.trans h.aggr
  out := by
    obtain ⟨ts, hts⟩ := h.out
    obtain ⟨ts', hts'⟩ := h'.out
    exact ⟨ts ++ ts', by rw [hts', hts, List.map_append, List.append_assoc]⟩

/-- A step that only frees nodes and changes levels. -/
theorem of_cells (hnext : st'.book.heap.next = st.book.heap.next)
    (hcells : ∀ p r, st'.book.heap.cells p = some r → st.book.heap.cells p = some r)
    (haggr : st'.aggr.terms = st.aggr.terms) (hout : st'.out = st.out) : Follows st st' where
  next := hnext
  cells p r hr := ⟨r, hcells p r hr, rfl⟩
  aggr := haggr
  out := ⟨[], hout.trans (List.append_nil _).symm⟩

/-- A step that only changes levels. -/
theorem of_heap (hheap : st'.book.heap = st.book.heap) (haggr : st'.aggr.terms = st.aggr.terms)
    (hout : st'.out = st.out) : Follows st st' :=
  of_cells (by rw [hheap]) (fun p r hr => by rwa [hheap] at hr) haggr hout

end Follows

section Steps

variable {s : BookSide} {px : Price} {st st' : MatchState}

theorem cell_of_deref {b : OrderBook} {p : Ptr} {o : Order} (h : b.deref p = .ok o) :
    b.heap.cells p = some o := by
  rw [OrderBook.deref] at h
  split at h
  · rename_i o' ho'
    rw [ho', Except.ok.inj h]
  · cases h

/-- One fill. -/
theorem follows_fill {p : Ptr} {o : Order} {q : Quantity} (h : st.book.deref p = .ok o) :
    Follows st { st with
      out := emitTrade st.out st.aggr o px q
      book := { st.book with
        heap := st.book.heap.write p { o with leavesQty := o.leavesQty - q } } } where
  next := rfl
  cells p' r hr := by
    by_cases hp : p' = p
    · subst hp
      have hcell := cell_of_deref h
      dsimp only at hr
      rw [Heap.write_self _ hcell] at hr
      exact ⟨o, hcell, by rw [← Option.some.inj hr]; rfl⟩
    · dsimp only at hr
      rw [Heap.write_of_ne _ hp] at hr
      exact ⟨r, hr, rfl⟩
  aggr := rfl
  out := ⟨[trade st.aggr o px q], rfl⟩

theorem applySlots_follows {slots : List Slot} {filled filled' : Quantity} {δ δ' : Int}
    (h : applySlots px slots st filled δ = .ok (st', filled', δ')) : Follows st st' := by
  induction slots generalizing st filled δ with
  | nil =>
    obtain ⟨rfl, -⟩ := Prod.mk.inj (Except.ok.inj h)
    exact .refl _
  | cons a slots ih =>
    rw [applySlots] at h
    split at h
    · exact ih h
    · obtain ⟨o, ho, h⟩ := exists_of_bind_eq_ok h
      obtain ⟨δ₁, -, h⟩ := exists_of_bind_eq_ok h
      exact (follows_fill ho).trans (ih h)

theorem fifoLoop_follows {available : Quantity} {ps : List Ptr} {filled filled' : Quantity}
    {δ δ' : Int} (h : fifoLoop px available ps st filled δ = .ok (st', filled', δ')) :
    Follows st st' := by
  induction ps generalizing st filled δ with
  | nil =>
    obtain ⟨rfl, -⟩ := Prod.mk.inj (Except.ok.inj h)
    exact .refl _
  | cons p ps ih =>
    rw [fifoLoop] at h
    split at h
    · obtain ⟨o, ho, h⟩ := exists_of_bind_eq_ok h
      dsimp only at h
      split at h
      · exact ih h
      · obtain ⟨δ₁, -, h⟩ := exists_of_bind_eq_ok h
        exact (follows_fill ho).trans (ih h)
    · obtain ⟨rfl, -⟩ := Prod.mk.inj (Except.ok.inj h)
      exact .refl _

theorem settle_follows {filled : Quantity} {δ : Int} (h : settle s px st filled δ = .ok st') :
    Follows st st' := by
  rw [settle] at h
  split at h
  · cases h
  · obtain ⟨level, -, h⟩ := exists_of_bind_eq_ok h
    obtain rfl := Except.ok.inj h
    exact .of_heap (by rw [OrderBook.modifyLevel, heap_setLevels]) rfl rfl

theorem fillLevelProrata_follows {level : PriceLevel} {available : Quantity}
    (h : fillLevelProrata s px level available st = .ok st') : Follows st st' := by
  obtain ⟨⟨slots, total⟩, -, h⟩ := exists_of_bind_eq_ok h
  dsimp only at h
  split at h
  · obtain rfl := Except.ok.inj h
    exact .refl _
  · obtain ⟨⟨st₁, filled, δ⟩, hslots, h⟩ := exists_of_bind_eq_ok h
    exact (applySlots_follows hslots).trans (settle_follows h)

theorem fillLevelFifo_follows {level : PriceLevel} {available : Quantity}
    (h : fillLevelFifo s px level available st = .ok st') : Follows st st' := by
  obtain ⟨⟨st₁, filled, δ⟩, hloop, h⟩ := exists_of_bind_eq_ok h
  exact (fifoLoop_follows hloop).trans (settle_follows h)

theorem onLevel_follows {algo : MatchAlgo} {go : Bool} (h : onLevel algo s px st = .ok (go, st')) :
    Follows st st' := by
  rw [onLevel] at h
  split at h
  · obtain ⟨-, rfl⟩ := Prod.mk.inj (Except.ok.inj h)
    exact .refl _
  split at h
  · obtain ⟨-, rfl⟩ := Prod.mk.inj (Except.ok.inj h)
    exact .refl _
  split at h
  · cases h
  · cases algo with
    | proRata =>
      obtain ⟨st₁, hfill, h⟩ := exists_of_bind_eq_ok h
      obtain ⟨-, rfl⟩ := Prod.mk.inj (Except.ok.inj h)
      exact fillLevelProrata_follows hfill
    | fifo =>
      obtain ⟨st₁, hfill, h⟩ := exists_of_bind_eq_ok h
      obtain ⟨-, rfl⟩ := Prod.mk.inj (Except.ok.inj h)
      exact fillLevelFifo_follows hfill

theorem eraseKey_cells {b : OrderBook} {k : IndexKey} :
    (b.eraseKey k).heap.next = b.heap.next ∧
      ∀ p r, (b.eraseKey k).heap.cells p = some r → b.heap.cells p = some r := by
  rw [OrderBook.eraseKey]
  split
  · exact ⟨rfl, fun _ _ hr => hr⟩
  · rename_i q _
    refine ⟨rfl, fun p r hr => ?_⟩
    by_cases hp : p = q
    · rw [hp, Heap.free_self] at hr
      cases hr
    · rwa [Heap.free_of_ne _ hp] at hr

theorem sweepQueue_cells {ps : List Ptr} {b b' : OrderBook} (h : sweepQueue ps b = .ok b') :
    b'.heap.next = b.heap.next ∧ ∀ p r, b'.heap.cells p = some r → b.heap.cells p = some r := by
  induction ps generalizing b with
  | nil =>
    obtain rfl := Except.ok.inj h
    exact ⟨rfl, fun _ _ hr => hr⟩
  | cons p ps ih =>
    obtain ⟨o, -, h⟩ := exists_of_bind_eq_ok h
    split at h
    · -- the key may own another node by now; whichever is freed, none comes to hold anything
      obtain ⟨b₁, hremove, h⟩ := exists_of_bind_eq_ok h
      obtain ⟨o', -, hremove⟩ := exists_of_bind_eq_ok hremove
      obtain rfl := Except.ok.inj hremove
      obtain ⟨hnext, hcells⟩ := ih h
      obtain ⟨hnext', hcells'⟩ := @eraseKey_cells
        (b.modifyLevel o'.side.book o'.price (·.unlink p o')) o'.key
      rw [OrderBook.modifyLevel, heap_setLevels] at hnext' hcells'
      exact ⟨hnext.trans hnext', fun q r hr => hcells' q r (hcells q r hr)⟩
    · exact ih h

theorem sweepLevel_follows {go : Bool} (h : sweepLevel s px st = .ok (go, st')) :
    Follows st st' := by
  rw [sweepLevel] at h
  split at h
  · cases h
  · obtain ⟨b, hsweep, h⟩ := exists_of_bind_eq_ok h
    obtain ⟨-, rfl⟩ := Prod.mk.inj (Except.ok.inj h)
    obtain ⟨hnext, hcells⟩ := sweepQueue_cells hsweep
    exact .of_cells hnext hcells rfl rfl

/-- **A walk follows where its callback does.** -/
theorem walkFrom_follows {fn : Price → MatchState → Except Fault (Bool × MatchState)}
    (hfn : ∀ px st go st', fn px st = .ok (go, st') → Follows st st') {ps : List Price}
    (h : OrderBook.walkFrom s fn ps st = .ok st') : Follows st st' := by
  have herase : ∀ (st : MatchState) px,
      Follows st { st with book := st.book.setLevels s ((st.book.levels s).erase px) } :=
    fun st px => .of_heap heap_setLevels rfl rfl
  induction ps generalizing st with
  | nil =>
    obtain rfl := Except.ok.inj h
    exact .refl _
  | cons p ps ih =>
    rw [OrderBook.walkFrom] at h
    split at h
    · cases h
    split at h
    · exact (herase st p).trans (ih h)
    obtain ⟨⟨go, st₁⟩, hgo, h⟩ := exists_of_bind_eq_ok h
    refine (hfn p st go st₁ hgo).trans ?_
    dsimp only at h
    split at h
    · obtain rfl := Except.ok.inj h
      exact .refl _
    split at h
    · cases h
    split at h
    · exact (herase st₁ p).trans (ih h)
    · exact ih h

end Steps

/-! ## A submit -/

section Submit

variable {algo : MatchAlgo} {b b' : OrderBook} {o : Order} {evs : EventList}

/-- **A submit on any book**: its steps are followed, and what is left of
the order rests. -/
theorem submit_follows (h : submit algo b o = .ok (b', evs)) :
    ∃ st, Follows ⟨b, o, [.ack ⟨o.id, o.clordId⟩]⟩ st ∧ evs = st.out ∧
      (b' = st.book.rest st.aggr ∨ b' = st.book) := by
  rw [submit_eq] at h
  obtain ⟨st₁, hmatch, h⟩ := exists_of_bind_eq_ok h
  obtain ⟨st₂, hsweep, h⟩ := exists_of_bind_eq_ok h
  refine ⟨st₂, (walkFrom_follows (fun _ _ _ _ => onLevel_follows) hmatch).trans
    (walkFrom_follows (fun _ _ _ _ => sweepLevel_follows) hsweep), ?_⟩
  split at h
  · obtain ⟨rfl, rfl⟩ := Prod.mk.inj (Except.ok.inj h)
    exact ⟨rfl, .inl rfl⟩
  · obtain ⟨rfl, rfl⟩ := Prod.mk.inj (Except.ok.inj h)
    exact ⟨rfl, .inr rfl⟩

/-- **What a submit says**: it acknowledges the order and reports trades. -/
theorem events_submit (h : submit algo b o = .ok (b', evs)) :
    ∃ ts : List Trade, evs = .ack ⟨o.id, o.clordId⟩ :: ts.map .trade := by
  obtain ⟨st, hst, rfl, -⟩ := submit_follows h
  exact hst.out

/-- **What a submit books**: a node of the book was there with the same
terms, or is new and has the terms of the order. -/
theorem terms_submit (h : submit algo b o = .ok (b', evs)) {p : Ptr} {r : Order}
    (hr : b'.heap.cells p = some r) :
    (∃ r₀, b.heap.cells p = some r₀ ∧ r.terms = r₀.terms) ∨
      p = b.heap.next ∧ r.terms = o.terms := by
  obtain ⟨st, hst, -, rfl | rfl⟩ := submit_follows h
  · rw [cells_rest, hst.next] at hr
    by_cases hp : p = b.heap.next
    · rw [if_pos hp] at hr
      split at hr
      · exact .inr ⟨hp, by rw [← Option.some.inj hr]; exact hst.aggr⟩
      · cases hr
    · rw [if_neg hp] at hr
      exact .inl (hst.cells p r hr)
  · exact .inl (hst.cells p r hr)

end Submit

end Core

end OrderbookFix
