import OrderbookFix.Core.Helpers.RepStep
/-!
# The matcher, over values

The walk that matches and the walk that sweeps, each read level by level
on the represented ladder, and from them `submit` and `cancel`. A call on
a represented book either does what the value-level call does or runs
into a signed overflow; it never reads a dead node.
-/

namespace OrderbookFix

namespace Core

/-- The signed arithmetic of one level's fills stays in range. -/
def LevelDefined (os : List Order) (fs : List Quantity) : Prop :=
  ∃ d x, deltaFold 0 fs = .ok d ∧ i64 (toI64 (os.map Order.leavesQty).sum + d) = .ok x

/-- The signed arithmetic of every level a match fills stays in range. -/
def MatchDefined (algo : MatchAlgo) : Ladder → Order → Prop
  | [], _ => True
  | (px, os) :: rest, aggr =>
    if os = [] then MatchDefined algo rest aggr
    else if aggr.leavesQty = 0 ∨ !crosses aggr.side aggr.price px then True
    else
      LevelDefined os (fillsAt algo aggr os) ∧
        ((aggr.fill (fillsAt algo aggr os).sum).leavesQty = 0 ∨
          MatchDefined algo rest (aggr.fill (fillsAt algo aggr os).sum))

theorem length_fillsAt {algo : MatchAlgo} {aggr : Order} {os : List Order} :
    (fillsAt algo aggr os).length = os.length := by
  cases algo <;> simp [fillsAt, fills]

theorem i64_eq_error {x : Int} {e : Fault} (h : i64 x = .error e) : e = .signedOverflow := by
  unfold i64 at h
  split at h
  · cases h
  · exact (Except.error.inj h).symm

theorem deltaFold_eq_error {d : Int} {fs : List Quantity} {e : Fault}
    (h : deltaFold d fs = .error e) : e = .signedOverflow := by
  induction fs generalizing d with
  | nil => cases h
  | cons f fs ih =>
    rw [deltaFold] at h
    split at h
    · exact ih h
    · rcases hi : i64 (d - toI64 f) with e' | x
      · rw [hi] at h
        rw [← i64_eq_error hi]
        exact (Except.error.inj h).symm
      · rw [hi] at h
        exact ih h

section Level

variable (algo : MatchAlgo) {s : BookSide} {px : Price} {st : MatchState}
variable {pre post : Ladder} {os : List Order}

/-- The callback on a level it fills. -/
theorem onLevel_eq {l : PriceLevel} (hfind : (st.book.levels s).find? px = some l)
    (hnd : l.queue.Nodup) (hl : LevelRep st.book.heap l os) (hq : st.aggr.leavesQty ≠ 0)
    (hc : crosses st.aggr.side st.aggr.price px = true) :
    onLevel algo s px st =
      (deltaFold 0 (fillsAt algo st.aggr os) >>= fun δ =>
        settle s px (st.applyFills px l.queue os (fillsAt algo st.aggr os))
          (fillsAt algo st.aggr os).sum δ) >>=
        fun st' => .ok (decide (st'.aggr.leavesQty > 0), st') := by
  rw [onLevel, if_neg hq, hc, hfind]
  cases algo with
  | proRata =>
    simp only [fillLevelProrata_eq hnd hl.queue hfind]
    rfl
  | fifo =>
    simp only [fillLevelFifo_eq hnd hl.queue]
    rfl

/-- **One level filled**: in range it does the value-level fill, out of
range it is a signed overflow. -/
theorem onLevel_fill (h : Shows st.book s (pre ++ (px, os) :: post))
    (hq : st.aggr.leavesQty ≠ 0) (hc : crosses st.aggr.side st.aggr.price px = true) :
    (LevelDefined os (fillsAt algo st.aggr os) ∧
      ∃ st', onLevel algo s px st = .ok (decide (st'.aggr.leavesQty > 0), st') ∧
        Shows st'.book s (pre ++ (px, fillQueue os (fillsAt algo st.aggr os)) :: post) ∧
        Framed s st.book st'.book ∧ st'.aggr = st.aggr.fill (fillsAt algo st.aggr os).sum ∧
        st'.out = st.out ++ (tradesOf st.aggr px os (fillsAt algo st.aggr os)).map .trade) ∨
    (¬ LevelDefined os (fillsAt algo st.aggr os) ∧
      onLevel algo s px st = .error .signedOverflow) := by
  obtain ⟨es, gs, l, hsplit, -, hl, -⟩ := levels_split h.levels
  have hfind := OrderedMap.find?_of_split hsplit
  rw [onLevel_eq algo hfind (nodup_queue h.nodup hsplit) hl hq hc]
  set fs := fillsAt algo st.aggr os with hfs
  have hfind' : ((st.applyFills px l.queue os fs).book.levels s).find? px = some l := by
    cases s <;> exact hfind
  -- Two signed sums can overflow: the delta over the fills, and the total it is added to.
  rcases hdelta : deltaFold 0 fs with e | δ
  · refine .inr ⟨?_, by rw [deltaFold_eq_error hdelta]; rfl⟩
    rintro ⟨d', x, hd', -⟩
    rw [hdelta] at hd'
    cases hd'
  have hsettle := settle_eq hfind' fs.sum δ
  rw [hl.total] at hsettle
  rcases hi : i64 (toI64 (os.map Order.leavesQty).sum + δ) with e | x
  · refine .inr ⟨?_, ?_⟩
    · rintro ⟨d', x, hd', hx⟩
      rw [hdelta] at hd'
      obtain rfl := Except.ok.inj hd'
      rw [hi] at hx
      cases hx
    · rw [hi] at hsettle
      simp only [bind, Except.bind, hsettle, i64_eq_error hi]
      rfl
  · rw [hi] at hsettle
    obtain ⟨hshows, hframed⟩ := h.fillLevel hfind length_fillsAt hdelta hsettle
    refine .inl ⟨⟨δ, x, hdelta, hi⟩, _, ?_, hshows, hframed, rfl, rfl⟩
    simp only [bind, Except.bind, hsettle]
    rfl

end Level

/-! ## Steps of a walk -/

/-- The state with a price taken off a ladder. -/
def MatchState.without (st : MatchState) (s : BookSide) (px : Price) : MatchState :=
  { st with book := st.book.setLevels s ((st.book.levels s).erase px) }

theorem MatchState.aggr_without {st : MatchState} {s : BookSide} {px : Price} :
    (st.without s px).aggr = st.aggr := rfl

theorem MatchState.out_without {st : MatchState} {s : BookSide} {px : Price} :
    (st.without s px).out = st.out := rfl

section Walk

variable {s : BookSide} {fn : Price → MatchState → Except Fault (Bool × MatchState)}
variable {px : Price} {ps : List Price} {st st' : MatchState}
variable {pre post pre' post' : Ladder} {os os' : List Order}

/-- An empty level is erased on the way. -/
theorem walkFrom_empty (h : Shows st.book s (pre ++ (px, []) :: post)) :
    OrderBook.walkFrom s fn (px :: ps) st = OrderBook.walkFrom s fn ps (st.without s px) := by
  obtain ⟨es, gs, l, hsplit, -, hl, -⟩ := levels_split h.levels
  rw [OrderBook.walkFrom]
  simp only [OrderedMap.find?_of_split hsplit]
  rw [if_pos (hl.empty_iff.mpr rfl)]
  rfl

/-- The callback sees a level that is not empty. -/
theorem walkFrom_level (h : Shows st.book s (pre ++ (px, os) :: post)) (hos : os ≠ [])
    {r : Except Fault (Bool × MatchState)} (hfn : fn px st = r) :
    OrderBook.walkFrom s fn (px :: ps) st = r >>= fun p =>
      if !p.1 then .ok p.2
      else match (p.2.book.levels s).find? px with
        | none => .error .danglingRead
        | some level =>
          if level.empty then OrderBook.walkFrom s fn ps (p.2.without s px)
          else OrderBook.walkFrom s fn ps p.2 := by
  obtain ⟨es, gs, l, hsplit, -, hl, -⟩ := levels_split h.levels
  rw [OrderBook.walkFrom]
  simp only [OrderedMap.find?_of_split hsplit]
  rw [if_neg fun he => hos (hl.empty_iff.mp he), hfn]
  rfl

/-- The callback stops the walk. -/
theorem walkFrom_stop (h : Shows st.book s (pre ++ (px, os) :: post)) (hos : os ≠ [])
    (hfn : fn px st = .ok (false, st')) :
    OrderBook.walkFrom s fn (px :: ps) st = .ok st' := by
  rw [walkFrom_level h hos hfn]
  rfl

/-- The callback goes on, and leaves a level that is not empty. -/
theorem walkFrom_go (h : Shows st.book s (pre ++ (px, os) :: post)) (hos : os ≠ [])
    (hfn : fn px st = .ok (true, st')) (h' : Shows st'.book s (pre' ++ (px, os') :: post'))
    (hos' : os' ≠ []) :
    OrderBook.walkFrom s fn (px :: ps) st = OrderBook.walkFrom s fn ps st' := by
  obtain ⟨es, gs, l, hsplit, -, hl, -⟩ := levels_split h'.levels
  rw [walkFrom_level h hos hfn]
  change (match (st'.book.levels s).find? px with
    | none => _
    | some level => if level.empty then _ else OrderBook.walkFrom s fn ps st') = _
  rw [OrderedMap.find?_of_split hsplit]
  exact if_neg fun he => hos' (hl.empty_iff.mp he)

/-- The callback goes on, and leaves an empty level. -/
theorem walkFrom_go_empty (h : Shows st.book s (pre ++ (px, os) :: post)) (hos : os ≠ [])
    (hfn : fn px st = .ok (true, st')) (h' : Shows st'.book s (pre' ++ (px, []) :: post')) :
    OrderBook.walkFrom s fn (px :: ps) st = OrderBook.walkFrom s fn ps (st'.without s px) := by
  obtain ⟨es, gs, l, hsplit, -, hl, -⟩ := levels_split h'.levels
  rw [walkFrom_level h hos hfn]
  change (match (st'.book.levels s).find? px with
    | none => _
    | some level => if level.empty then OrderBook.walkFrom s fn ps (st'.without s px) else _) = _
  rw [OrderedMap.find?_of_split hsplit]
  exact if_pos (hl.empty_iff.mpr rfl)

end Walk

/-! ## The matching walk -/

theorem onLevel_stop {algo : MatchAlgo} {s : BookSide} {px : Price} {st : MatchState}
    (h : st.aggr.leavesQty = 0 ∨ !crosses st.aggr.side st.aggr.price px) :
    onLevel algo s px st = .ok (false, st) := by
  rw [onLevel]
  by_cases h0 : st.aggr.leavesQty = 0
  · rw [if_pos h0]
  · rw [if_neg h0, if_pos (h.resolve_left h0)]

theorem fillQueue_ne_nil {os : List Order} {fs : List Quantity} (hlen : fs.length = os.length)
    (hos : os ≠ []) : fillQueue os fs ≠ [] := by
  intro hnil
  have hcount := length_fillQueue hlen
  rw [hnil] at hcount
  exact hos (List.eq_nil_of_length_eq_zero hcount.symm)

/-- **The matching walk**, from a split of the ladder on. It reads and
changes one ladder: the other one and the index may hold anything. -/
theorem walk_match (algo : MatchAlgo) {s : BookSide} {post : Ladder} {pre : Ladder}
    {st : MatchState} (h : Shows st.book s (pre ++ post)) :
    (MatchDefined algo post st.aggr ∧
      ∃ st', OrderBook.walkFrom s (onLevel algo s) (post.map Prod.fst) st = .ok st' ∧
        Shows st'.book s (pre ++ (matchLadder algo post st.aggr).1) ∧
        Framed s st.book st'.book ∧ st'.aggr = (matchLadder algo post st.aggr).2.1 ∧
        st'.out = st.out ++ (matchLadder algo post st.aggr).2.2.map .trade) ∨
    (¬ MatchDefined algo post st.aggr ∧
      OrderBook.walkFrom s (onLevel algo s) (post.map Prod.fst) st = .error .signedOverflow) := by
  induction post generalizing pre st with
  | nil =>
    left
    exact ⟨trivial, st, rfl, h, .refl s st.book, rfl, by simp [matchLadder]⟩
  | cons a post ih =>
    obtain ⟨px, os⟩ := a
    rw [List.map_cons, matchLadder, MatchDefined]
    by_cases hos : os = []
    · subst hos
      rw [if_pos rfl, if_pos rfl, walkFrom_empty h]
      obtain ⟨hshows, hframed⟩ := h.eraseEmpty
      rcases @ih _ (st.without s px) hshows with
        ⟨hdef, st', hw, hshows', hframed', haggr, hout⟩ | herr
      · exact .inl ⟨hdef, st', hw, hshows', hframed.trans hframed', haggr, hout⟩
      · exact .inr herr
    rw [if_neg hos, if_neg hos]
    by_cases hstop : st.aggr.leavesQty = 0 ∨ !crosses st.aggr.side st.aggr.price px
    · -- the callback stops the walk before it changes anything
      rw [if_pos hstop, if_pos hstop, walkFrom_stop h hos (onLevel_stop hstop)]
      exact .inl ⟨trivial, st, rfl, h, .refl s st.book, rfl, by simp⟩
    rw [if_neg hstop, if_neg hstop]
    rw [not_or] at hstop
    have hc : crosses st.aggr.side st.aggr.price px = true := by simpa using hstop.2
    rcases onLevel_fill algo h hstop.1 hc with
      ⟨hdef, st', hfn, hshows, hframed, haggr, hout⟩ | ⟨hndef, hfn⟩
    · dsimp only
      rw [← haggr]
      by_cases h0 : st'.aggr.leavesQty = 0
      · -- the aggressor is used up: the walk stops here
        have hno : decide (st'.aggr.leavesQty > 0) = false := by rw [h0]; rfl
        rw [hno] at hfn
        rw [walkFrom_stop h hos hfn, if_pos h0]
        exact .inl ⟨⟨hdef, .inl h0⟩, st', rfl, hshows, hframed, rfl, hout⟩
      · -- the level is spent but not empty, and the walk goes on
        have hgo : decide (st'.aggr.leavesQty > 0) = true :=
          decide_eq_true (UInt64.pos_iff_ne_zero.mpr h0)
        rw [hgo] at hfn
        rw [walkFrom_go h hos hfn hshows (fillQueue_ne_nil length_fillsAt hos), if_neg h0]
        rw [← List.singleton_append, ← List.append_assoc] at hshows
        rcases ih hshows with ⟨hdef', st'', hw, hshows', hframed', haggr', hout'⟩ | ⟨hndef', hw⟩
        · refine .inl ⟨⟨hdef, .inr hdef'⟩, st'', hw, ?_, hframed.trans hframed', haggr', ?_⟩
          · rw [List.append_assoc, List.singleton_append] at hshows'
            exact hshows'
          · rw [hout', hout, List.map_append, List.append_assoc]
        · refine .inr ⟨?_, hw⟩
          rintro ⟨-, h0' | hdef'⟩
          · exact h0 h0'
          · exact hndef' hdef'
    · refine .inr ⟨fun hdef => hndef hdef.1, ?_⟩
      rw [walkFrom_level h hos hfn]
      rfl

/-! ## The sweep -/

/-- **The sweep of one queue** drops the exhausted orders still to visit
and keeps the rest in place. -/
theorem sweepQueue_spec {s : BookSide} {pt : List Ptr} {ot : List Order} {b : OrderBook}
    {d : Depth} {pre post : Ladder} {px : Price} {od : List Order} (h : Rep b d)
    (hd : d.ladder s = pre ++ (px, od ++ ot) :: post) (hcells : pt.map b.heap.cells = ot.map some)
    (hlinked : ∀ p ∈ pt, p ∈ b.linked) (hnd : pt.Nodup) :
    ∃ b', sweepQueue pt b = .ok b' ∧
      Rep b' (d.setLadder s
        (pre ++ (px, od ++ ot.filter fun o => o.leavesQty ≠ 0) :: post)) := by
  induction pt generalizing ot b d od with
  | nil =>
    have hot : ot = [] := by simpa using hcells.symm
    subst hot
    refine ⟨b, rfl, ?_⟩
    rw [List.filter_nil, ← hd, setLadder_ladder]
    exact h
  | cons p pt ih =>
    obtain _ | ⟨o, ot⟩ := ot
    · simp at hcells
    simp only [List.map_cons, List.cons.injEq] at hcells
    obtain ⟨hp, hps⟩ := hcells
    obtain ⟨hpt, hnd'⟩ := List.nodup_cons.mp hnd
    have hpl := hlinked p (List.mem_cons_self ..)
    rw [sweepQueue, deref_of_cell hp]
    simp only [bind, Except.bind]
    by_cases h0 : o.leavesQty = 0
    · -- exhausted: it goes from its level and from the index
      obtain ⟨hrep, hheap, hmem⟩ := h.drop hpl hp
      rw [cancel_of_split h.nodup_keys hd] at hrep
      have hremove : b.remove p = .ok (b.drop p o) := by
        rw [OrderBook.remove, deref_of_cell hp]
        rfl
      have hne : ∀ q ∈ pt, q ≠ p := fun q hq he => hpt (he ▸ hq)
      have hps' : pt.map (b.drop p o).heap.cells = ot.map some := by
        rw [hheap, ← hps]
        exact List.map_congr_left fun q hq => Heap.free_of_ne _ (hne q hq)
      obtain ⟨b', hb', hrep'⟩ := ih hrep ladder_setLadder hps'
        (fun q hq => (hmem q).mpr ⟨hlinked q (List.mem_cons_of_mem _ hq), hne q hq⟩) hnd'
      refine ⟨b', by rw [if_pos h0, hremove]; exact hb', ?_⟩
      rw [List.filter_cons_of_neg (by simpa using h0)]
      simpa only [setLadder_setLadder] using hrep'
    · have hd' : d.ladder s = pre ++ (px, (od ++ [o]) ++ ot) :: post := by
        rw [hd, List.append_assoc, List.singleton_append]
      obtain ⟨b', hb', hrep'⟩ := ih h hd' hps
        (fun q hq => hlinked q (List.mem_cons_of_mem _ hq)) hnd'
      refine ⟨b', by rw [if_neg h0]; exact hb', ?_⟩
      rw [List.filter_cons_of_pos (by simpa using h0)]
      simpa only [List.append_assoc, List.singleton_append] using hrep'

theorem sweepLadder_cons {px : Price} {os : List Order} {l : Ladder} :
    sweepLadder ((px, os) :: l) =
      if (os.filter fun o => o.leavesQty ≠ 0) = [] then sweepLadder l
      else (px, os.filter fun o => o.leavesQty ≠ 0) :: sweepLadder l := by
  rw [sweepLadder, List.map_cons]
  by_cases he : (os.filter fun o => o.leavesQty ≠ 0) = []
  · rw [if_pos he, List.filter_cons_of_neg (by simpa using he)]
    rfl
  · rw [if_neg he, List.filter_cons_of_pos (by simpa using he)]
    rfl

/-- **The sweep of one level.** -/
theorem sweepLevel_spec {s : BookSide} {st : MatchState} {d : Depth} {pre post : Ladder}
    {px : Price} {os : List Order} (h : Rep st.book d)
    (hd : d.ladder s = pre ++ (px, os) :: post) :
    ∃ b, sweepLevel s px st = .ok (true, { st with book := b }) ∧
      Rep b (d.setLadder s (pre ++ (px, os.filter fun o => o.leavesQty ≠ 0) :: post)) := by
  obtain ⟨es, gs, l, hsplit, -, hl, -⟩ := h.split hd
  have hd0 : d.ladder s = pre ++ (px, [] ++ os) :: post := hd
  have hlinked : ∀ p ∈ l.queue, p ∈ st.book.linked := by
    refine fun p hp => mem_linked.mpr ⟨s, ?_⟩
    rw [linkedOn_of_split hsplit]
    exact List.mem_append_right _ (List.mem_append_left _ hp)
  obtain ⟨b, hb, hrep⟩ := sweepQueue_spec h hd0 hl.queue hlinked
    (nodup_queue (h.nodup_linkedOn s) hsplit)
  refine ⟨b, ?_, hrep⟩
  rw [sweepLevel, OrderedMap.find?_of_split hsplit]
  simp only [hb, bind, Except.bind]
  rfl

/-- **The sweeping walk**, from a split of the ladder on. -/
theorem walk_sweep {s : BookSide} {post pre : Ladder} {st : MatchState} {d : Depth}
    (h : Rep st.book d) (hd : d.ladder s = pre ++ post) :
    ∃ st', OrderBook.walkFrom s (sweepLevel s) (post.map Prod.fst) st = .ok st' ∧
      Rep st'.book (d.setLadder s (pre ++ sweepLadder post)) ∧
      st'.aggr = st.aggr ∧ st'.out = st.out := by
  induction post generalizing pre st d with
  | nil =>
    refine ⟨st, rfl, ?_, rfl, rfl⟩
    rw [show sweepLadder [] = [] from rfl, ← hd, setLadder_ladder]
    exact h
  | cons a post ih =>
    obtain ⟨px, os⟩ := a
    rw [List.map_cons, sweepLadder_cons]
    by_cases hos : os = []
    · subst hos
      rw [walkFrom_empty (h.shows hd), List.filter_nil, if_pos rfl]
      have herase : Rep (st.without s px).book (d.setLadder s (pre ++ post)) := h.eraseEmpty hd
      simpa only [setLadder_setLadder, MatchState.aggr_without, MatchState.out_without]
        using ih herase ladder_setLadder
    obtain ⟨b, hfn, hrep⟩ := sweepLevel_spec h hd
    by_cases he : (os.filter fun o => o.leavesQty ≠ 0) = []
    · -- the level is swept empty, and goes with its orders
      rw [if_pos he]
      rw [he] at hrep
      rw [walkFrom_go_empty (h.shows hd) hos hfn (hrep.shows ladder_setLadder)]
      have herase : Rep (MatchState.without { st with book := b } s px).book
          (d.setLadder s (pre ++ post)) := by
        have hrep' := hrep.eraseEmpty ladder_setLadder
        rw [setLadder_setLadder] at hrep'
        exact hrep'
      simpa only [setLadder_setLadder, MatchState.aggr_without, MatchState.out_without]
        using ih herase ladder_setLadder
    · rw [if_neg he, walkFrom_go (h.shows hd) hos hfn (hrep.shows ladder_setLadder) he]
      have hd' : (d.setLadder s
          (pre ++ (px, os.filter fun o => o.leavesQty ≠ 0) :: post)).ladder s =
          (pre ++ [(px, os.filter fun o => o.leavesQty ≠ 0)]) ++ post := by
        rw [ladder_setLadder, List.append_assoc, List.singleton_append]
      have hrep' : Rep ({ st with book := b } : MatchState).book
          (d.setLadder s (pre ++ (px, os.filter fun o => o.leavesQty ≠ 0) :: post)) := hrep
      simpa only [setLadder_setLadder, List.append_assoc, List.singleton_append]
        using ih hrep' hd'

/-! ## Submitting and cancelling -/

theorem fillQueue_zero {os : List Order} : fillQueue os (os.map fun _ => 0) = os := by
  induction os with
  | nil => rfl
  | cons o os ih =>
    simp only [fillQueue, List.map_cons, List.zipWith_cons_cons, Order.fill_zero] at ih ⊢
    rw [ih]

/-- The queues of a ladder, up to fills. -/
def FilledFrom (l : Ladder) (a : Price × List Order) : Prop :=
  ∃ os fs, (a.1, os) ∈ l ∧ fs.length = os.length ∧ a.2 = fillQueue os fs

theorem filledFrom_self {l : Ladder} {a : Price × List Order} (h : a ∈ l) : FilledFrom l a :=
  ⟨a.2, a.2.map fun _ => 0, h, by simp, fillQueue_zero.symm⟩

/-- **A match keeps the queues, up to fills.** -/
theorem filledFrom_matchLadder {algo : MatchAlgo} {l : Ladder} {aggr : Order}
    {a : Price × List Order} (h : a ∈ (matchLadder algo l aggr).1) : FilledFrom l a := by
  induction l generalizing aggr with
  | nil => cases h
  | cons c l ih =>
    obtain ⟨px, os⟩ := c
    have hrest : ∀ aggr, a ∈ (matchLadder algo l aggr).1 → FilledFrom ((px, os) :: l) a := by
      intro aggr ha
      obtain ⟨os', fs, hm, hlen, he⟩ := ih ha
      exact ⟨os', fs, List.mem_cons_of_mem _ hm, hlen, he⟩
    rw [matchLadder] at h
    split at h
    · exact hrest _ h
    split at h
    · exact filledFrom_self h
    dsimp only at h
    split at h
    · rcases List.mem_cons.mp h with rfl | h
      · exact ⟨os, _, List.mem_cons_self .., length_fillsAt, rfl⟩
      · exact filledFrom_self (List.mem_cons_of_mem _ h)
    · rcases List.mem_cons.mp h with rfl | h
      · exact ⟨os, _, List.mem_cons_self .., length_fillsAt, rfl⟩
      · exact hrest _ h

/-- A match moves no order. -/
theorem placed_matchLadder {algo : MatchAlgo} {s : BookSide} {l : Ladder} {aggr : Order}
    (h : ∀ a ∈ l, ∀ o ∈ a.2, o.price = a.1 ∧ o.side.book = s) :
    ∀ a ∈ (matchLadder algo l aggr).1, ∀ o ∈ a.2, o.price = a.1 ∧ o.side.book = s := by
  intro a ha
  obtain ⟨os, fs, hm, hlen, he⟩ := filledFrom_matchLadder ha
  rw [he]
  exact placed_fillQueue hlen (h _ hm)

/-- A property fills do not touch passes from a ladder to the orders left
on it by a match and its sweep. -/
theorem forall_sweep_match {algo : MatchAlgo} {l : Ladder} {aggr : Order} {P : Order → Prop}
    (hP : ∀ o f, P (Order.fill o f) ↔ P o) (hl : ∀ a ∈ l, ∀ o ∈ a.2, P o) :
    ∀ a ∈ sweepLadder (matchLadder algo l aggr).1, ∀ o ∈ a.2, P o := by
  intro a ha o ho
  obtain ⟨c, hc, rfl⟩ := List.mem_map.mp (List.mem_filter.mp ha).1
  obtain ⟨os, fs, hm, hlen, he⟩ := filledFrom_matchLadder hc
  have ho' : o ∈ fillQueue os fs := he ▸ (List.mem_filter.mp ho).1
  have hmap : P o ∈ os.map P := by
    rw [← map_fillQueue (fun o f => propext (hP o f)) hlen]
    exact List.mem_map_of_mem ho'
  obtain ⟨o', ho'', heq⟩ := List.mem_map.mp hmap
  exact heq ▸ hl _ hm o' ho''

/-- The aggressor a match leaves is the one it was given, less what was
traded. -/
theorem aggr_matchLadder {algo : MatchAlgo} {l : Ladder} {aggr : Order} :
    (matchLadder algo l aggr).2.1 =
      aggr.fill ((matchLadder algo l aggr).2.2.map Trade.qty).sum := by
  induction l generalizing aggr with
  | nil => simp [matchLadder]
  | cons c l ih =>
    obtain ⟨px, os⟩ := c
    rw [matchLadder]
    split
    · exact ih
    split
    · simp
    dsimp only
    have hsum := @sum_qty_tradesOf aggr px os (fillsAt algo aggr os) length_fillsAt
    split
    · rw [hsum]
    · rw [List.map_append, List.sum_append, hsum, @ih (aggr.fill (fillsAt algo aggr os).sum)]
      simp only [Order.fill, Order.mk.injEq, true_and]
      grind

theorem Rep.lookup_eq_none {b : OrderBook} {d : Depth} (h : Rep b d) {k : IndexKey} :
    b.index.lookup k = none ↔ ∀ o ∈ d.orders, o.key ≠ k := by
  constructor
  · intro hn o ho hk
    obtain ⟨p, hp, hcell⟩ := h.exists_ptr ho
    have := (h.index k p).mpr ⟨hp, by rw [keyAt, hcell, ← hk]; rfl⟩
    rw [hn] at this
    cases this
  · intro hne
    rcases hlk : b.index.lookup k with _ | p
    · rfl
    · obtain ⟨hp, hkey⟩ := (h.index k p).mp hlk
      obtain ⟨o, ho, hcell⟩ := h.exists_of_linked hp
      rw [keyAt, hcell] at hkey
      exact absurd (Option.some.inj hkey) (hne o ho)

theorem map_fst_of_forall₂ {α β γ : Type*} {R : β → γ → Prop} {l : List (α × β)}
    {l' : List (α × γ)} (h : List.Forall₂ (fun e a => e.1 = a.1 ∧ R e.2 a.2) l l') :
    l.map Prod.fst = l'.map Prod.fst := by
  induction h with
  | nil => rfl
  | cons hab _ ih => rw [List.map_cons, List.map_cons, ih, hab.1]

/-- A whole walk visits the prices of the represented ladder. -/
theorem Shows.walk_eq {st : MatchState} {s : BookSide} {l : Ladder} (h : Shows st.book s l)
    (fn : Price → MatchState → Except Fault (Bool × MatchState)) :
    OrderBook.walk s fn st = OrderBook.walkFrom s fn (l.map Prod.fst) st := by
  rw [OrderBook.walk, map_fst_of_forall₂ h.levels]

theorem book_opposite_ne (s : BookSide) : s ≠ s.opposite := by
  cases s <;> decide

/-- `submit`, its two sides as one. -/
theorem submit_eq {algo : MatchAlgo} {b : OrderBook} {o : Order} :
    submit algo b o = do
      let st ← OrderBook.walk o.side.book.opposite (onLevel algo o.side.book.opposite)
        ⟨b, o, [.ack ⟨o.id, o.clordId⟩]⟩
      let st ← OrderBook.walk o.side.book.opposite (sweepLevel o.side.book.opposite) st
      if st.aggr.leavesQty > 0 then return (st.book.rest st.aggr, st.out)
      else return (st.book, st.out) := by
  obtain ⟨id, session, clordId, side, price, origQty, leavesQty⟩ := o
  cases side <;> rfl

/-- **The match of a `submit` on a represented book** is the match on the
values, or a signed overflow where that leaves the range. Whether the key
is free matters only to what rests. -/
theorem submit_matches {algo : MatchAlgo} {b : OrderBook} {d : Depth} {o : Order} (h : Rep b d) :
    (MatchDefined algo (d.ladder o.side.book.opposite) o ∧
      ∃ b', Rep b' (d.setLadder o.side.book.opposite
          (sweepLadder (matchLadder algo (d.ladder o.side.book.opposite) o).1)) ∧
        submit algo b o = .ok
          (if (matchLadder algo (d.ladder o.side.book.opposite) o).2.1.leavesQty > 0 then
              b'.rest (matchLadder algo (d.ladder o.side.book.opposite) o).2.1
            else b', (d.submit algo o).2)) ∨
    (¬ MatchDefined algo (d.ladder o.side.book.opposite) o ∧
      submit algo b o = .error .signedOverflow) := by
  set opp := o.side.book.opposite with hopp
  set st : MatchState := ⟨b, o, [.ack ⟨o.id, o.clordId⟩]⟩ with hst
  have hshows : Shows st.book opp ([] ++ d.ladder opp) := h.shows rfl
  rw [submit_eq, ← hopp, ← hst, hshows.walk_eq, List.nil_append]
  rcases walk_match algo hshows with ⟨hdef, st₁, hw, hshows₁, hframed, haggr, hout⟩ | ⟨hndef, hw⟩
  · left
    refine ⟨hdef, ?_⟩
    rw [List.nil_append] at hshows₁
    have hrep₁ := h.of_framed hframed hshows₁ (placed_matchLadder (h.placed opp))
    have hpre₁ : (d.setLadder opp (matchLadder algo (d.ladder opp) o).1).ladder opp =
        [] ++ (matchLadder algo (d.ladder opp) o).1 := ladder_setLadder
    obtain ⟨st₂, hw₂, hrep₂, haggr₂, hout₂⟩ := walk_sweep hrep₁ hpre₁
    rw [List.nil_append, setLadder_setLadder] at hrep₂
    have hsweep : OrderBook.walk opp (sweepLevel opp) st₁ = .ok st₂ := by
      rw [hshows₁.walk_eq]
      exact hw₂
    refine ⟨st₂.book, hrep₂, ?_⟩
    rw [hw]
    simp only [bind, Except.bind, hsweep, haggr₂, haggr, Depth.submit, ← hopp]
    rw [hout₂, hout]
    split <;> rfl
  · right
    refine ⟨hndef, ?_⟩
    rw [hw]
    rfl

/-- What is left of an order after its match still has a free key. -/
theorem lookup_of_matched {algo : MatchAlgo} {b b' : OrderBook} {d : Depth} {o : Order}
    (h : Rep b d) (hk : b.index.lookup o.key = none)
    (h' : Rep b' (d.setLadder o.side.book.opposite
      (sweepLadder (matchLadder algo (d.ladder o.side.book.opposite) o).1))) :
    b'.index.lookup o.key = none := by
  rw [h'.lookup_eq_none]
  rw [h.lookup_eq_none] at hk
  intro o' ho'
  obtain ⟨t, ht⟩ := mem_orders.mp ho'
  obtain ⟨a, ha, hoa⟩ := mem_ordersOn.mp ht
  have hmem : ∀ t, ∀ a ∈ d.ladder t, ∀ o' ∈ a.2, o'.key ≠ o.key := fun t a ha o' ho' =>
    hk o' (mem_orders.mpr ⟨t, mem_ordersOn.mpr ⟨a, ha, ho'⟩⟩)
  rcases o.side.book.opposite.eq_or_ne_of t with rfl | hne
  · rw [ladder_setLadder] at ha
    exact forall_sweep_match (fun _ _ => Iff.rfl) (hmem _) a ha o' hoa
  · rw [ladder_setLadder_of_ne hne] at ha
    exact hmem t a ha o' hoa

/-- **`submit` on a represented book.** With a free key it is the
value-level submit, or a signed overflow where that leaves the range. -/
theorem submit_sim {algo : MatchAlgo} {b : OrderBook} {d : Depth} {o : Order} (h : Rep b d)
    (hk : b.index.lookup o.key = none) :
    (MatchDefined algo (d.ladder o.side.book.opposite) o ∧
      ∃ b', submit algo b o = .ok (b', (d.submit algo o).2) ∧ Rep b' (d.submit algo o).1) ∨
    (¬ MatchDefined algo (d.ladder o.side.book.opposite) o ∧
      submit algo b o = .error .signedOverflow) := by
  rcases @submit_matches algo b d o h with ⟨hdef, b', hrep, hb⟩ | herr
  · refine .inl ⟨hdef, _, hb, ?_⟩
    set opp := o.side.book.opposite with hopp
    have hf := @aggr_matchLadder algo (d.ladder opp) o
    set f := ((matchLadder algo (d.ladder opp) o).2.2.map Trade.qty).sum
    have hkey : b'.index.lookup o.key = none := lookup_of_matched h hk hrep
    simp only [Depth.submit, ← hopp]
    rw [hf]
    by_cases hpos : (o.fill f).leavesQty > 0
    · rw [if_pos hpos, if_pos hpos]
      exact hrep.rest hkey
    · rw [if_neg hpos, if_neg hpos]
      exact hrep
  · exact .inr herr

/-- `cancel` of an order indexed under its own key drops it. -/
theorem cancel_eq_drop {b : OrderBook} {s : SessionId} {clord : ClOrdID} {p : Ptr} {o : Order}
    (hlk : b.index.lookup ⟨s, clord.value⟩ = some p) (hcell : b.heap.cells p = some o)
    (hk : o.key = ⟨s, clord.value⟩) : b.cancel s clord = .ok (⟨true, []⟩, b.drop p o) := by
  simp only [OrderBook.cancel, hlk, deref_of_cell hcell, OrderBook.drop, hk]
  rfl

/-- **`cancel` on a represented book** drops the order of the key, and
says whether there was one. -/
theorem cancel_sim {b : OrderBook} {d : Depth} (h : Rep b d) (s : SessionId) (clord : ClOrdID) :
    ∃ r b', b.cancel s clord = .ok (r, b') ∧ Rep b' (d.cancel ⟨s, clord.value⟩) ∧
      (r.ok = true ↔ ∃ o ∈ d.orders, o.key = ⟨s, clord.value⟩) := by
  rcases hlk : b.index.lookup ⟨s, clord.value⟩ with _ | p
  · have hne := h.lookup_eq_none.mp hlk
    refine ⟨⟨false, ascii "unknown order"⟩, b, by rw [OrderBook.cancel, hlk], ?_, by simpa using hne⟩
    have hkeep : ∀ t, dropKey ⟨s, clord.value⟩ (d.ladder t) = d.ladder t := fun t =>
      dropKey_eq_self fun a ha o ho => hne o (mem_orders.mpr ⟨t, mem_ordersOn.mpr ⟨a, ha, ho⟩⟩)
    have hcancel : d.cancel ⟨s, clord.value⟩ = d := congrArg₂ Depth.mk (hkeep .bid) (hkeep .ask)
    rw [hcancel]
    exact h
  · obtain ⟨hp, hkey⟩ := (h.index _ p).mp hlk
    obtain ⟨o, ho, hcell⟩ := h.exists_of_linked hp
    rw [keyAt, hcell] at hkey
    have hk : o.key = ⟨s, clord.value⟩ := Option.some.inj hkey
    exact ⟨⟨true, []⟩, b.drop p o, cancel_eq_drop hlk hcell hk,
      by rw [← hk]; exact (h.drop hp hcell).1, by simpa using ⟨o, ho, hk⟩⟩

end Core

end OrderbookFix
