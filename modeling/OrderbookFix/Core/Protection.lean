import OrderbookFix.Core.Helpers.Strays
/-!
# What holds of every run

The results here ask for nothing: keys may be reused and sums may wrap. An
order may be lost to a reused key and a level may report a wrong figure,
but no order trades beyond its limit, no trade is at a price other than
that of an order that was handed in before, and whatever is live is where
the book looks for it.
-/

namespace OrderbookFix

namespace Core

open Relation

/-- **A fair trade** of an order `n` with one that came before it: at the
price the earlier order named, which the limit of `n` allows, and from the
other ladder. -/
structure Fair (past : List Call) (n : NewOrder) (t : Trade) : Prop where
  dealt : ∃ m : NewOrder, .submit m ∈ past ∧ t = trade n.order m.order m.price t.qty ∧
    m.side.book = n.side.book.opposite ∧ crosses n.side n.price m.price = true
  some : t.qty ≠ 0

/-- What is known of a book after some calls. -/
structure Kept (past : List Call) (b : OrderBook) : Prop where
  tidy : Tidy True b
  handed : ∀ p o, b.heap.cells p = some o → ∃ m : NewOrder, .submit m ∈ past ∧
    o.terms = m.order.terms

theorem Kept.mono {past past' : List Call} {b : OrderBook} (h : Kept past b)
    (hsub : past ⊆ past') : Kept past' b where
  tidy := h.tidy
  handed p o ho := by
    obtain ⟨m, hm, hterms⟩ := h.handed p o ho
    exact ⟨m, hsub hm, hterms⟩

theorem Kept.drop {past : List Call} {b : OrderBook} {p : Ptr} {o : Order} (h : Kept past b)
    (ho : b.heap.cells p = some o) : Kept past (b.drop p o) where
  tidy := h.tidy.drop ho
  handed q r hr := by
    rw [cells_drop (h.tidy.indexed p o ho)] at hr
    split at hr
    · cases hr
    · exact h.handed q r hr

/-- A trade with an order of the book is a trade with what was handed in. -/
theorem trade_of_terms {aggr o : Order} {n m : NewOrder} (hn : aggr.terms = n.order.terms)
    (hm : o.terms = m.order.terms) (px : Price) (q : Quantity) :
    trade aggr o px q = trade n.order m.order px q := by
  have haggr : trade aggr.terms o.terms px q = trade n.order.terms m.order.terms px q := by
    rw [hn, hm]
  exact haggr

/-! ## One submit -/

/-- A state in the middle of a submit of `n`. -/
structure Dealing (past : List Call) (n : NewOrder) (st : MatchState) : Prop where
  kept : Kept past st.book
  aggr : st.aggr.terms = n.order.terms
  fair : ∀ t, .trade t ∈ st.out → Fair past n t

/-- **Every change is fair.** -/
theorem Change.dealing {past : List Call} {n : NewOrder} {st st' : MatchState}
    (h : Change n.side.book.opposite st st') (hst : Dealing past n st) : Dealing past n st' := by
  obtain ⟨⟨htidy, hhanded⟩, haggr, hfair⟩ := hst
  obtain ⟨-, hprice, hside⟩ := Order.of_terms_eq haggr
  have htidy' := h.tidy htidy
  cases h with
  | @fill px l p o q hfind hp ho hcross hq =>
    -- the node is in the level's queue, so its order names the level's price
    obtain ⟨hbook, rfl⟩ := htidy.placed _ px p (nodesAt_of_find? hfind ▸ hp) o ho
    obtain ⟨m, hm, hterms⟩ := hhanded p o ho
    obtain ⟨-, hmprice, hmside⟩ := Order.of_terms_eq hterms
    have hcells : ∀ p',
        ((st.book.heap.write p { o with leavesQty := o.leavesQty - q }).cells p').map Order.terms =
          (st.book.heap.cells p').map Order.terms := by
      intro p'
      by_cases hp' : p' = p
      · subst hp'
        rw [Heap.write_self _ ho, ho]
        rfl
      · rw [Heap.write_of_ne _ hp']
    refine ⟨⟨htidy', fun p' r hr => ?_⟩, haggr, fun t ht => ?_⟩
    · have hterm := hcells p'
      dsimp only at hr
      rw [hr, Option.map_some] at hterm
      obtain ⟨r₀, hr₀, hterm⟩ := Option.map_eq_some_iff.mp hterm.symm
      obtain ⟨m', hm', hr₀⟩ := hhanded p' r₀ hr₀
      exact ⟨m', hm', hterm.symm.trans hr₀⟩
    · rcases List.mem_append.mp ht with ht | ht
      · exact hfair t ht
      · obtain rfl := Event.trade.inj (List.mem_singleton.mp ht)
        refine ⟨⟨m, hm, ?_, ?_, ?_⟩, hq⟩
        · rw [trade_of_terms haggr hterms, hmprice]
          rfl
        · rw [← hbook, hmside]
          rfl
        · rw [hside, hprice, hmprice] at hcross
          exact hcross
  | settle total leaves hfind =>
    refine ⟨⟨htidy', fun p o ho => hhanded p o ?_⟩, haggr, hfair⟩
    rwa [OrderBook.modifyLevel, heap_setLevels] at ho
  | erase hfind hempty =>
    refine ⟨⟨htidy', fun p o ho => hhanded p o ?_⟩, haggr, hfair⟩
    rwa [heap_setLevels] at ho
  | drop ho hzero => exact ⟨Kept.drop ⟨htidy, hhanded⟩ ho, haggr, hfair⟩

theorem dealing_of_changes {past : List Call} {n : NewOrder} {st st' : MatchState}
    (h : ReflTransGen (Change n.side.book.opposite) st st') (hst : Dealing past n st) :
    Dealing past n st' := by
  induction h with
  | refl => exact hst
  | tail _ hlast ih => exact hlast.dealing ih

/-- **A submit on a book that is kept.** -/
theorem Kept.submit {past : List Call} {algo : MatchAlgo} {b b' : OrderBook} {n : NewOrder}
    {evs : EventList} (hb : Kept past b) (h : Core.submit algo b n.order = .ok (b', evs)) :
    Kept (past ++ [.submit n]) b' ∧ ∀ t, .trade t ∈ evs → Fair past n t := by
  obtain ⟨st, hchanges, rfl, hrest⟩ := submit_changes h
  have hstart : Dealing past n ⟨b, n.order, [.ack ⟨n.id, n.clordId⟩]⟩ :=
    ⟨hb, rfl, fun t ht => by simp at ht⟩
  obtain ⟨hkept, haggr, hfair⟩ := dealing_of_changes hchanges hstart
  refine ⟨?_, hfair⟩
  have hkept' := hkept.mono (List.subset_append_left past [.submit n])
  rcases hrest with rfl | rfl
  · refine ⟨hkept'.tidy.rest (.inl trivial), fun p o ho => ?_⟩
    rw [cells_rest] at ho
    split at ho
    · split at ho
      · rw [← Option.some.inj ho]
        exact ⟨n, List.mem_append_right _ (List.mem_singleton_self _), haggr⟩
      · cases ho
    · exact hkept'.handed p o ho
  · exact hkept'

/-- **A cancel on a book that is kept**: what the index has is live under
its own key, so the node freed is the one unlinked. -/
theorem Kept.cancel {past : List Call} {b b' : OrderBook} {s : SessionId} {clord : ClOrdID}
    {res : CancelResult} (hb : Kept past b) (h : b.cancel s clord = .ok (res, b')) :
    Kept past b' := by
  rcases hlk : b.index.lookup (⟨s, clord.value⟩ : IndexKey) with _ | p
  · rw [OrderBook.cancel] at h
    dsimp only at h
    rw [hlk] at h
    obtain ⟨-, rfl⟩ := Prod.mk.inj (Except.ok.inj h)
    exact hb
  · obtain ⟨o, ho, hkey⟩ := hb.tidy.owned _ p hlk
    rw [cancel_eq_drop hlk ho hkey] at h
    obtain ⟨-, rfl⟩ := Prod.mk.inj (Except.ok.inj h)
    exact hb.drop ho

/-! ## Runs -/

/-- What is known after some calls and the events they put out. -/
structure Traded (past : List Call) (evs : EventList) (e : Engine) : Prop where
  kept : Kept past e.book
  fair : ∀ t, .trade t ∈ evs → ∃ pre n post, past = pre ++ .submit n :: post ∧ Fair pre n t

theorem traded_step {past : List Call} {evs out : EventList} {e e' : Engine} {c : Call}
    (h : Traded past evs e) (hs : e.step c = .ok (e', out)) :
    Traded (past ++ [c]) (evs ++ out) e' := by
  have hold : ∀ t, .trade t ∈ evs →
      ∃ pre n post, past ++ [c] = pre ++ .submit n :: post ∧ Fair pre n t := by
    intro t ht
    obtain ⟨pre, n, post, rfl, hfair⟩ := h.fair t ht
    exact ⟨pre, n, post ++ [c], by simp, hfair⟩
  cases c with
  | submit n =>
    rw [Engine.step] at hs
    split at hs
    · cases hs
    · rename_i hsub
      obtain ⟨rfl, rfl⟩ := Prod.mk.inj (Except.ok.inj hs)
      obtain ⟨hkept, hfair⟩ := h.kept.submit hsub
      refine ⟨hkept, fun t ht => ?_⟩
      rcases List.mem_append.mp ht with ht | ht
      · exact hold t ht
      · exact ⟨past, n, [], rfl, hfair t ht⟩
  | cancel s clord =>
    rw [Engine.step] at hs
    split at hs
    · cases hs
    · rename_i hcan
      obtain ⟨rfl, rfl⟩ := Prod.mk.inj (Except.ok.inj hs)
      rw [List.append_nil]
      exact ⟨(h.kept.cancel hcan).mono (List.subset_append_left _ _), hold⟩
  | setAlgo a =>
    obtain ⟨rfl, rfl⟩ := Prod.mk.inj (Except.ok.inj hs)
    rw [List.append_nil]
    exact ⟨h.kept.mono (List.subset_append_left _ _), hold⟩

theorem run_traded {algo : MatchAlgo} {calls : List Call} {e : Engine} {evs : EventList}
    (h : run Engine.step (Engine.new algo) calls = .ok (e, evs)) : Traded calls evs e :=
  run_inv_returns (J := Traded) (P := fun _ => True)
    (fun _ _ _ _ _ _ hJ _ hs => traded_step hJ hs)
    ⟨⟨Tidy.new, fun _ _ ho => by cases ho⟩, fun _ ht => by cases ht⟩ (fun _ _ => trivial) h

/-- **No order trades beyond its limit**, and none at a price nobody
asked: every trade of every run is between an order and one handed in
before it, at the earlier order's own price. -/
theorem run_fair (algo : MatchAlgo) (calls : List Call) (e : Engine) (evs : EventList)
    (h : run Engine.step (Engine.new algo) calls = .ok (e, evs)) (t : Trade)
    (ht : .trade t ∈ evs) :
    ∃ pre n post, calls = pre ++ .submit n :: post ∧ Fair pre n t :=
  (run_traded h).fair t ht

/-- A sell, a buy that reuses its key and is lost, and a buy that takes
part of the sell. -/
def reusing : List Call :=
  [.submit ⟨1, 0, ⟨ascii "A"⟩, .sell, 10, 5⟩, .submit ⟨2, 0, ⟨ascii "A"⟩, .buy, 8, 5⟩,
    .submit ⟨3, 1, ⟨ascii "A"⟩, .buy, 12, 3⟩]

/-- The trade is at the sell's price, not at the buy's. -/
theorem run_fair_reusing :
    ∃ e evs, run Engine.step (Engine.new .fifo) reusing = .ok (e, evs) ∧
      .trade ⟨3, 1, ⟨ascii "A"⟩, ⟨ascii "A"⟩, 10, 3, .buy⟩ ∈ evs ∧
      ∃ pre n post, reusing = pre ++ .submit n :: post ∧
        Fair pre n ⟨3, 1, ⟨ascii "A"⟩, ⟨ascii "A"⟩, 10, 3, .buy⟩ := by
  obtain ⟨e, evs, hr, ht⟩ := @exists_of_run_check _ _ _ _ Engine.step (fun r : Engine × EventList =>
    decide (.trade ⟨3, 1, ⟨ascii "A"⟩, ⟨ascii "A"⟩, 10, 3, .buy⟩ ∈ r.2)) (Engine.new .fifo) reusing
    (by decide +kernel)
  exact ⟨e, evs, hr, of_decide_eq_true ht,
    run_fair .fifo reusing e evs hr _ (of_decide_eq_true ht)⟩

/-- **Whatever is live is where the book looks for it**: linked once, at
the price and on the ladder it names, owned by the index under its own
key, and with the terms it was handed in with. -/
theorem run_kept (algo : MatchAlgo) (calls : List Call) (e : Engine) (evs : EventList)
    (h : run Engine.step (Engine.new algo) calls = .ok (e, evs)) : Kept calls e.book :=
  (run_traded h).kept

/-- The queue of the lost order still has its node; the sell is live, with
what the trade left of it. -/
theorem run_kept_reusing :
    ∃ e evs, run Engine.step (Engine.new .fifo) reusing = .ok (e, evs) ∧
      e.book.heap.cells 0 = some ⟨1, 0, ⟨ascii "A"⟩, .sell, 10, 5, 2⟩ ∧
      e.book.queueAt .bid 8 = [none] ∧ Kept reusing e.book := by
  obtain ⟨e, evs, hr, ht⟩ := @exists_of_run_check _ _ _ _ Engine.step (fun r : Engine × EventList =>
    decide (r.1.book.heap.cells 0 = some ⟨1, 0, ⟨ascii "A"⟩, .sell, 10, 5, 2⟩ ∧
      r.1.book.queueAt .bid 8 = [none])) (Engine.new .fifo) reusing (by decide +kernel)
  obtain ⟨hcell, hqueue⟩ := of_decide_eq_true ht
  exact ⟨e, evs, hr, hcell, hqueue, run_kept .fifo reusing e evs hr⟩

end Core

end OrderbookFix
