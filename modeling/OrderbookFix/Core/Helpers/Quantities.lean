import OrderbookFix.Core.Helpers.Execution
/-!
# Quantities and prices across a submit

What an execution leaves of every order it touches: nobody is filled past
its leaves, the quantities before and after differ by the fills, and an
order that rests crosses nothing that is left on the other side.
-/

namespace OrderbookFix

namespace Core

theorem toNat_sub_of_le {a b : Quantity} (h : b.toNat ≤ a.toNat) :
    (a - b).toNat = a.toNat - b.toNat :=
  UInt64.toNat_sub_of_le _ _ (UInt64.le_iff_toNat_le.mpr h)

@[simp] theorem leavesSum_nil : leavesSum [] = 0 := rfl

@[simp] theorem leavesSum_cons {o : Order} {os : List Order} :
    leavesSum (o :: os) = o.leavesQty.toNat + leavesSum os := rfl

@[simp] theorem leavesSum_append {os os' : List Order} :
    leavesSum (os ++ os') = leavesSum os + leavesSum os' := by
  simp [leavesSum]

theorem leavesSum_perm {os os' : List Order} (h : os.Perm os') :
    leavesSum os = leavesSum os' := (h.map _).sum_eq

/-- Exhausted orders do not count. -/
theorem leavesSum_filter {os : List Order} :
    leavesSum (os.filter fun o => o.leavesQty ≠ 0) = leavesSum os := by
  induction os with
  | nil => rfl
  | cons o os ih =>
    rw [List.filter_cons]
    split
    · rw [leavesSum_cons, leavesSum_cons, ih]
    · rename_i hz
      have hzero : o.leavesQty.toNat = 0 := by
        have : o.leavesQty = 0 := by simpa using hz
        rw [this]
        rfl
      rw [leavesSum_cons, ih, hzero, Nat.zero_add]

/-- **Fills come off the leaves.** -/
theorem leavesSum_fillQueue {os : List Order} {fs : List Quantity}
    (h : List.Forall₂ (fun o f => f.toNat ≤ o.leavesQty.toNat) os fs) :
    leavesSum (fillQueue os fs) + (fs.map UInt64.toNat).sum = leavesSum os := by
  induction h with
  | nil => rfl
  | @cons o f os fs hle _ ih =>
    rw [fillQueue] at ih
    rw [fillQueue, List.zipWith_cons_cons, leavesSum_cons, leavesSum_cons, Order.leavesQty_fill,
      toNat_sub_of_le hle, List.map_cons, List.sum_cons]
    omega

/-- A level is part of its ladder, and a ladder of the book. -/
theorem leavesSum_le_of_mem {d : Depth} {s : BookSide} {a : Price × List Order}
    (h : a ∈ d.ladder s) : leavesSum a.2 ≤ leavesSum d.orders := by
  have hladder : leavesSum a.2 ≤ leavesSum (d.ordersOn s) := by
    obtain ⟨l₁, l₂, hl⟩ := List.append_of_mem h
    rw [Depth.ordersOn, hl, List.flatMap_append, List.flatMap_cons]
    simp only [leavesSum_append]
    omega
  rw [Depth.orders, leavesSum_append]
  cases s <;> omega

/-! ## Sides -/

theorem before_opposite {s : BookSide} {x y : Price} : s.opposite.before x y ↔ s.before y x := by
  cases s <;> rfl

@[simp] theorem opposite_opposite {s : BookSide} : s.opposite.opposite = s := by
  cases s <;> rfl

theorem eq_or_eq_opposite (s t : BookSide) : t = s ∨ t = s.opposite := by
  cases s <;> cases t <;> simp [BookSide.opposite]

/-- An order crosses a price unless that price is beyond its own. -/
theorem crosses_eq_false_iff {side : Side} {px lp : Price} :
    crosses side px lp = false ↔ side.book.before lp px := by
  by_cases hs : side = .buy
  · subst hs
    simp only [crosses, if_true, decide_eq_false_iff_not]
    exact Int.not_le
  · have hbook : side.book = .ask := by
      cases side with
      | buy => exact absurd rfl hs
      | sell => rfl
      | other c => rfl
    rw [hbook]
    simp only [crosses, if_neg hs, decide_eq_false_iff_not]
    exact Int.not_le

/-- **No order crosses one on the other side.** -/
def Depth.Uncrossed (d : Depth) : Prop :=
  ∀ s, ∀ x ∈ d.ordersOn s, ∀ y ∈ d.ordersOn s.opposite, s.before y.price x.price

/-- One of the two sides is enough. -/
theorem uncrossed_of_side {d : Depth} (s : BookSide)
    (h : ∀ x ∈ d.ordersOn s, ∀ y ∈ d.ordersOn s.opposite, s.before y.price x.price) :
    d.Uncrossed := by
  intro t x hx y hy
  rcases eq_or_eq_opposite s t with rfl | rfl
  · exact h x hx y hy
  · rw [opposite_opposite] at hy
    exact before_opposite.mpr (h y hy x hx)

/-! ## Reading an execution -/

namespace Execution

variable {d d' : Depth} {o : Order} {fs : List Quantity} {evs : EventList}

theorem length_eq (h : Execution d o fs d' evs) :
    fs.length = (d.ordersOn o.side.book.opposite).length := by
  have := h.alloc.length_eq
  rwa [List.length_map, List.length_map] at this

/-- Nobody is filled past what it asks for. -/
theorem fill_le_want (h : Execution d o fs d' evs) :
    List.Forall₂ (fun r f => f.toNat ≤ want o r) (d.ordersOn o.side.book.opposite) fs := by
  have hle := h.alloc.le
  rw [List.forall₂_map_left_iff, List.forall₂_map_right_iff] at hle
  exact hle.flip

theorem want_le (aggr r : Order) : want aggr r ≤ r.leavesQty.toNat := by
  rw [want]
  split <;> omega

theorem fill_le (h : Execution d o fs d' evs) :
    List.Forall₂ (fun r f => f.toNat ≤ r.leavesQty.toNat) (d.ordersOn o.side.book.opposite) fs :=
  h.fill_le_want.imp fun r _ hf => Nat.le_trans hf (want_le o r)

theorem sum_fills (h : Execution d o fs d' evs) :
    fs.sum.toNat = (fs.map UInt64.toNat).sum :=
  toNat_sum (Nat.lt_of_le_of_lt h.alloc.sum_le_avail o.leavesQty.toNat_lt)

/-- What is left of the order. -/
theorem leaves_left (h : Execution d o fs d' evs) :
    (o.fill fs.sum).leavesQty.toNat =
      o.leavesQty.toNat - (fs.map UInt64.toNat).sum := by
  rw [Order.leavesQty_fill, toNat_sub_of_le, h.sum_fills]
  rw [h.sum_fills]
  exact h.alloc.sum_le_avail

theorem leavesSum_residual (h : Execution d o fs d' evs) :
    leavesSum (residual o fs) + (fs.map UInt64.toNat).sum = o.leavesQty.toNat := by
  have hle := h.alloc.sum_le_avail
  have hleft := h.leaves_left
  rw [residual]
  split
  · rw [leavesSum_cons, leavesSum_nil]
    omega
  · rename_i hz
    have : ¬ 0 < (o.fill fs.sum).leavesQty.toNat := fun hc => hz (toNat_pos.mpr hc)
    rw [leavesSum_nil]
    omega

/-- An order left on the opposite ladder is one that was there, less a
fill that did not exhaust it. -/
theorem mem_opposite (h : Execution d o fs d' evs) {r : Order}
    (hr : r ∈ d'.ordersOn o.side.book.opposite) :
    ∃ x ∈ (d.ordersOn o.side.book.opposite).zip fs, r = x.1.fill x.2 ∧ r.leavesQty ≠ 0 := by
  rw [h.opposite, List.mem_filter] at hr
  obtain ⟨hr, hne⟩ := hr
  rw [fillQueue, ← List.map_uncurry_zip_eq_zipWith] at hr
  obtain ⟨x, hx, rfl⟩ := List.mem_map.mp hr
  exact ⟨x, hx, rfl, by simpa using hne⟩

/-- **With quantity left over, everybody gets what it asks for.** -/
theorem fill_eq_want (h : Execution d o fs d' evs)
    (hlt : (fs.map UInt64.toNat).sum < o.leavesQty.toNat) :
    ∀ x ∈ (d.ordersOn o.side.book.opposite).zip fs, x.2.toNat = want o x.1 := by
  have hall : List.Forall₂ (· = ·) (fs.map UInt64.toNat)
      ((d.ordersOn o.side.book.opposite).map (want o)) := by
    rw [h.alloc.eq_of_sum_lt hlt]
    exact List.forall₂_refl _
  rw [List.forall₂_map_left_iff, List.forall₂_map_right_iff] at hall
  exact fun x hx => (List.forall₂_iff_zip.mp hall.flip).2 hx

/-- **What rests crosses nothing that is left.** -/
theorem not_crosses (h : Execution d o fs d' evs) (hpos : 0 < (o.fill fs.sum).leavesQty)
    {r : Order} (hr : r ∈ d'.ordersOn o.side.book.opposite) :
    crosses o.side o.price r.price = false := by
  obtain ⟨x, hx, rfl, hne⟩ := h.mem_opposite hr
  by_contra hc
  have hcross : crosses o.side o.price x.1.price = true := Bool.eq_true_of_not_eq_false hc
  have hleft := h.leaves_left
  rw [toNat_pos, hleft] at hpos
  have hxf := h.fill_eq_want (by omega) x hx
  rw [want, if_pos hcross] at hxf
  refine ne_zero_iff_toNat.mp hne ?_
  rw [Order.leavesQty_fill, toNat_sub_of_le (by omega)]
  omega

end Execution

end Core

end OrderbookFix
