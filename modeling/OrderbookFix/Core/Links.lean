import OrderbookFix.Common.Run
import OrderbookFix.Common.Walk
import OrderbookFix.Core.Model.Linked
/-!
# The queue behind the links

A level of the book is modelled with a list of addresses for its queue.
The source keeps head, tail and links instead; this file shows that the
two agree. Pushing a node appends it and unlinking one deletes it in
place, whether it is the head, the tail, both or neither: `next` read from
the head gives the list and `prev` read from the tail its reverse.
-/

namespace OrderbookFix

namespace Core

namespace Linked

/-- A link of the node at an address. -/
def linkAt (h : Heap Node) (k : Link) (p : Ptr) : Option Ptr := (h.cells p).bind (Node.get · k)

/-- The orders the nodes hold. -/
def orders (h : Heap Node) : Heap Order := h.map Node.order

/-- Change a link of a node, if there is one. -/
def turn (h : Heap Node) (k : Link) (p : Option Ptr) (v : Option Ptr) : Heap Node :=
  match p with
  | some p => relink h k p v
  | none => h

/-! ## Reading changed nodes -/

section Reading

variable {h : Heap Node} {k j : Link} {p q : Ptr} {v w : Option Ptr} {o : Order}

theorem linkAt_relink (hp : (orders h).cells p = some o) :
    linkAt (relink h k p v) j q = if q = p ∧ j = k then v else linkAt h j q := by
  obtain ⟨n, hn, -⟩ := Option.map_eq_some_iff.mp hp
  by_cases hq : q = p
  · subst hq
    rw [linkAt, linkAt, relink, Heap.modify_self h hn, hn]
    cases j <;> cases k <;> simp [Node.get, Node.set]
  · rw [linkAt, relink, Heap.modify_of_ne h hq, if_neg fun h => hq h.1, linkAt]

@[simp] theorem orders_relink : orders (relink h k p v) = orders h :=
  Heap.map_modify h _ fun _ => by cases k <;> rfl

@[simp] theorem orders_turn : orders (turn h k v w) = orders h := by
  cases v with
  | none => rfl
  | some p => exact orders_relink

theorem linkAt_turn (hv : ∀ p, v = some p → ∃ o, (orders h).cells p = some o) :
    linkAt (turn h k v w) j q = if v = some q ∧ j = k then w else linkAt h j q := by
  cases v with
  | none => rfl
  | some p =>
    obtain ⟨o, ho⟩ := hv p rfl
    rw [turn, linkAt_relink ho]
    simp only [Option.some.injEq, eq_comm]

/-- A node that holds an order can be read. -/
theorem deref_of_orders (hp : (orders h).cells p = some o) :
    deref h p = .ok ⟨o, linkAt h .prev p, linkAt h .next p⟩ := by
  obtain ⟨n, hn, rfl⟩ := Option.map_eq_some_iff.mp hp
  rw [deref, hn, linkAt, linkAt, hn]
  rfl

theorem assign_of_orders (hp : (orders h).cells p = some o) :
    assign k h p v = .ok (relink h k p v) := by
  rw [assign, deref_of_orders hp]
  rfl

end Reading

/-! ## The two operations, evaluated -/

section Operations

variable {h : Heap Node} {l : PriceLevel} {p : Ptr} {o : Order}

theorem assignOr_eq {k : Link} {a v stop : Option Ptr}
    (ha : ∀ p, a = some p → ∃ o, (orders h).cells p = some o) :
    assignOr k h a v stop = .ok (turn h k a v, if a = none then v else stop) := by
  cases a with
  | none => rfl
  | some p =>
    obtain ⟨o, ho⟩ := ha p rfl
    rw [assignOr, assign_of_orders ho]
    rfl

/-- The nodes after `push_back`. -/
def pushed (h : Heap Node) (l : PriceLevel) (p : Ptr) : Heap Node :=
  turn (relink (relink h .prev p l.tail) .next p none) .next l.tail (some p)

theorem pushBack_eq (hp : (orders h).cells p = some o)
    (htail : ∀ t, l.tail = some t → ∃ o, (orders h).cells t = some o) :
    l.pushBack h p = .ok (pushed h l p,
      ⟨if l.tail = none then some p else l.head, some p, l.count + 1,
        l.totalQty + o.leavesQty⟩) := by
  have hprev : setPrev h p l.tail = .ok _ := assign_of_orders hp
  have hnext : setNext (relink h .prev p l.tail) p none = .ok _ :=
    assign_of_orders (by rwa [orders_relink])
  have hlast := @assignOr_eq (relink (relink h .prev p l.tail) .next p none) .next l.tail (some p)
    l.head (by simpa using htail)
  have hread := @deref_of_orders (pushed h l p) p o (by simpa [pushed] using hp)
  rw [pushed] at hread
  rw [PriceLevel.pushBack, hprev, pushed]
  simp only [bind, Except.bind, hnext, hlast, hread]
  rfl

/-- The nodes after `unlink`, its two neighbours joined. -/
def joined (h : Heap Node) (p : Ptr) : Heap Node :=
  turn (turn h .next (linkAt h .prev p) (linkAt h .next p)) .prev (linkAt h .next p)
    (linkAt h .prev p)

def unlinked (h : Heap Node) (p : Ptr) : Heap Node :=
  relink (relink (joined h p) .next p none) .prev p none

theorem unlink_eq (hp : (orders h).cells p = some o)
    (hlive : ∀ k q, linkAt h k p = some q → q ≠ p ∧ ∃ o, (orders h).cells q = some o) :
    l.unlink h p = .ok (unlinked h p,
      ⟨if linkAt h .prev p = none then linkAt h .next p else l.head,
        if linkAt h .next p = none then linkAt h .prev p else l.tail,
        l.count - 1, l.totalQty - o.leavesQty⟩) := by
  set a := linkAt h .prev p with ha
  set b := linkAt h .next p with hb
  have hfirst := @assignOr_eq h .next a b l.head fun q hq => (hlive .prev q (ha ▸ hq)).2
  -- the node itself is not touched before its links are cleared
  have hsame : ∀ k, linkAt (turn h .next a b) k p = linkAt h k p := fun k => by
    rw [linkAt_turn fun q hq => (hlive .prev q (ha ▸ hq)).2]
    exact if_neg fun hc => (hlive .prev p (ha ▸ hc.1)).1 rfl
  have hread := @deref_of_orders (turn h .next a b) p o (by simpa using hp)
  rw [hsame, hsame, ← ha, ← hb] at hread
  have hsecond := @assignOr_eq (turn h .next a b) .prev b a l.tail fun q hq => by
    simpa using (hlive .next q (hb ▸ hq)).2
  have hnext : setNext (joined h p) p none = .ok _ :=
    assign_of_orders (by simpa [joined] using hp)
  have hprev : setPrev (relink (joined h p) .next p none) p none = .ok _ :=
    assign_of_orders (by simpa [joined] using hp)
  have hlast := @deref_of_orders (unlinked h p) p o (by simpa [unlinked, joined] using hp)
  rw [unlinked] at hlast
  rw [joined, ← ha, ← hb] at hnext hprev hlast
  rw [PriceLevel.unlink, deref_of_orders hp, unlinked, joined, ← ha, ← hb]
  simp only [bind, Except.bind, hfirst, hread, hsecond, hnext, hprev, hlast]
  rfl

end Operations

/-! ## Links against the list -/

/-- **The links of a level stand for its queue.** -/
structure Stands (h : Heap Node) (l : PriceLevel) (pl : Core.PriceLevel) : Prop where
  nodup : pl.queue.Nodup
  live : ∀ p ∈ pl.queue, ∃ o, (orders h).cells p = some o
  forward : Walk (linkAt h .next) l.head pl.queue
  backward : Walk (linkAt h .prev) l.tail pl.queue.reverse
  apart : ∀ p, p ∉ pl.queue → ∀ k, linkAt h k p = none
  count : l.count = pl.count
  totalQty : l.totalQty = pl.totalQty

namespace Stands

variable {h : Heap Node} {l : PriceLevel} {pl : Core.PriceLevel} {p : Ptr} {o : Order}

theorem head_eq (hs : Stands h l pl) : l.head = pl.queue.head? := hs.forward.start_eq

theorem tail_eq (hs : Stands h l pl) : l.tail = pl.queue.getLast? := by
  rw [hs.backward.start_eq, List.head?_reverse]

theorem live_tail (hs : Stands h l pl) :
    ∀ t, l.tail = some t → ∃ o, (orders h).cells t = some o := by
  intro t ht
  rw [hs.tail_eq] at ht
  exact hs.live t (List.mem_of_getLast? ht)

theorem linkAt_pushed (hs : Stands h l pl) (hp : p ∉ pl.queue) (ho : (orders h).cells p = some o)
    (q : Ptr) :
    linkAt (pushed h l p) .prev q = (if q = p then l.tail else linkAt h .prev q) ∧
      linkAt (pushed h l p) .next q =
        if l.tail = some q then some p else linkAt h .next q := by
  have hclear : linkAt h .next p = none := hs.apart p hp .next
  have hstep : ∀ k, linkAt (pushed h l p) k q =
      if l.tail = some q ∧ k = .next then some p
      else if q = p ∧ k = .next then none
      else if q = p ∧ k = .prev then l.tail else linkAt h k q := fun k => by
    rw [pushed, linkAt_turn (by simpa using hs.live_tail), linkAt_relink (by simpa using ho),
      linkAt_relink ho]
  rw [hstep, hstep]
  by_cases hq : q = p
  · simp [hq, hclear]
  · simp [hq]

/-- A node off the queue is none of its ends. -/
theorem ends_ne (hs : Stands h l pl) (hp : p ∉ pl.queue) : l.head ≠ some p ∧ l.tail ≠ some p := by
  rw [hs.head_eq, hs.tail_eq]
  exact ⟨fun hc => hp (List.mem_of_head? hc), fun hc => hp (List.mem_of_getLast? hc)⟩

theorem forward_pushed (hs : Stands h l pl) (hp : p ∉ pl.queue)
    (ho : (orders h).cells p = some o) :
    Walk (linkAt (pushed h l p) .next) (if l.tail = none then some p else l.head)
      (pl.queue ++ [p]) := by
  have hlinks := hs.linkAt_pushed hp ho
  have hwalk : Walk (linkAt (pushed h l p) .next) (pl.queue ++ [p]).head? (pl.queue ++ [p]) := by
    refine hs.forward.concat hs.nodup ?_ (fun a ha => ?_) fun a _ ha => ?_
    · rw [(hlinks p).2, if_neg (hs.ends_ne hp).2, hs.apart p hp .next]
    · rw [(hlinks a).2, hs.tail_eq, if_pos ha]
    · rw [(hlinks a).2, hs.tail_eq, if_neg ha]
  have hstart : (if l.tail = none then some p else l.head) = (pl.queue ++ [p]).head? := by
    rw [hs.tail_eq, hs.head_eq]
    cases pl.queue with
    | nil => rfl
    | cons a as => simp
  rwa [hstart]

/-- **`push_back` appends.** -/
theorem pushBack (hs : Stands h l pl) (hp : p ∉ pl.queue) (ho : (orders h).cells p = some o) :
    ∃ h' l', l.pushBack h p = .ok (h', l') ∧ orders h' = orders h ∧
      Stands h' l' (pl.pushBack p o) := by
  have hlinks := hs.linkAt_pushed hp ho
  have hne : ∀ q ∈ pl.queue, q ≠ p := fun q hq he => hp (he ▸ hq)
  have horders : orders (pushed h l p) = orders h := by simp [pushed]
  refine ⟨_, _, pushBack_eq ho hs.live_tail, horders, ?_⟩
  refine ⟨?_, ?_, hs.forward_pushed hp ho, ?_, ?_, ?_, ?_⟩
  · exact List.nodup_append.mpr ⟨hs.nodup, List.nodup_singleton p, fun a ha b hb => by
      rw [List.mem_singleton.mp hb]; exact hne a ha⟩
  · intro q hq
    rw [horders]
    rcases List.mem_append.mp hq with hq | hq
    · exact hs.live q hq
    · exact ⟨o, List.mem_singleton.mp hq ▸ ho⟩
  · change Walk _ (some p) (pl.queue ++ [p]).reverse
    rw [List.reverse_append]
    refine hs.backward.cons ?_ fun a ha => ?_
    · rw [(hlinks p).1, if_pos rfl]
    · rw [(hlinks a).1, if_neg (hne a (List.mem_reverse.mp ha))]
  · intro q hq k
    obtain ⟨hq, hqp⟩ := not_or.mp (List.mem_append.not.mp hq)
    rw [List.mem_singleton] at hqp
    cases k with
    | prev => rw [(hlinks q).1, if_neg hqp, hs.apart q hq .prev]
    | next => rw [(hlinks q).2, if_neg (hs.ends_ne hq).2, hs.apart q hq .next]
  · exact congrArg (· + 1) hs.count
  · exact congrArg (· + o.leavesQty) hs.totalQty

/-! ### Unlinking -/

variable {pre post : List Ptr}

/-- The links of a node are its neighbours in the queue. -/
theorem linkAt_of_split (hs : Stands h l pl) (hq : pl.queue = pre ++ p :: post) :
    linkAt h .prev p = pre.getLast? ∧ linkAt h .next p = post.head? := by
  have hf := hs.forward
  have hb := hs.backward
  rw [hq] at hf hb
  rw [List.reverse_append, List.reverse_cons, List.append_assoc] at hb
  refine ⟨?_, hf.link_eq⟩
  rw [← List.head?_reverse]
  exact hb.link_eq

theorem live_links (hs : Stands h l pl) (hq : pl.queue = pre ++ p :: post) (k : Link) (q : Ptr)
    (hk : linkAt h k p = some q) : q ≠ p ∧ ∃ o, (orders h).cells q = some o := by
  obtain ⟨hprev, hnext⟩ := hs.linkAt_of_split hq
  have hnd := hs.nodup
  rw [hq] at hnd
  have hmem : q ∈ pre ++ post := by
    cases k with
    | prev => exact List.mem_append_left _ (List.mem_of_getLast? (hprev ▸ hk))
    | next => exact List.mem_append_right _ (List.mem_of_head? (hnext ▸ hk))
  refine ⟨?_, hs.live q ?_⟩
  · rintro rfl
    exact (List.nodup_cons.mp (List.nodup_middle.mp hnd)).1 hmem
  · rw [hq]
    rcases List.mem_append.mp hmem with h | h
    · exact List.mem_append_left _ h
    · exact List.mem_append_right _ (List.mem_cons_of_mem _ h)

theorem linkAt_unlinked (hs : Stands h l pl) (hq : pl.queue = pre ++ p :: post)
    (ho : (orders h).cells p = some o) {q : Ptr} (hqp : q ≠ p) :
    linkAt (unlinked h p) .prev q =
        (if post.head? = some q then pre.getLast? else linkAt h .prev q) ∧
      linkAt (unlinked h p) .next q =
        if pre.getLast? = some q then post.head? else linkAt h .next q := by
  obtain ⟨hprev, hnext⟩ := hs.linkAt_of_split hq
  have hlive := hs.live_links hq
  have hstep : ∀ k, linkAt (unlinked h p) k q =
      if post.head? = some q ∧ k = .prev then pre.getLast?
      else if pre.getLast? = some q ∧ k = .next then post.head? else linkAt h k q := fun k => by
    rw [unlinked, linkAt_relink (by simpa [joined] using ho), if_neg fun hc => hqp hc.1,
      linkAt_relink (by simpa [joined] using ho), if_neg fun hc => hqp hc.1, joined,
      linkAt_turn (by simpa using fun q hq => (hlive .next q hq).2),
      linkAt_turn fun q hq => (hlive .prev q hq).2, hprev, hnext]
  rw [hstep, hstep]
  simp

/-- An unlinked node has no links left. -/
theorem linkAt_unlinked_self (ho : (orders h).cells p = some o) (k : Link) :
    linkAt (unlinked h p) k p = none := by
  rw [unlinked, linkAt_relink (by simpa [joined] using ho),
    linkAt_relink (by simpa [joined] using ho)]
  cases k <;> simp

theorem forward_unlinked (hs : Stands h l pl) (hq : pl.queue = pre ++ p :: post)
    (ho : (orders h).cells p = some o) (hne : ∀ q ∈ pre ++ post, q ≠ p) :
    Walk (linkAt (unlinked h p) .next)
      (if linkAt h .prev p = none then linkAt h .next p else l.head) (pre ++ post) := by
  obtain ⟨hprev, hnext⟩ := hs.linkAt_of_split hq
  have hf := hs.forward
  have hnd := hs.nodup
  rw [hq] at hf hnd
  have hwalk : Walk (linkAt (unlinked h p) .next) (pre ++ post).head? (pre ++ post) := by
    refine hf.remove hnd (fun a ha => ?_) fun a ha hlast => ?_
    · have hap := hne a (List.mem_append_left _ (List.mem_of_getLast? ha))
      rw [(hs.linkAt_unlinked hq ho hap).2, if_pos ha, hnext]
    · rw [(hs.linkAt_unlinked hq ho (hne a ha)).2, if_neg hlast]
  have hstart : (if linkAt h .prev p = none then linkAt h .next p else l.head) =
      (pre ++ post).head? := by
    rw [hprev, hnext, hs.head_eq, hq]
    cases pre with
    | nil => rfl
    | cons a pre => simp
  rwa [hstart]

/-- The way back is the way there, with the queue turned round. -/
theorem backward_unlinked (hs : Stands h l pl) (hq : pl.queue = pre ++ p :: post)
    (ho : (orders h).cells p = some o) (hne : ∀ q ∈ pre ++ post, q ≠ p) :
    Walk (linkAt (unlinked h p) .prev)
      (if linkAt h .next p = none then linkAt h .prev p else l.tail) (pre ++ post).reverse := by
  obtain ⟨hprev, hnext⟩ := hs.linkAt_of_split hq
  have hrev : pl.queue.reverse = post.reverse ++ p :: pre.reverse := by
    rw [hq, List.reverse_append, List.reverse_cons, List.append_assoc]
    rfl
  have hb := hs.backward
  have hnd := List.nodup_reverse.mpr hs.nodup
  rw [hrev] at hb hnd
  rw [List.reverse_append]
  have hwalk : Walk (linkAt (unlinked h p) .prev) (post.reverse ++ pre.reverse).head?
      (post.reverse ++ pre.reverse) := by
    refine hb.remove hnd (fun a ha => ?_) fun a ha hlast => ?_
    · rw [List.getLast?_reverse] at ha
      have hap := hne a (List.mem_append_right _ (List.mem_of_head? ha))
      rw [(hs.linkAt_unlinked hq ho hap).1, if_pos ha, hprev]
    · rw [List.getLast?_reverse] at hlast
      have hmem : a ∈ pre ++ post := by
        rw [← List.mem_reverse, List.reverse_append]
        exact ha
      rw [(hs.linkAt_unlinked hq ho (hne a hmem)).1, if_neg hlast]
  have hstart : (if linkAt h .next p = none then linkAt h .prev p else l.tail) =
      (post.reverse ++ pre.reverse).head? := by
    rw [hprev, hnext, hs.tail_eq, ← List.head?_reverse (l := pl.queue), hrev,
      ← List.getLast?_reverse]
    cases post.reverse with
    | nil => simp
    | cons a as => simp
  rwa [hstart]

/-- **`unlink` deletes in place.** -/
theorem unlink (hs : Stands h l pl) (hp : p ∈ pl.queue) (ho : (orders h).cells p = some o) :
    ∃ h' l', l.unlink h p = .ok (h', l') ∧ orders h' = orders h ∧
      Stands h' l' (pl.unlink p o) := by
  obtain ⟨pre, post, hq⟩ := List.append_of_mem hp
  have hnd := hs.nodup
  rw [hq] at hnd
  obtain ⟨hnotMem, hrest⟩ := List.nodup_cons.mp (List.nodup_middle.mp hnd)
  have hne : ∀ q ∈ pre ++ post, q ≠ p := fun q hq he => hnotMem (he ▸ hq)
  have herase : (pl.unlink p o).queue = pre ++ post := by
    change pl.queue.erase p = _
    rw [hq, List.erase_append_right _ fun hc => hnotMem (List.mem_append_left _ hc),
      List.erase_cons_head]
  have horders : orders (unlinked h p) = orders h := by simp [unlinked, joined]
  refine ⟨_, _, unlink_eq ho (hs.live_links hq), horders, ?_⟩
  refine ⟨herase ▸ hrest, ?_, herase ▸ hs.forward_unlinked hq ho hne,
    herase ▸ hs.backward_unlinked hq ho hne, ?_, ?_, ?_⟩
  · intro q hmem
    rw [horders]
    exact hs.live q (List.mem_of_mem_erase hmem)
  · intro q hmem k
    rw [herase] at hmem
    by_cases hqp : q = p
    · rw [hqp, linkAt_unlinked_self ho]
    have hoff : q ∉ pl.queue := by
      rw [hq]
      simp only [List.mem_append, List.mem_cons] at hmem ⊢
      tauto
    obtain ⟨hpre, hpost⟩ := not_or.mp (List.mem_append.not.mp hmem)
    obtain ⟨hprev, hnext⟩ := hs.linkAt_unlinked hq ho hqp
    cases k with
    | prev => rw [hprev, if_neg fun hc => hpost (List.mem_of_head? hc), hs.apart q hoff .prev]
    | next => rw [hnext, if_neg fun hc => hpre (List.mem_of_getLast? hc), hs.apart q hoff .next]
  · exact congrArg (· - 1) hs.count
  · exact congrArg (· - o.leavesQty) hs.totalQty

end Stands

/-! ## Sequences of operations -/

/-- The abstract queue: append at the end, delete in place. -/
def Op.apply (xs : List Ptr) : Op → List Ptr
  | .pushBack p => xs ++ [p]
  | .unlink p => xs.erase p

/-- What is pushed is a node that is not linked, what is unlinked is one
that is. -/
def Op.Permitted (h : Heap Node) (xs : List Ptr) : Op → Prop
  | .pushBack p => p ∉ xs ∧ (h.cells p).isSome = true
  | .unlink p => p ∈ xs

instance (h : Heap Node) (xs : List Ptr) : (op : Op) → Decidable (op.Permitted h xs)
  | .pushBack p => inferInstanceAs (Decidable (p ∉ xs ∧ (h.cells p).isSome = true))
  | .unlink p => inferInstanceAs (Decidable (p ∈ xs))

/-- The abstract queue as a system. -/
def fifo (xs : List Ptr) (op : Op) : Except Fault (List Ptr × List Empty) := .ok (op.apply xs, [])

theorem run_fifo (xs : List Ptr) (ops : List Op) :
    run fifo xs ops = .ok (ops.foldl Op.apply xs, []) := by
  induction ops generalizing xs with
  | nil => rfl
  | cons op ops ih =>
    have hop : fifo xs op = .ok (op.apply xs, []) := rfl
    rw [run_cons_of_ok hop, ih]
    rfl

/-- The leaves of the order at an address. -/
def leavesAt (h : Heap Node) (p : Ptr) : ℕ :=
  ((h.cells p).map fun n => n.order.leavesQty.toNat).getD 0

/-- **A level is a queue**: its links lead through it both ways, its
figures are those of the queue, and a node off it has no links. -/
structure IsQueue (h : Heap Node) (l : PriceLevel) (xs : List Ptr) : Prop where
  forward : ∀ ys, Walk (linkAt h .next) l.head ys ↔ ys = xs
  backward : ∀ ys, Walk (linkAt h .prev) l.tail ys ↔ ys = xs.reverse
  empty : l.empty = true ↔ xs = []
  count : l.count = xs.length
  total : l.totalQty.toNat = (xs.map (leavesAt h)).sum % 2 ^ 64
  apart : ∀ p n, h.cells p = some n → p ∉ xs → n.prev = none ∧ n.next = none

/-- A level of the book whose figures are those of its queue. -/
structure Exact (h : Heap Node) (pl : Core.PriceLevel) : Prop where
  count : pl.count = pl.queue.length
  total : pl.totalQty.toNat = (pl.queue.map (leavesAt h)).sum % 2 ^ 64

section Sequences

variable {h h' : Heap Node} {l : PriceLevel} {pl : Core.PriceLevel} {p : Ptr} {o : Order}

theorem leavesAt_of_orders (ho : (orders h).cells p = some o) :
    leavesAt h p = o.leavesQty.toNat := by
  obtain ⟨n, hn, rfl⟩ := Option.map_eq_some_iff.mp ho
  rw [leavesAt, hn]
  rfl

theorem leavesAt_congr (hh : orders h' = orders h) : leavesAt h' = leavesAt h := by
  funext p
  have hp : ((orders h').cells p).map (fun o => o.leavesQty.toNat) =
      ((orders h).cells p).map fun o => o.leavesQty.toNat := by rw [hh]
  simp only [orders, Heap.map, Option.map_map] at hp
  exact congrArg (Option.getD · 0) hp

theorem Exact.pushBack (he : Exact h pl) (ho : (orders h).cells p = some o) :
    Exact h (pl.pushBack p o) where
  count := by
    rw [Core.PriceLevel.pushBack, List.length_append, List.length_singleton]
    exact congrArg (· + 1) he.count
  total := by
    rw [Core.PriceLevel.pushBack, List.map_append, List.sum_append, List.map_singleton,
      List.sum_singleton, leavesAt_of_orders ho, UInt64.toNat_add, he.total, Nat.mod_add_mod]

theorem Exact.unlink (he : Exact h pl) (hp : p ∈ pl.queue) (ho : (orders h).cells p = some o) :
    Exact h (pl.unlink p o) where
  count := by
    rw [Core.PriceLevel.unlink, List.length_erase_of_mem hp]
    exact congrArg (· - 1) he.count
  total := by
    have hsum : (pl.queue.map (leavesAt h)).sum =
        o.leavesQty.toNat + ((pl.queue.erase p).map (leavesAt h)).sum := by
      rw [← leavesAt_of_orders ho, ← List.sum_cons, ← List.map_cons]
      exact ((List.perm_cons_erase hp).map _).sum_nat
    have hlt := o.leavesQty.toNat_lt
    change (pl.totalQty - o.leavesQty).toNat = ((pl.queue.erase p).map (leavesAt h)).sum % 2 ^ 64
    rw [UInt64.toNat_sub, he.total, hsum]
    omega

theorem Stands.isQueue (hs : Stands h l pl) (he : Exact h pl) : IsQueue h l pl.queue where
  forward _ := hs.forward.iff_eq
  backward _ := hs.backward.iff_eq
  empty := by
    rw [PriceLevel.empty, hs.head_eq]
    cases pl.queue <;> simp
  count := hs.count.trans he.count
  total := by rw [hs.totalQty, he.total]
  apart q n hn hq := by
    have hk := hs.apart q hq
    simp only [linkAt, hn, Option.bind_some] at hk
    exact ⟨hk .prev, hk .next⟩

/-- An operation on the nodes is the operation on the list. -/
theorem step_stands {op : Op} (hs : Stands h l pl) (he : Exact h pl)
    (hop : op.Permitted h pl.queue) :
    ∃ h' l' pl', step (h, l) op = .ok ((h', l'), []) ∧ orders h' = orders h ∧
      pl'.queue = op.apply pl.queue ∧ Stands h' l' pl' ∧ Exact h' pl' := by
  cases op with
  | pushBack p =>
    obtain ⟨hp, hlive⟩ := hop
    obtain ⟨n, hn⟩ := Option.isSome_iff_exists.mp hlive
    have ho : (orders h).cells p = some n.order := Option.map_eq_some_iff.mpr ⟨n, hn, rfl⟩
    obtain ⟨h', l', heq, hsame, hs'⟩ := hs.pushBack hp ho
    have he' := he.pushBack ho
    refine ⟨h', l', _, by rw [step, heq]; rfl, hsame, rfl, hs', he'.count, ?_⟩
    rw [leavesAt_congr hsame]
    exact he'.total
  | unlink p =>
    obtain ⟨o, ho⟩ := hs.live p hop
    obtain ⟨h', l', heq, hsame, hs'⟩ := hs.unlink hop ho
    have he' := he.unlink hop ho
    refine ⟨h', l', _, by rw [step, heq]; rfl, hsame, rfl, hs', he'.count, ?_⟩
    rw [leavesAt_congr hsame]
    exact he'.total

/-- Which operations are permitted is a matter of the orders there are. -/
theorem Op.Permitted.congr {op : Op} {xs : List Ptr} (hop : op.Permitted h xs)
    (hsame : orders h' = orders h) : op.Permitted h' xs := by
  cases op with
  | pushBack p =>
    refine ⟨hop.1, ?_⟩
    have hcell := congrArg (fun H : Heap Order => (H.cells p).isSome) hsame
    simp only [orders, Heap.map, Option.isSome_map] at hcell
    rw [hcell]
    exact hop.2
  | unlink p => exact hop

/-- Nodes as they are constructed are a level with an empty queue. -/
theorem stands_new (hnew : ∀ p n, h.cells p = some n → n.prev = none ∧ n.next = none) :
    Stands h {} Core.PriceLevel.new := by
  refine ⟨.nil, fun p hp => absurd hp List.not_mem_nil, .done, .done, fun p _ k => ?_, rfl, rfl⟩
  rcases hn : h.cells p with _ | n
  · rw [linkAt, hn]
    rfl
  · rw [linkAt, hn]
    cases k with
    | prev => exact (hnew p n hn).1
    | next => exact (hnew p n hn).2

/-- The nodes and the level after some operations, against the abstract
queue. -/
def Tracks (h : Heap Node) (m : Heap Node × PriceLevel) (xs : List Ptr) : Prop :=
  orders m.1 = orders h ∧
    ∃ pl : Core.PriceLevel, pl.queue = xs ∧ Stands m.1 m.2 pl ∧ Exact m.1 pl

theorem Tracks.step {m : Heap Node × PriceLevel} {xs : List Ptr} {op : Op}
    (ht : Tracks h m xs) (hop : op.Permitted h xs) :
    ∃ m', Linked.step m op = .ok (m', []) ∧ Tracks h m' (op.apply xs) := by
  obtain ⟨hsame, pl, rfl, hs, he⟩ := ht
  obtain ⟨h', l', pl', heq, hsame', hpl', hs', he'⟩ := step_stands hs he (hop.congr hsame)
  exact ⟨(h', l'), heq, hsame'.trans hsame, pl', hpl', hs', he'⟩

end Sequences

/-- **A price level represents a queue.** Whatever nodes are pushed and
unlinked, the level is the list of those that were pushed and not yet
unlinked, in the order they came. -/
theorem run_isQueue (h : Heap Node)
    (hnew : ∀ p n, h.cells p = some n → n.prev = none ∧ n.next = none) (ops : List Op)
    (hops : Guarded fifo (Op.Permitted h) [] ops) :
    ∃ h' l, run step (h, {}) ops = .ok ((h', l), []) ∧ orders h' = orders h ∧
      IsQueue h' l (ops.foldl Op.apply []) := by
  have hstart : Tracks h (h, {}) [] :=
    ⟨rfl, Core.PriceLevel.new, rfl, stands_new hnew, rfl, rfl⟩
  obtain ⟨⟨h', l⟩, outs, hrun, hsame, pl, hpl, hs, he⟩ := run_sim
    (fun m xs op xs' out' ht hop hfifo => by
      obtain ⟨rfl, -⟩ := Prod.mk.inj (Except.ok.inj hfifo)
      obtain ⟨m', hstep, ht'⟩ := ht.step hop
      exact ⟨m', [], hstep, ht'⟩) hstart hops (run_fifo [] ops)
  obtain rfl : outs = [] := by
    rcases outs with _ | ⟨e, -⟩
    · rfl
    · cases e
  exact ⟨h', l, hrun, hsame, hpl ▸ hs.isQueue he⟩

/-- Three orders of 5, 7 and 9, in nodes as they are constructed. -/
def threeNodes : Heap Node :=
  (((Heap.empty.alloc ⟨⟨1, 0, ⟨ascii "A"⟩, .buy, 10, 5, 5⟩, none, none⟩).alloc
    ⟨⟨2, 0, ⟨ascii "B"⟩, .buy, 10, 7, 7⟩, none, none⟩).alloc
    ⟨⟨3, 0, ⟨ascii "C"⟩, .buy, 10, 9, 9⟩, none, none⟩)

/-- The middle one is unlinked, then the head, then the middle one comes
back. -/
theorem run_isQueue_middle_and_head :
    ∃ h' l, run step (threeNodes, {})
        [.pushBack 0, .pushBack 1, .pushBack 2, .unlink 1, .unlink 0, .pushBack 1] =
          .ok ((h', l), []) ∧
      orders h' = orders threeNodes ∧ IsQueue h' l [2, 1] := by
  refine run_isQueue threeNodes (fun p n hn => ?_) _ (by decide)
  by_cases hp : p < 3
  · obtain rfl | rfl | rfl : p = 0 ∨ p = 1 ∨ p = 2 := by omega
    all_goals
      obtain rfl := Option.some.inj hn
      exact ⟨rfl, rfl⟩
  · rw [threeNodes.fresh p (Nat.le_of_not_lt hp)] at hn
    cases hn

end Linked

end Core

end OrderbookFix
