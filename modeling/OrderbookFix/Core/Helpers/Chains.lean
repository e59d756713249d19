import OrderbookFix.Common.Trail
import OrderbookFix.Core.Links
import OrderbookFix.Core.Model.Nodes
/-!
# One level among others

`push_back` and `unlink` on a level whose nodes share a heap with other
levels, and of whose nodes some may be dead. Either the operation reads a
dead neighbour, or it does to the links what it does to the queue and
touches no node outside it.
-/

namespace OrderbookFix

namespace Core

namespace Linked

/-- A node that can be read. -/
def Live (h : Heap Node) (p : Ptr) : Prop := ∃ o, (orders h).cells p = some o

/-- **The links of a level show its queue**, as far as they can be
read. -/
structure Shown (h : Heap Node) (l : PriceLevel) (pl : Core.PriceLevel) : Prop where
  forward : Trail (Live h) (linkAt h .next) l.head pl.queue
  backward : Trail (Live h) (linkAt h .prev) l.tail pl.queue.reverse
  count : l.count = pl.count
  totalQty : l.totalQty = pl.totalQty

section Dead

variable {h : Heap Node} {k : Link} {l : PriceLevel} {p t : Ptr} {v stop : Option Ptr} {o : Order}

theorem deref_dead (hp : ¬ Live h p) : deref h p = .error .danglingRead := by
  rcases hn : h.cells p with _ | n
  · rw [deref, hn]
  · exact absurd ⟨n.order, Option.map_eq_some_iff.mpr ⟨n, hn, rfl⟩⟩ hp

theorem assignOr_dead (hp : ¬ Live h p) : assignOr k h (some p) v stop = .error .danglingRead := by
  rw [assignOr, assign, deref_dead hp]
  rfl

theorem live_relink : Live (relink h k p v) t ↔ Live h t := by rw [Live, orders_relink, Live]

theorem live_turn {a : Option Ptr} : Live (turn h k a v) t ↔ Live h t := by
  rw [Live, orders_turn, Live]

/-- `push_back` behind a dead tail. -/
theorem pushBack_dead (hp : (orders h).cells p = some o) (htail : l.tail = some t)
    (ht : ¬ Live h t) : l.pushBack h p = .error .danglingRead := by
  have hprev : setPrev h p l.tail = .ok _ := assign_of_orders hp
  have hnext : setNext (relink h .prev p l.tail) p none = .ok _ :=
    assign_of_orders (by rwa [orders_relink])
  have hlast : assignOr .next (relink (relink h .prev p l.tail) .next p none) l.tail (some p)
      l.head = .error .danglingRead := by
    rw [htail]
    exact assignOr_dead (by rwa [live_relink, live_relink])
  rw [PriceLevel.pushBack, hprev]
  simp only [bind, Except.bind, hnext, hlast]

/-- `unlink` next to a dead node. -/
theorem unlink_dead (hp : (orders h).cells p = some o) {q : Ptr} (hq : linkAt h k p = some q)
    (hdead : ¬ Live h q) (hself : ∀ k, linkAt h k p ≠ some p) :
    l.unlink h p = .error .danglingRead := by
  rw [PriceLevel.unlink, deref_of_orders hp]
  simp only [bind, Except.bind]
  cases k with
  | prev => rw [hq, assignOr_dead hdead]
  | next =>
    rcases ha : linkAt h .prev p with _ | a
    · simp only [assignOr, pure, Except.pure, deref_of_orders hp, ha, hq]
      rw [assign, deref_dead hdead]
      rfl
    · by_cases hlive : Live h a
      · have hfirst := @assignOr_eq h .next (some a) (some q) l.head
          fun b hb => Option.some.inj hb ▸ hlive
        have hsame : ∀ k, linkAt (turn h .next (some a) (some q)) k p = linkAt h k p := fun k => by
          rw [linkAt_turn fun b hb => Option.some.inj hb ▸ hlive]
          exact if_neg fun hc => hself .prev (ha.trans hc.1)
        have hread := @deref_of_orders (turn h .next (some a) (some q)) p o (by simpa using hp)
        rw [hsame, hsame, ha, hq] at hread
        have hsecond : assignOr .prev (turn h .next (some a) (some q)) (some q) (some a) l.tail =
            .error .danglingRead := assignOr_dead (by rwa [live_turn])
        simp only [hq, hfirst, hread, hsecond]
      · rw [assignOr_dead hlive]

end Dead

namespace Shown

variable {h h' : Heap Node} {l : PriceLevel} {pl : Core.PriceLevel} {p : Ptr} {o : Order}

theorem new : Shown h {} Core.PriceLevel.new := ⟨.nil, .nil, rfl, rfl⟩

theorem head_eq (hs : Shown h l pl) : l.head = pl.queue.head? := hs.forward.start_eq

theorem tail_eq (hs : Shown h l pl) : l.tail = pl.queue.getLast? := by
  rw [hs.backward.start_eq, List.head?_reverse]

theorem empty_eq (hs : Shown h l pl) : l.empty = pl.empty := by
  rw [PriceLevel.empty, Core.PriceLevel.empty, hs.head_eq]
  cases pl.queue <;> rfl

/-- A level depends on its own nodes only, and on fewer as they die. -/
theorem congr (hs : Shown h l pl)
    (hlink : ∀ q ∈ pl.queue, Live h' q → Live h q ∧ ∀ k, linkAt h' k q = linkAt h k q) :
    Shown h' l pl where
  forward := hs.forward.congr fun q hq hl => ⟨(hlink q hq hl).1, (hlink q hq hl).2 .next⟩
  backward := hs.backward.congr fun q hq hl =>
    have hq := hlink q (List.mem_reverse.mp hq) hl
    ⟨hq.1, hq.2 .prev⟩
  count := hs.count
  totalQty := hs.totalQty

/-! ### Pushing -/

theorem linkAt_pushed (htail : ∀ t, l.tail = some t → Live h t)
    (ho : (orders h).cells p = some o) (q : Ptr) :
    linkAt (pushed h l p) .prev q = (if q = p then l.tail else linkAt h .prev q) ∧
      linkAt (pushed h l p) .next q =
        if l.tail = some q then some p else if q = p then none else linkAt h .next q := by
  have hstep : ∀ k, linkAt (pushed h l p) k q =
      if l.tail = some q ∧ k = .next then some p
      else if q = p ∧ k = .next then none
      else if q = p ∧ k = .prev then l.tail else linkAt h k q := fun k => by
    rw [pushed, linkAt_turn (by simp only [orders_relink]; exact htail),
      linkAt_relink (by simpa using ho), linkAt_relink ho]
  rw [hstep, hstep]
  simp

/-- **`push_back` appends**, or finds the tail dead. -/
theorem pushBack (hs : Shown h l pl) (hnd : pl.queue.Nodup) (hp : p ∉ pl.queue)
    (ho : (orders h).cells p = some o) :
    ((∃ t ∈ pl.queue, ¬ Live h t) ∧ l.pushBack h p = .error .danglingRead) ∨
      ∃ h' l', l.pushBack h p = .ok (h', l') ∧ orders h' = orders h ∧
        Shown h' l' (pl.pushBack p o) ∧
        ∀ q k, q ≠ p → q ∉ pl.queue → linkAt h' k q = linkAt h k q := by
  by_cases htail : ∀ t, l.tail = some t → Live h t
  · refine .inr ⟨_, _, pushBack_eq ho htail, by simp [pushed], ?_, fun q k hq hmem => ?_⟩
    · have hlinks := linkAt_pushed htail ho
      have hlive : ∀ q, Live (pushed h l p) q → Live h q := fun q hq => by
        simpa [pushed, live_turn, live_relink] using hq
      have hne : ∀ q ∈ pl.queue, q ≠ p := fun q hq he => hp (he ▸ hq)
      have hforward : Trail (Live (pushed h l p)) (linkAt (pushed h l p) .next)
          (pl.queue ++ [p]).head? (pl.queue ++ [p]) := by
        refine hs.forward.concat hnd ?_ (fun a ha => ?_) fun a hmem ha hl => ⟨hlive a hl, ?_⟩
        · have hlast : l.tail ≠ some p := fun hc =>
            hp (List.mem_of_getLast? (hs.tail_eq ▸ hc))
          rw [(hlinks p).2, if_neg hlast, if_pos rfl]
        · rw [(hlinks a).2, hs.tail_eq, if_pos ha]
        · rw [(hlinks a).2, hs.tail_eq, if_neg ha, if_neg (hne a hmem)]
      have hstart : (if l.tail = none then some p else l.head) = (pl.queue ++ [p]).head? := by
        rw [hs.tail_eq, hs.head_eq]
        cases pl.queue with
        | nil => rfl
        | cons a as => simp
      refine ⟨by rw [hstart]; exact hforward, ?_, congrArg (· + 1) hs.count,
        congrArg (· + o.leavesQty) hs.totalQty⟩
      change Trail _ _ (some p) (pl.queue ++ [p]).reverse
      rw [List.reverse_append]
      refine hs.backward.cons ?_ fun a ha hl => ⟨hlive a hl, ?_⟩
      · rw [(hlinks p).1, if_pos rfl]
      · rw [(hlinks a).1, if_neg (hne a (List.mem_reverse.mp ha))]
    · have hlast : l.tail ≠ some q := fun hc => hmem (List.mem_of_getLast? (hs.tail_eq ▸ hc))
      obtain ⟨hprev, hnext⟩ := linkAt_pushed htail ho q
      cases k with
      | prev => rw [hprev, if_neg hq]
      | next => rw [hnext, if_neg hlast, if_neg hq]
  · -- the tail is a node of the queue that is dead
    push Not at htail
    obtain ⟨t, ht, hdead⟩ := htail
    exact .inl ⟨⟨t, List.mem_of_getLast? (hs.tail_eq ▸ ht), hdead⟩, pushBack_dead ho ht hdead⟩

/-! ### Unlinking -/

variable {pre post : List Ptr}

/-- The links of a live node are its neighbours in the queue. -/
theorem linkAt_of_split (hs : Shown h l pl) (hq : pl.queue = pre ++ p :: post)
    (hp : Live h p) : linkAt h .prev p = pre.getLast? ∧ linkAt h .next p = post.head? := by
  refine ⟨?_, hs.forward.link_eq pre p post hq hp⟩
  rw [← List.head?_reverse]
  refine hs.backward.link_eq post.reverse p pre.reverse ?_ hp
  rw [hq, List.reverse_append, List.reverse_cons, List.append_assoc]
  rfl

theorem linkAt_unlinked (hlive : ∀ k q, linkAt h k p = some q → Live h q)
    (ho : (orders h).cells p = some o) {q : Ptr} (hqp : q ≠ p) :
    linkAt (unlinked h p) .prev q =
        (if linkAt h .next p = some q then linkAt h .prev p else linkAt h .prev q) ∧
      linkAt (unlinked h p) .next q =
        if linkAt h .prev p = some q then linkAt h .next p else linkAt h .next q := by
  have hstep : ∀ k, linkAt (unlinked h p) k q =
      if linkAt h .next p = some q ∧ k = .prev then linkAt h .prev p
      else if linkAt h .prev p = some q ∧ k = .next then linkAt h .next p
      else linkAt h k q := fun k => by
    rw [unlinked, linkAt_relink (by simpa [joined] using ho), if_neg fun hc => hqp hc.1,
      linkAt_relink (by simpa [joined] using ho), if_neg fun hc => hqp hc.1, joined,
      linkAt_turn (by simp only [orders_turn]; exact hlive .next),
      linkAt_turn fun q hq => hlive .prev q hq]
  rw [hstep, hstep]
  simp

/-- **`unlink` deletes in place**, or finds a neighbour dead. -/
theorem unlink (hs : Shown h l pl) (hnd : pl.queue.Nodup) (hp : p ∈ pl.queue)
    (ho : (orders h).cells p = some o) :
    ((∃ t ∈ pl.queue, ¬ Live h t) ∧ l.unlink h p = .error .danglingRead) ∨
      ∃ h' l', l.unlink h p = .ok (h', l') ∧ orders h' = orders h ∧
        Shown h' l' (pl.unlink p o) ∧ ∀ q k, q ∉ pl.queue → linkAt h' k q = linkAt h k q := by
  obtain ⟨pre, post, hq⟩ := List.append_of_mem hp
  obtain ⟨hprev, hnext⟩ := hs.linkAt_of_split hq ⟨o, ho⟩
  rw [hq] at hnd
  obtain ⟨hnotMem, hrest⟩ := List.nodup_cons.mp (List.nodup_middle.mp hnd)
  -- a neighbour is another node of the queue
  have hnear : ∀ k q, linkAt h k p = some q → q ∈ pre ++ post := by
    intro k q hk
    cases k with
    | prev => exact List.mem_append_left _ (List.mem_of_getLast? (hprev ▸ hk))
    | next => exact List.mem_append_right _ (List.mem_of_head? (hnext ▸ hk))
  have hmem : ∀ q ∈ pre ++ post, q ∈ pl.queue := fun q hqm => by
    rw [hq]
    simp only [List.mem_append, List.mem_cons] at hqm ⊢
    tauto
  have hself : ∀ k, linkAt h k p ≠ some p := fun k hk => hnotMem (hnear k p hk)
  by_cases hlive : ∀ k q, linkAt h k p = some q → Live h q
  · have hne : ∀ q ∈ pre ++ post, q ≠ p := fun q hqm he => hnotMem (he ▸ hqm)
    have hsame : orders (unlinked h p) = orders h := by simp [unlinked, joined]
    have hback : ∀ q, Live (unlinked h p) q → Live h q := fun q hl => by
      rwa [Live, hsame] at hl
    have herase : (pl.unlink p o).queue = pre ++ post := by
      change pl.queue.erase p = _
      rw [hq, List.erase_append_right _ fun hc => hnotMem (List.mem_append_left _ hc),
        List.erase_cons_head]
    have hlinks : ∀ q ∈ pre ++ post, _ := fun q hqm => linkAt_unlinked hlive ho (hne q hqm)
    refine .inr ⟨_, _, unlink_eq ho fun k q hk => ⟨fun he => hself k (he ▸ hk), hlive k q hk⟩,
      hsame, ⟨?_, ?_, congrArg (· - 1) hs.count, congrArg (· - o.leavesQty) hs.totalQty⟩,
      fun q k hqm => ?_⟩
    · have hstart : (if linkAt h .prev p = none then linkAt h .next p else l.head) =
          (pre ++ post).head? := by
        rw [hprev, hnext, hs.head_eq, hq]
        cases pre with
        | nil => rfl
        | cons a pre => simp
      rw [herase, hstart]
      refine (hq ▸ hs.forward).remove hnd (fun a ha => ?_) fun a ham ha hl => ⟨hback a hl, ?_⟩
      · rw [(hlinks a (List.mem_append_left _ (List.mem_of_getLast? ha))).2, hprev, if_pos ha,
          hnext]
      · rw [(hlinks a ham).2, hprev, if_neg ha]
    · -- the way back is the way there, with the queue turned round
      have hrev : pl.queue.reverse = post.reverse ++ p :: pre.reverse := by
        rw [hq, List.reverse_append, List.reverse_cons, List.append_assoc]
        rfl
      have hstart : (if linkAt h .next p = none then linkAt h .prev p else l.tail) =
          (post.reverse ++ pre.reverse).head? := by
        rw [hprev, hnext, hs.tail_eq, ← List.head?_reverse (l := pl.queue), hrev,
          ← List.getLast?_reverse]
        cases post.reverse with
        | nil => simp
        | cons a as => simp
      rw [herase, List.reverse_append, hstart]
      refine (hrev ▸ hs.backward).remove (hrev ▸ List.nodup_reverse.mpr (hq ▸ hnd))
        (fun a ha => ?_) fun a ham ha hl => ⟨hback a hl, ?_⟩
      · rw [List.getLast?_reverse] at ha
        rw [(hlinks a (List.mem_append_right _ (List.mem_of_head? ha))).1, hnext, if_pos ha,
          hprev, List.head?_reverse]
      · rw [List.getLast?_reverse] at ha
        have ham' : a ∈ pre ++ post := by
          rw [← List.mem_reverse, List.reverse_append]
          exact ham
        rw [(hlinks a ham').1, hnext, if_neg ha]
    · have hqp : q ≠ p := fun he => hqm (he ▸ hp)
      have hfar : ∀ k, linkAt h k p ≠ some q := fun k hk => hqm (hmem q (hnear k q hk))
      obtain ⟨hprev', hnext'⟩ := linkAt_unlinked hlive ho hqp
      cases k with
      | prev => rw [hprev', if_neg (hfar .next)]
      | next => rw [hnext', if_neg (hfar .prev)]
  · push Not at hlive
    obtain ⟨k, q, hk, hdead⟩ := hlive
    exact .inl ⟨⟨q, hmem q (hnear k q hk), hdead⟩, unlink_dead ho hk hdead hself⟩

end Shown

end Linked

end Core

end OrderbookFix
