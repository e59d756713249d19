import OrderbookFix.Core.Helpers.Follow
/-!
# The code over nodes is the book over values

Three levels of one design. At the bottom the book as the source has it,
with links in nodes and loops that follow them; above it the book over
queues; on top the book as values, with neither address nor index. The
bottom refines the middle on every run, and the top on every run that
reuses no live key and stays within the range of its sums.
-/

namespace OrderbookFix

namespace Core

/-! ## The book as values, under calls -/

/-- The book as values and the algorithm it is matched with. -/
structure Market where
  depth : Depth
  algo : MatchAlgo

namespace Market

/-- The empty book. -/
def new (algo : MatchAlgo) : Market := ⟨Depth.new, algo⟩

/-- One call. -/
def step (m : Market) : Call → Market × EventList
  | .setAlgo a => ({ m with algo := a }, [])
  | c => ({ m with depth := (m.depth.step m.algo c).1 }, (m.depth.step m.algo c).2)

/-- One call after another. -/
def after : Market → List Call → Market × EventList
  | m, [] => (m, [])
  | m, c :: cs =>
    let (m', evs) := m.step c
    let (m'', evs') := m'.after cs
    (m'', evs ++ evs')

theorem after_concat (m : Market) (cs : List Call) (c : Call) :
    m.after (cs ++ [c]) =
      (((m.after cs).1.step c).1, (m.after cs).2 ++ ((m.after cs).1.step c).2) := by
  induction cs generalizing m with
  | nil => simp [after]
  | cons d cs ih => simp [after, ih, List.append_assoc]

/-- A call on the values, by the book alone. -/
theorem step_eq (m : Market) (c : Call) :
    (m.step c).1.depth = (m.depth.step m.algo c).1 ∧ (m.step c).2 = (m.depth.step m.algo c).2 := by
  cases c <;> exact ⟨rfl, rfl⟩

/-- The algorithm is what it is set to. -/
theorem algo_step {m : Market} {e e' : Engine} {c : Call} {evs : EventList}
    (h : e.step c = .ok (e', evs)) (halgo : e.algo = m.algo) : e'.algo = (m.step c).1.algo := by
  cases c with
  | submit n =>
    rw [Engine.step] at h
    split at h
    · cases h
    · rw [← (Prod.mk.inj (Except.ok.inj h)).1]
      exact halgo
  | cancel s clord =>
    rw [Engine.step] at h
    split at h
    · cases h
    · rw [← (Prod.mk.inj (Except.ok.inj h)).1]
      exact halgo
  | setAlgo a => rw [← (Prod.mk.inj (Except.ok.inj h)).1]; rfl

end Market

/-- The book over queues is the book over values. -/
theorem run_market (algo : MatchAlgo) (calls : List Call)
    (hfresh : Guarded Engine.step Engine.Fresh (Engine.new algo) calls)
    (hsum : submittedQty calls < 2 ^ 63) :
    ∃ e, run Engine.step (Engine.new algo) calls = .ok (e, ((Market.new algo).after calls).2) ∧
      Rep e.book ((Market.new algo).after calls).1.depth := by
  obtain ⟨e, evs, hr, hrep, -, -, -, rfl⟩ := run_inv_ok (H := fun cs => submittedQty cs < 2 ^ 63)
    (J := fun past evs (e : Engine) =>
      Rep e.book ((Market.new algo).after past).1.depth ∧
        ((Market.new algo).after past).1.depth.Good ∧
        leavesSum ((Market.new algo).after past).1.depth.orders ≤ submittedQty past ∧
        e.algo = ((Market.new algo).after past).1.algo ∧
        evs = ((Market.new algo).after past).2)
    (fun cs cs' h => by rw [submittedQty_append] at h; omega)
    (fun past evs e c hJ hf h => by
      obtain ⟨hrep, hgood, hle, halgo, rfl⟩ := hJ
      obtain ⟨e', hs, hnext⟩ := step_good hrep hgood hle hf h
      obtain ⟨hdepth, hevs⟩ := ((Market.new algo).after past).1.step_eq c
      rw [halgo] at hnext
      rw [Market.after_concat]
      refine ⟨e', _, hs, hdepth ▸ hnext.1, hdepth ▸ hnext.2.1, hdepth ▸ hnext.2.2,
        Market.algo_step hs halgo, ?_⟩
      rw [halgo, hevs])
    ⟨rep_new, good_new, Nat.zero_le _, rfl, rfl⟩ hfresh hsum
  exact ⟨e, hr, hrep⟩

namespace Linked

/-! ## One call -/

/-- The two engines, side by side. -/
structure Alike (D : Prop) (e : Engine) (e' : Core.Engine) : Prop where
  book : Mirrors D e.book e'.book
  algo : e.algo = e'.algo

theorem alike_new {D : Prop} (algo : MatchAlgo) :
    Alike D (Engine.new algo) (Core.Engine.new algo) := ⟨.new, rfl⟩

/-- **A call on the one is the call on the other.** -/
theorem step_agrees {D : Prop} {e : Engine} {e' : Core.Engine} (c : Call) (h : Alike D e e')
    (hfresh : D ∨ e'.Fresh c) :
    Agrees D (fun r r' => Alike D r.1 r'.1 ∧ r.2 = r'.2) (e.step c) (e'.step c) := by
  cases c with
  | submit n =>
    have hsub := @submit_agrees D e.book e'.book n.order e.algo h.book hfresh
    rw [h.algo] at hsub
    rw [Engine.step, Core.Engine.step, h.algo]
    rcases hr : submit e'.algo e.book n.order with f | ⟨b, evs⟩
    · rw [hr] at hsub
      obtain hx | ⟨f', rfl, hr'⟩ := hsub.of_error
      · exact Refines.excuse (e := f) hx _
      · rw [hr']
        exact .error f'
    · rw [hr] at hsub
      obtain ⟨⟨b', evs'⟩, hr', hb, hevs⟩ := hsub.of_ok
      rw [hr']
      exact .ok ⟨⟨hb, rfl⟩, hevs⟩
  | cancel s clord =>
    have hcan := cancel_agrees h.book s clord
    rw [Engine.step, Core.Engine.step]
    rcases hr : e.book.cancel s clord with f | ⟨res, b⟩
    · rw [hr] at hcan
      obtain hx | ⟨f', rfl, hr'⟩ := hcan.of_error
      · exact Refines.excuse (e := f) hx _
      · rw [hr']
        exact .error f'
    · rw [hr] at hcan
      obtain ⟨⟨res', b'⟩, hr', -, hb⟩ := hcan.of_ok
      rw [hr']
      exact .ok ⟨⟨hb, h.algo⟩, rfl⟩
  | setAlgo a => exact .ok ⟨⟨h.book, rfl⟩, rfl⟩

/-! ## Runs -/

/-- **Whatever is called, the code over nodes does what the book over
queues does**: it returns the same events with a book that mirrors the
other, or it stops where the other stops, or it reads a node that a
reused key has freed. No loop goes on for ever. -/
theorem run_nodes (algo : MatchAlgo) (calls : List Call) :
    (∃ e e' evs, run Engine.step (Engine.new algo) calls = .ok (e, evs) ∧
      run Core.Engine.step (Core.Engine.new algo) calls = .ok (e', evs) ∧
      Mirrors True e.book e'.book) ∨
    ∃ f, run Engine.step (Engine.new algo) calls = .error (.fault f) ∧
      (f = .danglingRead ∨ run Core.Engine.step (Core.Engine.new algo) calls = .error f) := by
  have hall : Guarded Core.Engine.step (fun _ _ => True) (Core.Engine.new algo) calls :=
    guarded_of_forall (fun _ _ => trivial) _ calls
  have hrun := run_refines (R := Alike True)
    (fun _ _ c h _ => step_agrees c h (.inl trivial)) (alike_new algo) hall
  rcases hr : run Engine.step (Engine.new algo) calls with f | ⟨e, evs⟩
  · rw [hr] at hrun
    obtain ⟨rfl, -⟩ | ⟨f, rfl, hr'⟩ := hrun.of_error
    · exact .inr ⟨_, rfl, .inl rfl⟩
    · exact .inr ⟨f, rfl, .inr hr'⟩
  · rw [hr] at hrun
    obtain ⟨⟨e', evs'⟩, hr', he, hevs⟩ := hrun.of_ok
    obtain rfl : evs = evs' := hevs
    exact .inl ⟨e, e', evs, rfl, hr', he.book⟩

-- the second order is destroyed under its reused key, and the third is linked behind it
example :
    let calls : List Call := [.submit ⟨1, 0, ⟨ascii "A"⟩, .buy, 10, 5⟩,
      .submit ⟨2, 0, ⟨ascii "A"⟩, .buy, 9, 5⟩, .submit ⟨3, 0, ⟨ascii "C"⟩, .buy, 9, 5⟩]
    raises (.fault .danglingRead) (run Engine.step (Engine.new .fifo) calls) = true ∧
      passes (fun _ => true) (run Core.Engine.step (Core.Engine.new .fifo) calls) = true := by
  decide +kernel

/-- **The links of a book lead through queues of orders**: from the head
along `next` and from the tail along `prev`, with exact figures, and the
index has exactly these orders. -/
structure Reads (b : OrderBook) (d : Depth) : Prop where
  prices : ∀ s, (b.levels s).entries.map Prod.fst = (d.ladder s).map Prod.fst
  level : ∀ s px os, (px, os) ∈ d.ladder s → ∃ l ps, (b.levels s).find? px = some l ∧
    Walk (linkAt b.heap .next) l.head ps ∧ Walk (linkAt b.heap .prev) l.tail ps.reverse ∧
    ps.map (orders b.heap).cells = os.map some ∧ l.count = os.length ∧
    l.totalQty = (os.map Order.leavesQty).sum
  index : ∀ k o, (∃ p, b.index.lookup k = some p ∧ (orders b.heap).cells p = some o) ↔
    o ∈ d.orders ∧ o.key = k

/-- Where no node is dead, what the links show can be walked. -/
theorem Mirrors.reads {nb : OrderBook} {b : Core.OrderBook} {d : Depth} (h : Mirrors False nb b)
    (hrep : Rep b d) : Reads nb d where
  prices s := (h.keys s).trans (map_fst_of_forall₂ (hrep.levels s))
  level s px os hmem := by
    obtain ⟨pre, post, hd⟩ := List.append_of_mem hmem
    obtain ⟨es, fs, pl, hsplit, -, hl, -⟩ := hrep.split hd
    have hfind := OrderedMap.find?_of_split hsplit
    obtain ⟨l, hnl, hs⟩ := h.find? hfind
    have hlive : ∀ p ∈ pl.queue, Live nb.heap p := fun p hp =>
      h.live_iff.mpr (h.tidy.live.resolve_left id s px p (nodesAt_of_find? hfind ▸ hp))
    refine ⟨l, pl.queue, hnl, hs.forward.walk hlive,
      hs.backward.walk fun p hp => hlive p (List.mem_reverse.mp hp), ?_, hs.count.trans hl.count,
      hs.totalQty.trans hl.total⟩
    rw [h.orders]
    exact hl.queue
  index k o := by
    rw [h.index, h.orders]
    constructor
    · rintro ⟨p, hp, ho⟩
      obtain ⟨hlinked, hkey⟩ := (hrep.index k p).mp hp
      obtain ⟨r, hr, hcell⟩ := hrep.exists_of_linked hlinked
      obtain rfl := Option.some.inj (hcell.symm.trans ho)
      rw [keyAt, ho] at hkey
      exact ⟨hr, Option.some.inj hkey⟩
    · rintro ⟨ho, rfl⟩
      obtain ⟨p, hp, hcell⟩ := hrep.exists_ptr ho
      exact ⟨p, (hrep.index _ p).mpr ⟨hp, by rw [keyAt, hcell]; rfl⟩, hcell⟩

/-- Three sells at one price, the middle one cancelled, a buy that fills
one of the others in part, and one that sweeps them. -/
def sweeping : List Call :=
  [.submit ⟨1, 0, ⟨ascii "A"⟩, .sell, 10, 5⟩, .submit ⟨2, 0, ⟨ascii "B"⟩, .sell, 10, 7⟩,
    .submit ⟨3, 0, ⟨ascii "C"⟩, .sell, 10, 9⟩, .cancel 0 ⟨ascii "B"⟩,
    .submit ⟨4, 0, ⟨ascii "D"⟩, .buy, 10, 3⟩, .submit ⟨5, 0, ⟨ascii "E"⟩, .buy, 11, 20⟩]

/-- **With keys that are not reused no read dangles**: the code over
nodes returns what the book over queues returns, with a book whose links
can be followed from end to end, or both leave the range of a signed
sum. -/
theorem run_nodes_fresh (algo : MatchAlgo) (calls : List Call)
    (hfresh : Guarded Core.Engine.step Core.Engine.Fresh (Core.Engine.new algo) calls) :
    (run Engine.step (Engine.new algo) calls = .error (.fault .signedOverflow) ∧
      run Core.Engine.step (Core.Engine.new algo) calls = .error .signedOverflow) ∨
    ∃ e e' evs d, run Engine.step (Engine.new algo) calls = .ok (e, evs) ∧
      run Core.Engine.step (Core.Engine.new algo) calls = .ok (e', evs) ∧ Rep e'.book d ∧
      Reads e.book d := by
  have hrun := run_refines (R := Alike False) (fun _ _ c h hf => step_agrees c h (.inr hf))
    (alike_new algo) hfresh
  rcases run_inv (E := (· = Fault.signedOverflow)) (H := fun _ : List Call => True)
      (J := fun _ (_ : EventList) (e : Core.Engine) => ∃ d, Rep e.book d) (fun _ _ _ => trivial)
      (fun past outs e c hJ hf _ => by
        obtain ⟨d, hrep⟩ := hJ
        rcases step_sim hrep hf with ⟨-, hs⟩ | ⟨-, e', hs, hrep'⟩
        · exact .inl ⟨_, hs, rfl⟩
        · exact .inr ⟨e', _, hs, _, hrep'⟩)
      ⟨Depth.new, rep_new⟩ hfresh trivial with
    ⟨f, hr', rfl⟩ | ⟨e', evs', hr', d, hrep⟩
  · rw [hr'] at hrun
    refine .inl ⟨?_, hr'⟩
    rcases hr : run Engine.step (Engine.new algo) calls with f | r
    · rw [hr] at hrun
      obtain ⟨-, hfalse⟩ | ⟨f', rfl, hf'⟩ := hrun.of_error
      · exact hfalse.elim
      · rw [Except.error.inj hf']
    · rw [hr] at hrun
      obtain ⟨r', herr, -⟩ := hrun.of_ok
      cases herr
  · rw [hr'] at hrun
    rcases hr : run Engine.step (Engine.new algo) calls with f | ⟨e, evs⟩
    · rw [hr] at hrun
      obtain ⟨-, hfalse⟩ | ⟨f', -, hf'⟩ := hrun.of_error
      · exact hfalse.elim
      · cases hf'
    · rw [hr] at hrun
      obtain ⟨r', hr₁, he, hevs⟩ := hrun.of_ok
      obtain rfl := Except.ok.inj hr₁
      obtain rfl : evs = evs' := hevs
      exact .inr ⟨e, e', evs, d, rfl, hr', hrep, he.book.reads hrep⟩

/-- A partial fill, a cancel in the middle of a queue, and an order that
sweeps the rest. -/
theorem run_nodes_fresh_sweep :
    (run Engine.step (Engine.new .proRata) sweeping = .error (.fault .signedOverflow) ∧
      run Core.Engine.step (Core.Engine.new .proRata) sweeping = .error .signedOverflow) ∨
    ∃ e e' evs d, run Engine.step (Engine.new .proRata) sweeping = .ok (e, evs) ∧
      run Core.Engine.step (Core.Engine.new .proRata) sweeping = .ok (e', evs) ∧ Rep e'.book d ∧
      Reads e.book d :=
  run_nodes_fresh .proRata sweeping (by decide +kernel)

/-- **The code over nodes is the book over values.** For every run that
reuses no live key and hands in less than half the word size, the code
returns, its events are those of the values, and following its links reads
the values back. -/
theorem run_nodes_market (algo : MatchAlgo) (calls : List Call)
    (hfresh : Guarded Core.Engine.step Core.Engine.Fresh (Core.Engine.new algo) calls)
    (hsum : submittedQty calls < 2 ^ 63) :
    ∃ e, run Engine.step (Engine.new algo) calls =
        .ok (e, ((Market.new algo).after calls).2) ∧
      Reads e.book ((Market.new algo).after calls).1.depth := by
  obtain ⟨e', hr', hrep⟩ := run_market algo calls hfresh hsum
  have hrun := run_refines (R := Alike False) (fun _ _ c h hf => step_agrees c h (.inr hf))
    (alike_new algo) hfresh
  rw [hr'] at hrun
  rcases hr : run Engine.step (Engine.new algo) calls with f | ⟨e, evs⟩
  · rw [hr] at hrun
    obtain ⟨-, hfalse⟩ | ⟨f', -, hf'⟩ := hrun.of_error
    · exact hfalse.elim
    · cases hf'
  · rw [hr] at hrun
    obtain ⟨r', hr₁, he, hevs⟩ := hrun.of_ok
    obtain rfl := Except.ok.inj hr₁
    obtain rfl : evs = _ := hevs
    exact ⟨e, rfl, he.book.reads hrep⟩

theorem run_nodes_market_sweep :
    ∃ e, run Engine.step (Engine.new .fifo) sweeping =
        .ok (e, ((Market.new .fifo).after sweeping).2) ∧
      Reads e.book ((Market.new .fifo).after sweeping).1.depth :=
  run_nodes_market .fifo sweeping (by decide +kernel) (by decide)

end Linked

end Core

end OrderbookFix
