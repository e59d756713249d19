import OrderbookFix.Core.Helpers.Terms
import Mathlib.Logic.Relation
/-!
# The changes a submit is made of

The loops of a submit do four things to a book: a fill, a level's figure
booked with what it takes off the aggressor, an empty level erased and an
exhausted order dropped. `Change` has each with the test the source makes
before it, so that whatever all four keep is kept by a submit, on any book.
-/

namespace OrderbookFix

namespace Core

open Relation

/-- **One change**, made while the ladder `s` is walked. -/
inductive Change (s : BookSide) : MatchState → MatchState → Prop
  /-- a trade with an order of a level that is crossed -/
  | fill {st : MatchState} {px : Price} {l : PriceLevel} {p : Ptr} {o : Order} {q : Quantity} :
      (st.book.levels s).find? px = some l → p ∈ l.queue → st.book.heap.cells p = some o →
      crosses st.aggr.side st.aggr.price px = true → q ≠ 0 →
      Change s st { st with
        out := emitTrade st.out st.aggr o px q
        book := { st.book with
          heap := st.book.heap.write p { o with leavesQty := o.leavesQty - q } } }
  /-- the figure of a level, and the leaves of the aggressor -/
  | settle {st : MatchState} {px : Price} {l : PriceLevel} (total leaves : Quantity) :
      (st.book.levels s).find? px = some l →
      Change s st { st with
        book := st.book.modifyLevel s px fun _ => { l with totalQty := total }
        aggr := { st.aggr with leavesQty := leaves } }
  | erase {st : MatchState} {px : Price} {l : PriceLevel} :
      (st.book.levels s).find? px = some l → l.empty = true →
      Change s st { st with book := st.book.setLevels s ((st.book.levels s).erase px) }
  | drop {st : MatchState} {p : Ptr} {o : Order} :
      st.book.heap.cells p = some o → o.leavesQty = 0 →
      Change s st { st with book := st.book.drop p o }

section Steps

variable {s : BookSide} {px : Price} {st st' : MatchState} {l : PriceLevel}

theorem map_o_snapshot {b : OrderBook} {ps : List Ptr} {slots : List Slot}
    {total : Quantity} (h : snapshot b ps = .ok (slots, total)) : slots.map Slot.o = ps := by
  induction ps generalizing slots total with
  | nil =>
    obtain ⟨rfl, -⟩ := Prod.mk.inj (Except.ok.inj h)
    rfl
  | cons p ps ih =>
    obtain ⟨o, -, h⟩ := exists_of_bind_eq_ok h
    obtain ⟨⟨slots', total'⟩, hrest, h⟩ := exists_of_bind_eq_ok h
    obtain ⟨rfl, -⟩ := Prod.mk.inj (Except.ok.inj h)
    rw [List.map_cons, ih hrest]

/-- A loop over the queue of a crossed level fills and does nothing else;
the level stays as it was found. -/
theorem applySlots_changes {slots : List Slot} {filled filled' : Quantity} {δ δ' : Int}
    (hfind : (st.book.levels s).find? px = some l) (hmem : ∀ a ∈ slots, a.o ∈ l.queue)
    (hcross : crosses st.aggr.side st.aggr.price px = true)
    (h : applySlots px slots st filled δ = .ok (st', filled', δ')) :
    ReflTransGen (Change s) st st' := by
  induction slots generalizing st filled δ with
  | nil =>
    obtain ⟨rfl, -⟩ := Prod.mk.inj (Except.ok.inj h)
    exact .refl
  | cons a slots ih =>
    obtain ⟨ha, hmem⟩ := List.forall_mem_cons.mp hmem
    rw [applySlots] at h
    split at h
    · exact ih hfind hmem hcross h
    · rename_i hq
      obtain ⟨o, ho, h⟩ := exists_of_bind_eq_ok h
      obtain ⟨δ₁, -, h⟩ := exists_of_bind_eq_ok h
      exact .head (.fill hfind ha (cell_of_deref ho) hcross hq) (ih hfind hmem hcross h)

theorem fifoLoop_changes {available : Quantity} {ps : List Ptr} {filled filled' : Quantity}
    {δ δ' : Int} (hfind : (st.book.levels s).find? px = some l) (hmem : ∀ p ∈ ps, p ∈ l.queue)
    (hcross : crosses st.aggr.side st.aggr.price px = true)
    (h : fifoLoop px available ps st filled δ = .ok (st', filled', δ')) :
    ReflTransGen (Change s) st st' := by
  induction ps generalizing st filled δ with
  | nil =>
    obtain ⟨rfl, -⟩ := Prod.mk.inj (Except.ok.inj h)
    exact .refl
  | cons p ps ih =>
    obtain ⟨hp, hmem⟩ := List.forall_mem_cons.mp hmem
    rw [fifoLoop] at h
    split at h
    · obtain ⟨o, ho, h⟩ := exists_of_bind_eq_ok h
      dsimp only at h
      split at h
      · exact ih hfind hmem hcross h
      · rename_i hq
        obtain ⟨δ₁, -, h⟩ := exists_of_bind_eq_ok h
        exact .head (.fill hfind hp (cell_of_deref ho) hcross hq) (ih hfind hmem hcross h)
    · obtain ⟨rfl, -⟩ := Prod.mk.inj (Except.ok.inj h)
      exact .refl

theorem settle_change {filled : Quantity} {δ : Int} (h : settle s px st filled δ = .ok st') :
    Change s st st' := by
  rw [Core.settle] at h
  split at h
  · cases h
  · rename_i hfind
    obtain ⟨level, hnote, h⟩ := exists_of_bind_eq_ok h
    obtain ⟨sum, -, hnote⟩ := exists_of_bind_eq_ok hnote
    obtain rfl := Except.ok.inj hnote
    obtain rfl := Except.ok.inj h
    exact .settle _ _ hfind

theorem fillLevelProrata_changes {available : Quantity}
    (hfind : (st.book.levels s).find? px = some l)
    (hcross : crosses st.aggr.side st.aggr.price px = true)
    (h : fillLevelProrata s px l available st = .ok st') : ReflTransGen (Change s) st st' := by
  obtain ⟨⟨slots, total⟩, hsnap, h⟩ := exists_of_bind_eq_ok h
  dsimp only at h
  split at h
  · obtain rfl := Except.ok.inj h
    exact .refl
  · obtain ⟨⟨st₁, filled, δ⟩, hslots, h⟩ := exists_of_bind_eq_ok h
    refine .tail (applySlots_changes hfind (fun a ha => ?_) hcross hslots) (settle_change h)
    -- neither pass over the rows moves one to another node
    rw [← map_o_snapshot hsnap]
    have ha' := List.mem_map_of_mem (f := Slot.o) ha
    rwa [map_o_topUp, floorShares, List.map_map] at ha'

theorem fillLevelFifo_changes {available : Quantity}
    (hfind : (st.book.levels s).find? px = some l)
    (hcross : crosses st.aggr.side st.aggr.price px = true)
    (h : fillLevelFifo s px l available st = .ok st') : ReflTransGen (Change s) st st' := by
  obtain ⟨⟨st₁, filled, δ⟩, hloop, h⟩ := exists_of_bind_eq_ok h
  exact .tail (fifoLoop_changes hfind (fun _ => id) hcross hloop) (settle_change h)

theorem onLevel_changes {algo : MatchAlgo} {go : Bool} (h : onLevel algo s px st = .ok (go, st')) :
    ReflTransGen (Change s) st st' := by
  rw [onLevel] at h
  split at h
  · obtain ⟨-, rfl⟩ := Prod.mk.inj (Except.ok.inj h)
    exact .refl
  split at h
  · obtain ⟨-, rfl⟩ := Prod.mk.inj (Except.ok.inj h)
    exact .refl
  rename_i hcross
  have hcross : crosses st.aggr.side st.aggr.price px = true := by simpa using hcross
  split at h
  · cases h
  · rename_i l hfind
    cases algo with
    | proRata =>
      obtain ⟨st₁, hfill, h⟩ := exists_of_bind_eq_ok h
      obtain ⟨-, rfl⟩ := Prod.mk.inj (Except.ok.inj h)
      exact fillLevelProrata_changes hfind hcross hfill
    | fifo =>
      obtain ⟨st₁, hfill, h⟩ := exists_of_bind_eq_ok h
      obtain ⟨-, rfl⟩ := Prod.mk.inj (Except.ok.inj h)
      exact fillLevelFifo_changes hfind hcross hfill

theorem sweepQueue_changes {ps : List Ptr} {b : OrderBook}
    (h : sweepQueue ps st.book = .ok b) : ReflTransGen (Change s) st { st with book := b } := by
  induction ps generalizing st with
  | nil =>
    obtain rfl := Except.ok.inj h
    exact .refl
  | cons p ps ih =>
    obtain ⟨o, ho, h⟩ := exists_of_bind_eq_ok h
    split at h
    · rename_i hzero
      obtain ⟨b₁, hremove, h⟩ := exists_of_bind_eq_ok h
      obtain ⟨o', ho', hremove⟩ := exists_of_bind_eq_ok hremove
      obtain rfl := Except.ok.inj (ho.symm.trans ho')
      obtain rfl := Except.ok.inj hremove
      exact .head (.drop (cell_of_deref ho) hzero) (ih h)
    · exact ih h

theorem sweepLevel_changes {go : Bool} (h : sweepLevel s px st = .ok (go, st')) :
    ReflTransGen (Change s) st st' := by
  rw [sweepLevel] at h
  split at h
  · cases h
  · obtain ⟨b, hsweep, h⟩ := exists_of_bind_eq_ok h
    obtain ⟨-, rfl⟩ := Prod.mk.inj (Except.ok.inj h)
    exact sweepQueue_changes hsweep

/-- **A walk is made of the changes of its callback** and of erased levels. -/
theorem walkFrom_changes {fn : Price → MatchState → Except Fault (Bool × MatchState)}
    (hfn : ∀ px st go st', fn px st = .ok (go, st') → ReflTransGen (Change s) st st')
    {ps : List Price} (h : OrderBook.walkFrom s fn ps st = .ok st') :
    ReflTransGen (Change s) st st' := by
  induction ps generalizing st with
  | nil =>
    obtain rfl := Except.ok.inj h
    exact .refl
  | cons p ps ih =>
    rw [OrderBook.walkFrom] at h
    split at h
    · cases h
    rename_i hfind
    split at h
    · exact .head (.erase hfind ‹_›) (ih h)
    obtain ⟨⟨go, st₁⟩, hgo, h⟩ := exists_of_bind_eq_ok h
    refine (hfn p st go st₁ hgo).trans ?_
    dsimp only at h
    split at h
    · obtain rfl := Except.ok.inj h
      exact .refl
    split at h
    · cases h
    rename_i hfind'
    split at h
    · exact .head (.erase hfind' ‹_›) (ih h)
    · exact ih h

end Steps

/-- **A submit on any book**, change by change; what is left of the order
then rests. -/
theorem submit_changes {algo : MatchAlgo} {b b' : OrderBook} {o : Order} {evs : EventList}
    (h : submit algo b o = .ok (b', evs)) :
    ∃ st, ReflTransGen (Change o.side.book.opposite) ⟨b, o, [.ack ⟨o.id, o.clordId⟩]⟩ st ∧
      evs = st.out ∧ (b' = st.book.rest st.aggr ∨ b' = st.book) := by
  rw [submit_eq] at h
  obtain ⟨st₁, hmatch, h⟩ := exists_of_bind_eq_ok h
  obtain ⟨st₂, hsweep, h⟩ := exists_of_bind_eq_ok h
  refine ⟨st₂, (walkFrom_changes (fun _ _ _ _ => onLevel_changes) hmatch).trans
    (walkFrom_changes (fun _ _ _ _ => sweepLevel_changes) hsweep), ?_⟩
  split at h
  · obtain ⟨rfl, rfl⟩ := Prod.mk.inj (Except.ok.inj h)
    exact ⟨rfl, .inl rfl⟩
  · obtain ⟨rfl, rfl⟩ := Prod.mk.inj (Except.ok.inj h)
    exact ⟨rfl, .inr rfl⟩

/-- The events of a submit name the order and the orders it trades with. -/
theorem event_of_submit {algo : MatchAlgo} {b b' : OrderBook} {o : Order} {evs : EventList}
    (h : submit algo b o = .ok (b', evs)) {ev : Event} (hev : ev ∈ evs) :
    ev = .ack ⟨o.id, o.clordId⟩ ∨ ∃ t, ev = .trade t ∧ t.aggressorClord = o.clordId := by
  obtain ⟨st, hchanges, rfl, -⟩ := submit_changes h
  have hinv : st.aggr.clordId = o.clordId ∧ ∀ ev ∈ st.out, ev = .ack ⟨o.id, o.clordId⟩ ∨
      ∃ t, ev = .trade t ∧ t.aggressorClord = o.clordId := by
    clear h hev
    induction hchanges with
    | refl => exact ⟨rfl, fun ev hev => .inl (List.mem_singleton.mp hev)⟩
    | tail _ hchange ih =>
      obtain ⟨hclord, hout⟩ := ih
      cases hchange with
      | fill hfind hmem ho hcross hq =>
        refine ⟨hclord, fun ev hev => ?_⟩
        rcases List.mem_append.mp hev with hev | hev
        · exact hout ev hev
        · exact .inr ⟨_, List.mem_singleton.mp hev, hclord⟩
      | settle total leaves hfind => exact ⟨hclord, hout⟩
      | erase hfind hempty => exact ⟨hclord, hout⟩
      | drop ho hzero => exact ⟨hclord, hout⟩
  exact hinv.2 ev hev

end Core

end OrderbookFix
