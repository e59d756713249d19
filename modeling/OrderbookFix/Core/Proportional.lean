import OrderbookFix.Common.Apportion
import OrderbookFix.Core.Helpers.Alloc
/-!
# Pro-rata shares of a level

One level filled in proportion. The law is over the integers: each order
gets its rounded-down share of the fill, and what rounding leaves goes
head to tail. The matcher multiplies 64-bit words, and a product that
wraps gives an order less than its share. The quantity is not lost, it is
handed out head to tail with the rest, so the outcome is the law's
exactly if the orders before the one that wrapped are filled anyway.

Where no product wraps, what rounding leaves is fewer units than there
are orders, and nobody gets any of it before the older orders are filled.
-/

namespace OrderbookFix

namespace Core

open Alloc (floor proportional)

/-! ## One level filled -/

/-- **A level of the book being matched**: `level` is the one at `px`, no
order is linked in it twice, it holds `os`, oldest first, and their
leaves add up to less than half the word size. -/
structure LevelAt (st : MatchState) (s : BookSide) (px : Price) (level : PriceLevel)
    (os : List Order) : Prop where
  found : (st.book.levels s).find? px = some level
  nodup : level.queue.Nodup
  rep : LevelRep st.book.heap level os
  bound : leavesSum os < 2 ^ 63

/-- The leaves of a queue as naturals. -/
def leaves (os : List Order) : List ℕ := os.map fun o => o.leavesQty.toNat

/-- **The level is filled by `fs`**, one fill for each order: the trades
emitted and the orders written back are those of the fills. -/
structure FilledBy (st : MatchState) (s : BookSide) (px : Price) (level : PriceLevel)
    (os : List Order) (available : Quantity) (fs : List Quantity) : Prop where
  length : fs.length = os.length
  filled : ∃ st', fillLevelProrata s px level available st = .ok st' ∧
    level.queue.map st'.book.heap.cells = (fillQueue os fs).map some ∧
    st'.out = st.out ++ (tradesOf st.aggr px os fs).map .trade ∧
    st'.aggr = st.aggr.fill fs.sum

section Level

variable {st : MatchState} {s : BookSide} {px : Price} {level : PriceLevel} {os : List Order}
variable {available : Quantity} {fs gs : List Quantity}

theorem leaves_eq (os : List Order) : leaves os = (os.map Order.leavesQty).map UInt64.toNat :=
  (map_leavesQty_toNat os).symm

theorem fillLevelProrata_fills (h : LevelAt st s px level os) :
    FilledBy st s px level os available (prorataFills available (os.map Order.leavesQty)) := by
  set fs := prorataFills available (os.map Order.leavesQty) with hfs
  have hlen : fs.length = os.length := by simp [hfs]
  -- the signed delta of the level stays in range
  obtain ⟨δ, x, hδ, hx⟩ : LevelDefined os fs :=
    @levelDefined_of_lt .proRata { st.aggr with leavesQty := available } os h.bound
  have hfind : ((st.applyFills px level.queue os fs).book.levels s).find? px = some level := by
    cases s <;> exact h.found
  have hok : ∃ st', settle s px (st.applyFills px level.queue os fs) fs.sum δ = .ok st' := by
    rw [settle_eq hfind, h.rep.total, hx]
    exact ⟨_, rfl⟩
  obtain ⟨st', hst'⟩ := hok
  have hout := settle_eq_ok hfind hst'
  refine ⟨hlen, st', ?_, ?_, ?_, ?_⟩
  · rw [fillLevelProrata_eq h.nodup h.rep.queue h.found]
    simp only [fills, ← hfs, hδ, bind, Except.bind]
    exact hst'
  · rw [hout, OrderBook.modifyLevel, heap_setLevels]
    exact Heap.map_writeAll _ h.nodup h.rep.queue (length_fillQueue hlen)
  · rw [hout]
    rfl
  · rw [hout]
    rfl

/-- An order's leaves tell its fill. -/
theorem fillQueue_inj (hf : fs.length = os.length) (hg : gs.length = os.length)
    (h : fillQueue os fs = fillQueue os gs) : fs = gs := by
  induction os generalizing fs gs with
  | nil =>
    rw [List.length_eq_zero_iff.mp hf, List.length_eq_zero_iff.mp hg]
  | cons o os ih =>
    obtain ⟨f, fs, rfl⟩ := List.exists_cons_of_length_eq_add_one hf
    obtain ⟨g, gs, rfl⟩ := List.exists_cons_of_length_eq_add_one hg
    obtain ⟨hhead, htail⟩ := List.cons.inj h
    have hq : o.leavesQty - f = o.leavesQty - g := congrArg Order.leavesQty hhead
    rw [ih (Nat.succ.inj hf) (Nat.succ.inj hg) htail, (UInt64.sub_right_inj ..).mp hq]

/-- The fills of a level are what the matcher computes, and nothing else. -/
theorem filledBy_iff (h : LevelAt st s px level os) :
    FilledBy st s px level os available fs ↔
      fs = prorataFills available (os.map Order.leavesQty) := by
  have hfill := @fillLevelProrata_fills st s px level os available h
  constructor
  · rintro ⟨hlen, st', hst', hcells, -⟩
    obtain ⟨st'', hst'', hcells', -⟩ := hfill.filled
    obtain rfl := Except.ok.inj (hst'.symm.trans hst'')
    refine fillQueue_inj hlen hfill.length ?_
    exact List.map_injective_iff.mpr (Option.some_injective _) (hcells.symm.trans hcells')
  · rintro rfl
    exact hfill

end Level

/-! ## The law and the words -/

/-- What rounding leaves is enough for all that the shares leave open of
the orders in `pre`. -/
def Covered (avail : ℕ) (qs pre : List ℕ) : Prop :=
  (pre.map fun q => q - floor (min avail qs.sum) qs.sum q).sum ≤
    min avail qs.sum - (qs.map (floor (min avail qs.sum) qs.sum)).sum

/-- **Every order whose product wraps** comes after orders that are filled
anyway. -/
def WrapsCovered (avail : ℕ) (qs : List ℕ) : Prop :=
  ∀ pre q post, qs = pre ++ q :: post → 2 ^ 64 ≤ min avail qs.sum * q → Covered avail qs pre

/-- A share comes out low exactly if its product wraps. -/
theorem share_lt_iff {t T : Quantity} (h : t ≤ T) (q : Quantity) :
    (t * q / T).toNat < floor t.toNat T.toNat q.toNat ↔ 2 ^ 64 ≤ t.toNat * q.toNat := by
  rw [UInt64.toNat_div, UInt64.toNat_mul, floor]
  have hT := T.toNat_lt
  have hle := UInt64.le_iff_toNat_le.mp h
  set x := t.toNat * q.toNat with hx
  constructor
  · intro hlt
    by_contra hsmall
    rw [Nat.mod_eq_of_lt (by omega)] at hlt
    exact Nat.lt_irrefl _ hlt
  · intro hwrap
    have hpos : 0 < T.toNat := by
      refine Nat.pos_of_ne_zero fun h0 => ?_
      have ht : t.toNat = 0 := by omega
      rw [ht, Nat.zero_mul] at hx
      omega
    calc x % 2 ^ 64 / T.toNat ≤ (x - T.toNat) / T.toNat := Nat.div_le_div_right (by omega)
      _ < x / T.toNat := by
        rw [← Nat.sub_add_cancel (show T.toNat ≤ x by omega), Nat.add_sub_cancel,
          Nat.add_div_right _ hpos]
        exact Nat.lt_succ_self _

section Words

variable {available : Quantity} {qs : List Quantity}

/-- The demands with their shares, and with the shares of the words. -/
def lotsOf (t T : Quantity) (qs : List Quantity) : List Alloc.Lot :=
  qs.map fun q => ⟨q.toNat, floor t.toNat T.toNat q.toNat, (t * q / T).toNat⟩

theorem lotsOf_cons (t T q : Quantity) (qs : List Quantity) :
    lotsOf t T (q :: qs) =
      ⟨q.toNat, floor t.toNat T.toNat q.toNat, (t * q / T).toNat⟩ :: lotsOf t T qs := rfl

theorem lotsOf_le {t T : Quantity} (h : t ≤ T) :
    ∀ x ∈ lotsOf t T qs, x.given ≤ x.share ∧ x.share ≤ x.demand := by
  intro x hx
  obtain ⟨q, -, rfl⟩ := List.mem_map.mp hx
  exact ⟨share_le t q T, Alloc.floor_le (UInt64.le_iff_toNat_le.mp h) _⟩

/-- Handing `r` out over the exact shares fills the orders exactly if it
is what their shares leave open. -/
theorem topUp_lotsOf_iff {t T : Quantity} (h : t ≤ T) {r : ℕ} {pre : List Quantity} :
    Alloc.topUp r ((lotsOf t T pre).map fun x => (x.demand, x.share)) =
        (lotsOf t T pre).map Alloc.Lot.demand ↔
      ((pre.map UInt64.toNat).map fun q => q - floor t.toNat T.toNat q).sum ≤ r := by
  have hle : ∀ x ∈ (lotsOf t T pre).map fun x => (x.demand, x.share), x.2 ≤ x.1 := by
    intro x hx
    obtain ⟨y, hy, rfl⟩ := List.mem_map.mp hx
    exact (lotsOf_le h y hy).2
  have hiff := @Alloc.topUp_eq_iff r _ hle
  simp only [lotsOf, List.map_map] at hiff ⊢
  exact hiff

/-- What the words leave to hand out is what rounding leaves and what the
wrapped products lack. -/
theorem residual_add_lacking {t T : Quantity}
    (h : ((qs.map UInt64.toNat).map (floor t.toNat T.toNat)).sum ≤ t.toNat) :
    t.toNat - ((qs.map fun q => t * q / T).map UInt64.toNat).sum =
      t.toNat - ((qs.map UInt64.toNat).map (floor t.toNat T.toNat)).sum +
        Alloc.lacking (lotsOf t T qs) := by
  have hsplit : ((qs.map fun q => t * q / T).map UInt64.toNat).sum + Alloc.lacking (lotsOf t T qs) =
      ((qs.map UInt64.toNat).map (floor t.toNat T.toNat)).sum := by
    clear h
    induction qs with
    | nil => rfl
    | cons q qs ih =>
      have hle : (t * q / T).toNat ≤ floor t.toNat T.toNat q.toNat := share_le t q T
      rw [lotsOf_cons, Alloc.lacking_cons]
      simp only [List.map_cons, List.sum_cons]
      omega
  omega

/-- **The words meet the law** exactly if what wraps is covered. -/
theorem prorataFills_eq_proportional_iff (h : (qs.map UInt64.toNat).sum < 2 ^ 64) :
    (prorataFills available qs).map UInt64.toNat =
        proportional available.toNat (qs.map UInt64.toNat) ↔
      WrapsCovered available.toNat (qs.map UInt64.toNat) := by
  have hT := toNat_sum h
  set t := min available qs.sum with ht
  have htT : t.toNat = min available.toNat qs.sum.toNat := by
    rw [ht, UInt64.toNat_min]
  have hle : t ≤ qs.sum := by
    rw [UInt64.le_iff_toNat_le, htT]
    exact Nat.min_le_right ..
  have hfloors : ((qs.map UInt64.toNat).map (floor t.toNat qs.sum.toNat)).sum ≤ t.toNat := by
    refine Nat.le_trans (Alloc.sum_floor_le t.toNat qs.sum.toNat _) ?_
    rw [← hT]
    exact Nat.div_le_of_le_mul (Nat.le_of_eq (Nat.mul_comm ..))
  -- One lot per order, with the share it is due and the share the wrapped product gives it.
  set lots := lotsOf t qs.sum qs with hlots
  have hgiven : qs.map (fun q => (q.toNat, (t * q / qs.sum).toNat)) =
      lots.map fun x => (x.demand, x.given) := by
    rw [hlots, lotsOf, List.map_map]
    rfl
  have hshare : (qs.map UInt64.toNat).map (fun q => (q, floor t.toNat qs.sum.toNat q)) =
      lots.map fun x => (x.demand, x.share) := by
    rw [hlots, lotsOf, List.map_map, List.map_map]
    rfl
  rw [toNat_prorataFills h, proportional, ← hT, ← htT, residual_add_lacking hfloors, hgiven,
    hshare, Alloc.topUp_given_iff (lotsOf_le hle), WrapsCovered]
  rw [lotsOf, forall_split_map (P := fun pre x => x.given < x.share →
      Alloc.topUp _ (pre.map fun x => (x.demand, x.share)) = pre.map Alloc.Lot.demand),
    forall_split_map (P := fun pre q => 2 ^ 64 ≤ min available.toNat _ * q → Covered _ _ pre)]
  refine forall_congr' fun pre => forall_congr' fun q => forall_congr' fun post =>
    forall_congr' fun _ => ?_
  rw [← lotsOf, topUp_lotsOf_iff hle, Covered, ← hT, ← htT, share_lt_iff hle]

end Words

section Shares

variable {st : MatchState} {s : BookSide} {px : Price} {level : PriceLevel} {os : List Order}

/-- Products that stay below the word size wrap nothing. -/
theorem wrapsCovered_of_lt {avail : ℕ} {qs : List ℕ}
    (h : ∀ q ∈ qs, min avail qs.sum * q < 2 ^ 64) : WrapsCovered avail qs := by
  intro pre q post hqs hwrap
  have := h q (by rw [hqs]; simp)
  omega

/-- **The matcher shares a level out as the law says** exactly if what
wraps is covered. -/
theorem fills_proportional_iff (h : LevelAt st s px level os) (available : Quantity) :
    (∃ fs, FilledBy st s px level os available fs ∧
      fs.map UInt64.toNat = proportional available.toNat (leaves os)) ↔
      WrapsCovered available.toNat (leaves os) := by
  have hsum : ((os.map Order.leavesQty).map UInt64.toNat).sum < 2 ^ 64 := by
    have hbound := h.bound
    rw [← leaves_eq]
    exact Nat.lt_trans hbound (by decide)
  rw [leaves_eq, ← prorataFills_eq_proportional_iff hsum]
  constructor
  · rintro ⟨fs, hfs, heq⟩
    rw [← (filledBy_iff h).mp hfs]
    exact heq
  · intro heq
    exact ⟨_, fillLevelProrata_fills h, heq⟩

/-- A sell of `q` at 100. -/
def sellAt100 (id : OrderId) (q : Quantity) : Order := ⟨id, id, ⟨[0x61]⟩, .sell, 100, q, q⟩

/-- A buy for 25 against 30, 20 and 50, in the order they came. -/
def smallLevel : MatchState where
  book := ((OrderBook.new.rest (sellAt100 1 30)).rest (sellAt100 2 20)).rest (sellAt100 3 50)
  aggr := ⟨4, 4, ⟨[0x62]⟩, .buy, 100, 25, 25⟩
  out := []

theorem levelAt_smallLevel : LevelAt smallLevel .ask 100 ⟨[0, 1, 2], 3, 100⟩
    [sellAt100 1 30, sellAt100 2 20, sellAt100 3 50] where
  found := by decide
  nodup := by decide
  rep := ⟨by decide, rfl, by decide⟩
  bound := by decide

/-- A buy for 2³³ against two sells of 2³³: both products wrap to nothing. -/
def largeLevel : MatchState where
  book := (OrderBook.new.rest (sellAt100 1 8589934592)).rest (sellAt100 2 8589934592)
  aggr := ⟨3, 3, ⟨[0x62]⟩, .buy, 100, 8589934592, 8589934592⟩
  out := []

theorem levelAt_largeLevel : LevelAt largeLevel .ask 100 ⟨[0, 1], 2, 17179869184⟩
    [sellAt100 1 8589934592, sellAt100 2 8589934592] where
  found := by decide
  nodup := by decide
  rep := ⟨by decide, rfl, by decide⟩
  bound := by decide

/-- The three get 8, 5 and 12. -/
theorem fills_proportional_smallLevel :
    WrapsCovered 25 [30, 20, 50] ∧
      ∃ fs, FilledBy smallLevel .ask 100 ⟨[0, 1, 2], 3, 100⟩
        [sellAt100 1 30, sellAt100 2 20, sellAt100 3 50] 25 fs ∧
        fs.map UInt64.toNat = [8, 5, 12] := by
  have hcovered : WrapsCovered 25 [30, 20, 50] := wrapsCovered_of_lt (by decide)
  exact ⟨hcovered, (fills_proportional_iff levelAt_smallLevel 25).mpr hcovered⟩

/-- The older of two equal sells takes the whole of what they should have
shared. -/
theorem wrapped_shares_to_oldest :
    FilledBy largeLevel .ask 100 ⟨[0, 1], 2, 17179869184⟩
        [sellAt100 1 8589934592, sellAt100 2 8589934592] 8589934592 [8589934592, 0] ∧
      proportional 8589934592 (leaves [sellAt100 1 8589934592, sellAt100 2 8589934592]) =
        [4294967296, 4294967296] ∧
      ¬ ∃ fs, FilledBy largeLevel .ask 100 ⟨[0, 1], 2, 17179869184⟩
        [sellAt100 1 8589934592, sellAt100 2 8589934592] 8589934592 fs ∧
        fs.map UInt64.toNat =
          proportional 8589934592 (leaves [sellAt100 1 8589934592, sellAt100 2 8589934592]) := by
  have hfills : prorataFills 8589934592 [8589934592, 8589934592] = [8589934592, 0] := by decide
  have hlaw : proportional 8589934592
      (leaves [sellAt100 1 8589934592, sellAt100 2 8589934592]) = [4294967296, 4294967296] := by
    decide
  refine ⟨(filledBy_iff levelAt_largeLevel).mpr hfills.symm, hlaw, ?_⟩
  rintro ⟨fs, hfs, heq⟩
  obtain rfl := ((filledBy_iff levelAt_largeLevel).mp hfs).trans hfills
  rw [hlaw] at heq
  exact absurd heq (by decide)

/-- The residual of the floor pass, as the matcher computes it. -/
theorem floorResidual_lt {available : Quantity} {qs : List Quantity}
    (hsum : (qs.map UInt64.toNat).sum < 2 ^ 64) (hpos : qs.sum ≠ 0)
    (h : ∀ q ∈ qs.map UInt64.toNat,
      min available.toNat (qs.map UInt64.toNat).sum * q < 2 ^ 64) :
    (min available qs.sum - (qs.map fun q => min available qs.sum * q / qs.sum).sum).toNat <
      qs.length := by
  have hT := toNat_sum hsum
  set t := min available qs.sum with ht
  have htT : t.toNat = min available.toNat qs.sum.toNat := by rw [ht, UInt64.toNat_min]
  have hexact : (qs.map fun q => t * q / qs.sum).map UInt64.toNat =
      (qs.map UInt64.toNat).map (floor t.toNat qs.sum.toNat) := by
    rw [List.map_map, List.map_map]
    refine List.map_congr_left fun q hq => ?_
    have hlt := h q.toNat (List.mem_map_of_mem hq)
    rw [← hT, ← htT] at hlt
    change (t * q / qs.sum).toNat = floor t.toNat qs.sum.toNat q.toNat
    rw [UInt64.toNat_div, UInt64.toNat_mul, Nat.mod_eq_of_lt hlt, floor]
  have hTpos : 0 < (qs.map UInt64.toNat).sum := by
    rw [← hT]
    exact Nat.pos_of_ne_zero (ne_zero_iff_toNat.mp hpos)
  have hlt := Alloc.residual_lt_length available.toNat hTpos
  rw [toNat_sum_shares hsum hpos, hexact, htT, hT]
  rw [List.length_map] at hlt
  exact hlt

theorem sum_leaves_ne_zero (h : leavesSum os < 2 ^ 64) (hne : os ≠ [])
    (hpos : ∀ o ∈ os, o.leavesQty ≠ 0) : (os.map Order.leavesQty).sum ≠ 0 := by
  rcases os with _ | ⟨o, os⟩
  · exact absurd rfl hne
  have hsum := toNat_sum_leaves h
  have ho := ne_zero_iff_toNat.mp (hpos o (List.mem_cons_self ..))
  rw [ne_zero_iff_toNat, hsum, leavesSum, List.map_cons, List.sum_cons]
  omega

/-- **Fair shares.** Where no product wraps, the floor pass leaves fewer
units than there are orders. Every order gets its rounded-down share and
fewer than that many units more, and gets more only once every older
order is filled. -/
theorem fair_shares (h : LevelAt st s px level os) {available : Quantity} (hne : os ≠ [])
    (hpos : ∀ o ∈ os, o.leavesQty ≠ 0)
    (hsmall : ∀ q ∈ leaves os, min available.toNat (leaves os).sum * q < 2 ^ 64) :
    (∃ slots total, snapshot st.book level.queue = .ok (slots, total) ∧
      (min available total -
        ((floorShares (min available total) total slots).map Slot.alloc).sum).toNat < os.length) ∧
    ∃ fs, FilledBy st s px level os available fs ∧
      ∀ pre o post, os = pre ++ o :: post → ∃ fpre f fpost, fs = fpre ++ f :: fpost ∧
        fpre.length = pre.length ∧
        floor (min available.toNat (leaves os).sum) (leaves os).sum o.leavesQty.toNat ≤ f.toNat ∧
        f.toNat ≤ floor (min available.toNat (leaves os).sum) (leaves os).sum o.leavesQty.toNat +
          (os.length - 1) ∧
        (floor (min available.toNat (leaves os).sum) (leaves os).sum o.leavesQty.toNat < f.toNat →
          fpre = pre.map Order.leavesQty) := by
  have hbound := h.bound
  have hsum : ((os.map Order.leavesQty).map UInt64.toNat).sum < 2 ^ 64 := by
    rw [← leaves_eq]
    exact Nat.lt_trans hbound (by decide)
  have htotal : (os.map Order.leavesQty).sum ≠ 0 := sum_leaves_ne_zero (by omega) hne hpos
  have hleaves := leaves_eq os
  have hTpos : 0 < (leaves os).sum := by
    rw [hleaves, ← toNat_sum hsum]
    exact Nat.pos_of_ne_zero (ne_zero_iff_toNat.mp htotal)
  have hlen : level.queue.length = os.length := by
    simpa using congrArg List.length h.rep.queue
  refine ⟨⟨_, _, snapshot_eq h.rep.queue, ?_⟩, _, fillLevelProrata_fills h, ?_⟩
  · have hshares := congrArg (List.map Prod.snd) (map_floorShares_slotsOf
      (min available (os.map Order.leavesQty).sum) (os.map Order.leavesQty).sum hlen)
    rw [List.map_map, List.map_snd_zip (by simp)] at hshares
    rw [hleaves] at hsmall
    have hlt := floorResidual_lt hsum htotal hsmall
    rw [List.length_map, ← hshares] at hlt
    exact hlt
  · -- nothing wraps, so the fills are the law's, and each is a share topped up
    have hlaw := (prorataFills_eq_proportional_iff hsum).mpr
      (wrapsCovered_of_lt (by rw [← hleaves]; exact hsmall))
    rw [← hleaves] at hlaw
    intro pre o post hos
    have hsplit : leaves os = leaves pre ++ o.leavesQty.toNat :: leaves post := by
      rw [hos, leaves, List.map_append, List.map_cons]
      rfl
    obtain ⟨gpre, g, gpost, heq, hlen', hge, hle, hmore⟩ :=
      Alloc.proportional_split available.toNat hsplit hTpos
    obtain ⟨fpre, rest, hfs, rfl, hrest⟩ := List.map_eq_append_iff.mp (hlaw.trans heq)
    obtain ⟨f, fpost, rfl, rfl, -⟩ := List.map_eq_cons_iff.mp hrest
    have hos' : (leaves os).length = os.length := List.length_map ..
    refine ⟨fpre, f, fpost, hfs, ?_, hge, by rw [← hos']; exact hle, fun hlt => ?_⟩
    · simpa [leaves] using hlen'
    · have hmet := hmore hlt
      rw [leaves_eq] at hmet
      exact List.map_injective_iff.mpr (fun a b => UInt64.toNat_inj.mp) hmet

/-- A buy for 25 against 30, 20 and 50. -/
theorem fair_shares_smallLevel :
    ∃ fs, FilledBy smallLevel .ask 100 ⟨[0, 1, 2], 3, 100⟩
        [sellAt100 1 30, sellAt100 2 20, sellAt100 3 50] 25 fs ∧
      ∀ pre o post, [sellAt100 1 30, sellAt100 2 20, sellAt100 3 50] = pre ++ o :: post →
        ∃ fpre f fpost, fs = fpre ++ f :: fpost ∧ fpre.length = pre.length ∧
          floor 25 100 o.leavesQty.toNat ≤ f.toNat ∧
          f.toNat ≤ floor 25 100 o.leavesQty.toNat + 2 ∧
          (floor 25 100 o.leavesQty.toNat < f.toNat → fpre = pre.map Order.leavesQty) :=
  (@fair_shares _ _ _ _ _ levelAt_smallLevel 25 (by decide) (by decide) (by decide)).2

end Shares

end Core

end OrderbookFix
