import OrderbookFix.Common.Allocation
import OrderbookFix.Core.Helpers.Simulation
/-!
# The fills of a level are an allocation

Both allocators share the aggressor's quantity out over the leaves of a
level. Where the leaves of the level add up below the word size, the
wrapped arithmetic of the source computes an allocation: the product of
the pro-rata share may wrap, but only downwards, and the residual makes
up for it. Below half the word size the signed delta is in range as well.
-/

namespace OrderbookFix

namespace Core

/-- The sum of a queue's leaves, unbounded. -/
def leavesSum (os : List Order) : ℕ := (os.map fun o => o.leavesQty.toNat).sum

theorem toNat_pos {q : Quantity} : 0 < q ↔ 0 < q.toNat := UInt64.lt_iff_toNat_lt

theorem ne_zero_iff_toNat {q : Quantity} : q ≠ 0 ↔ q.toNat ≠ 0 := by
  rw [ne_eq, ← UInt64.toNat_inj]
  rfl

theorem toNat_sum {qs : List Quantity} (h : (qs.map UInt64.toNat).sum < 2 ^ 64) :
    qs.sum.toNat = (qs.map UInt64.toNat).sum := by
  induction qs with
  | nil => rfl
  | cons q qs ih =>
    rw [List.map_cons, List.sum_cons] at h ⊢
    have hq := ih (by omega)
    rw [List.sum_cons, UInt64.toNat_add, hq]
    omega

theorem map_leavesQty_toNat (os : List Order) :
    (os.map Order.leavesQty).map UInt64.toNat = os.map fun o => o.leavesQty.toNat := by
  rw [List.map_map]
  rfl

/-- The wrapped sum of a queue's leaves, in range. -/
theorem toNat_sum_leaves {os : List Order} (h : leavesSum os < 2 ^ 64) :
    (os.map Order.leavesQty).sum.toNat = leavesSum os := by
  rw [leavesSum, ← map_leavesQty_toNat] at h ⊢
  exact toNat_sum h

/-! ## First come -/

theorem toNat_fifoFills {available filled : Quantity} {qs : List Quantity}
    (h : filled ≤ available) :
    (fifoFills available filled qs).map UInt64.toNat =
      Alloc.greedy (available.toNat - filled.toNat) (qs.map UInt64.toNat) := by
  induction qs generalizing filled with
  | nil => rfl
  | cons q qs ih =>
    set f := if filled < available then min (available - filled) q else 0 with hf
    have hle : filled.toNat ≤ available.toNat := UInt64.le_iff_toNat_le.mp h
    have hlt : available.toNat < 2 ^ 64 := available.toNat_lt
    have hfnat : f.toNat = min (available.toNat - filled.toNat) q.toNat := by
      rw [hf]
      split
      · rw [UInt64.toNat_min, UInt64.toNat_sub_of_le _ _ h]
      · rename_i hn
        have : ¬ filled.toNat < available.toNat := fun hc => hn (UInt64.lt_iff_toNat_lt.mpr hc)
        rw [UInt64.toNat_zero]
        omega
    have hsum : (filled + f).toNat = filled.toNat + f.toNat := by
      rw [UInt64.toNat_add]
      omega
    have hnext : filled + f ≤ available := by
      rw [UInt64.le_iff_toNat_le, hsum]
      omega
    have hleft : available.toNat - (filled.toNat + min (available.toNat - filled.toNat) q.toNat) =
        available.toNat - filled.toNat - q.toNat := by omega
    rw [fifoFills, List.map_cons, List.map_cons, Alloc.greedy, ← hf, ih hnext, hsum, hfnat, hleft]

theorem isAlloc_fifoFills {available : Quantity} {qs : List Quantity} :
    IsAlloc available.toNat (qs.map UInt64.toNat)
      ((fifoFills available 0 qs).map UInt64.toNat) := by
  rw [toNat_fifoFills (UInt64.le_iff_toNat_le.mpr (Nat.zero_le _))]
  exact Alloc.isAlloc_greedy _ _

/-! ## Pro-rata -/

theorem toNat_topUpFills {r : Quantity} {l : List (Quantity × Quantity)}
    (h : ∀ x ∈ l, x.2 ≤ x.1) :
    (topUpFills r l).map UInt64.toNat =
      Alloc.topUp r.toNat (l.map fun x => (x.1.toNat, x.2.toNat)) := by
  induction l generalizing r with
  | nil => rfl
  | cons x l ih =>
    obtain ⟨q, f⟩ := x
    have hf : f ≤ q := h (q, f) (List.mem_cons_self ..)
    have hle : f.toNat ≤ q.toNat := UInt64.le_iff_toNat_le.mp hf
    have hq : q.toNat < 2 ^ 64 := q.toNat_lt
    rw [topUpFills]
    split
    · rename_i hr
      rw [hr, UInt64.toNat_zero, Alloc.topUp_zero, List.map_cons, List.map_map, List.map_cons,
        List.map_cons, List.map_map]
      rfl
    · have htake : (min (q - f) r).toNat = min (q.toNat - f.toNat) r.toNat := by
        rw [UInt64.toNat_min, UInt64.toNat_sub_of_le _ _ hf]
      have hrest : (r - min (q - f) r).toNat = r.toNat - min (q.toNat - f.toNat) r.toNat := by
        rw [UInt64.toNat_sub_of_le, htake]
        rw [UInt64.le_iff_toNat_le, htake]
        omega
      rw [List.map_cons, List.map_cons, Alloc.topUp, ih fun y hy => h y (List.mem_cons_of_mem _ hy),
        hrest, UInt64.toNat_add, htake, Nat.mod_eq_of_lt (by omega)]

section Prorata

variable {available : Quantity} {qs : List Quantity}

/-- A share is at most the exact one, whether or not its product wraps. -/
theorem share_le (t q T : Quantity) : (t * q / T).toNat ≤ t.toNat * q.toNat / T.toNat := by
  rw [UInt64.toNat_div, UInt64.toNat_mul]
  exact Nat.div_le_div_right (Nat.mod_le _ _)

theorem share_le_self {t T : Quantity} (ht : t ≤ T) (q : Quantity) : t * q / T ≤ q := by
  rw [UInt64.le_iff_toNat_le] at ht ⊢
  refine Nat.le_trans (share_le t q T) (Nat.div_le_of_le_mul ?_)
  exact Nat.mul_le_mul_right _ ht

/-- The shares of what is there add up to at most what is shared out. -/
theorem sum_shares_le {t : Quantity} (h : (qs.map UInt64.toNat).sum < 2 ^ 64) (hpos : qs.sum ≠ 0) :
    ((qs.map fun q => t * q / qs.sum).map UInt64.toNat).sum ≤ t.toNat := by
  have htotal := toNat_sum h
  have hTpos : 0 < qs.sum.toNat := Nat.pos_of_ne_zero (ne_zero_iff_toNat.mp hpos)
  have hexact : ((qs.map fun q => t * q / qs.sum).map UInt64.toNat).sum ≤
      ((qs.map UInt64.toNat).map fun q => t.toNat * q / qs.sum.toNat).sum := by
    rw [List.map_map, List.map_map]
    exact List.sum_le_sum fun q _ => share_le t q qs.sum
  refine Nat.le_trans hexact (Nat.le_trans (Alloc.sum_floor_le ..) ?_)
  rw [← htotal, Nat.mul_div_cancel _ hTpos]

theorem toNat_sum_shares {t : Quantity} (h : (qs.map UInt64.toNat).sum < 2 ^ 64)
    (hpos : qs.sum ≠ 0) :
    (t - (qs.map fun q => t * q / qs.sum).sum).toNat =
      t.toNat - ((qs.map fun q => t * q / qs.sum).map UInt64.toNat).sum := by
  have hsum := @sum_shares_le qs t h hpos
  have hwords := toNat_sum (Nat.lt_of_le_of_lt hsum t.toNat_lt)
  rw [UInt64.toNat_sub_of_le, hwords]
  rw [UInt64.le_iff_toNat_le, hwords]
  exact hsum

/-- Nothing wanted or nothing there: every share is zero, and so is what
there is to top up. -/
theorem topUp_shares_of_zero {t : Quantity} (h : t = 0) :
    Alloc.topUp (t.toNat - ((qs.map fun q => t * q / qs.sum).map UInt64.toNat).sum)
        (qs.map fun q => (q.toNat, (t * q / qs.sum).toNat)) =
      (qs.map fun _ => (0 : Quantity)).map UInt64.toNat := by
  subst h
  rw [UInt64.toNat_zero, Nat.zero_sub, Alloc.topUp_zero, List.map_map, List.map_map]
  refine List.map_congr_left fun q _ => ?_
  simp

/-- **The pro-rata fills** are the shares, topped up head to tail by what
they leave. -/
theorem toNat_prorataFills (h : (qs.map UInt64.toNat).sum < 2 ^ 64) :
    (prorataFills available qs).map UInt64.toNat =
      Alloc.topUp
        ((min available qs.sum).toNat -
          ((qs.map fun q => min available qs.sum * q / qs.sum).map UInt64.toNat).sum)
        (qs.map fun q => (q.toNat, (min available qs.sum * q / qs.sum).toNat)) := by
  rw [prorataFills]
  split
  · rename_i hz
    rw [topUp_shares_of_zero]
    rcases hz with hz | hz
    · rw [hz, ← UInt64.toNat_inj, UInt64.toNat_min, UInt64.toNat_zero, Nat.min_zero]
    · rw [hz, ← UInt64.toNat_inj, UInt64.toNat_min, UInt64.toNat_zero, Nat.zero_min]
  · rename_i hnz
    rw [not_or] at hnz
    set t := min available qs.sum with ht
    have hle : t ≤ qs.sum := by
      rw [UInt64.le_iff_toNat_le, ht, UInt64.toNat_min]
      omega
    have hzip : qs.zip (qs.map fun q => t * q / qs.sum) = qs.map fun q => (q, t * q / qs.sum) := by
      rw [List.zip_map_right, List.zip_eq_zipWith, List.zipWith_self, List.map_map]
      rfl
    change (topUpFills (t - (qs.map fun q => t * q / qs.sum).sum)
      (qs.zip (qs.map fun q => t * q / qs.sum))).map UInt64.toNat = _
    rw [hzip, toNat_topUpFills, List.map_map, toNat_sum_shares h hnz.1]
    · rfl
    · intro x hx
      obtain ⟨q, -, rfl⟩ := List.mem_map.mp hx
      exact share_le_self hle q

theorem isAlloc_prorataFills (h : (qs.map UInt64.toNat).sum < 2 ^ 64) :
    IsAlloc available.toNat (qs.map UInt64.toNat)
      ((prorataFills available qs).map UInt64.toNat) := by
  have htotal := toNat_sum h
  set t := min available qs.sum with ht
  have htT : t.toNat = min available.toNat (qs.map UInt64.toNat).sum := by
    rw [ht, UInt64.toNat_min, htotal]
  set l : List (ℕ × ℕ) := qs.map fun q => (q.toNat, (t * q / qs.sum).toNat) with hl
  have hfst : l.map Prod.fst = qs.map UInt64.toNat := by
    rw [hl, List.map_map]
    rfl
  have hsnd : l.map Prod.snd = (qs.map fun q => t * q / qs.sum).map UInt64.toNat := by
    rw [hl, List.map_map, List.map_map]
    rfl
  have hshare : ∀ x ∈ l, x.2 ≤ x.1 := by
    intro x hx
    obtain ⟨q, -, rfl⟩ := List.mem_map.mp hx
    refine UInt64.le_iff_toNat_le.mp (share_le_self ?_ q)
    rw [UInt64.le_iff_toNat_le, htT, htotal]
    omega
  have hsum : (l.map Prod.snd).sum ≤ available.toNat := by
    rw [hsnd]
    by_cases hz : qs.sum = 0
    · have hzero : ∀ q : Quantity, q / 0 = 0 := fun q => UInt64.div_zero
      simp [hz, hzero]
    · have := @sum_shares_le qs t h hz
      omega
  have halloc := Alloc.isAlloc_topUp hshare hsum
  rw [hfst, hsnd, ← htT] at halloc
  rw [toNat_prorataFills h]
  exact halloc

end Prorata

/-! ## A level -/

/-- **The fills of a level are an allocation of the aggressor's leaves.** -/
theorem isAlloc_fillsAt {algo : MatchAlgo} {aggr : Order} {os : List Order}
    (h : leavesSum os < 2 ^ 64) :
    IsAlloc aggr.leavesQty.toNat (os.map fun o => o.leavesQty.toNat)
      ((fillsAt algo aggr os).map UInt64.toNat) := by
  rw [leavesSum, ← map_leavesQty_toNat] at h
  rw [← map_leavesQty_toNat]
  cases algo with
  | proRata => exact isAlloc_prorataFills h
  | fifo => exact isAlloc_fifoFills

theorem toI64_of_lt {q : Quantity} (h : q.toNat < 2 ^ 63) : toI64 q = q.toNat := if_pos h

/-- The delta of fills that add up below half the word size. -/
theorem deltaFold_of_lt {fs : List Quantity} {d : Int} (hd : d ≤ 0)
    (h : -2 ^ 63 < d - (fs.map UInt64.toNat).sum) :
    deltaFold d fs = .ok (d - (fs.map UInt64.toNat).sum) := by
  induction fs generalizing d with
  | nil => simp [deltaFold]
  | cons f fs ih =>
    rw [List.map_cons, List.sum_cons] at h ⊢
    rw [deltaFold]
    split
    · rename_i hf
      have hz : f.toNat = 0 := by rw [hf]; rfl
      rw [ih hd (by omega)]
      congr 1
      omega
    · rw [toI64_of_lt (by omega), i64_of_mem (by omega)]
      change deltaFold (d - f.toNat) fs = _
      rw [ih (by omega) (by omega)]
      congr 1
      omega

/-- **A level of less than half the word size is filled in range.** -/
theorem levelDefined_of_lt {algo : MatchAlgo} {aggr : Order} {os : List Order}
    (h : leavesSum os < 2 ^ 63) : LevelDefined os (fillsAt algo aggr os) := by
  have halloc := @isAlloc_fillsAt algo aggr os (by omega)
  have hle := sum_le_of_forall₂ halloc.le
  have htotal := @toNat_sum_leaves os (by omega)
  rw [← leavesSum] at hle
  refine ⟨_, _, deltaFold_of_lt (Int.le_refl 0) (by omega), i64_of_mem ?_⟩
  rw [toI64_of_lt (by omega), htotal]
  omega

end Core

end OrderbookFix
