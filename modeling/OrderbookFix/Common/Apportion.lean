import OrderbookFix.Common.Allocation
/-!
# Proportional shares

A quantity shared out in proportion to the demands, each share rounded
down, with the units rounding leaves handed out head to tail. What
rounding leaves is fewer units than there are shares, so no share gets
more than that on top, and a share gets anything on top only once those
before it are met.

Shares that come out lower than they should leave more to hand out. The
result is the same as from the right shares exactly if whoever is short
comes after demands that are all met.
-/

namespace OrderbookFix

/-- What holds of every split of a list holds of the one at its head and
of those further down. -/
theorem forall_split_cons {α : Type*} {P : List α → α → Prop} {y : α} {l : List α} :
    (∀ pre x post, y :: l = pre ++ x :: post → P pre x) ↔
      P [] y ∧ ∀ pre x post, l = pre ++ x :: post → P (y :: pre) x := by
  constructor
  · intro h
    exact ⟨h [] y l rfl, fun pre x post hl => h (y :: pre) x post (by rw [hl]; rfl)⟩
  · rintro ⟨hhead, htail⟩ pre x post hl
    rcases pre with _ | ⟨z, pre⟩
    · obtain ⟨rfl, -⟩ := List.cons.inj hl
      exact hhead
    · obtain ⟨rfl, hrest⟩ := List.cons.inj hl
      exact htail pre x post hrest

/-- The splits of a mapped list are those of the list. -/
theorem forall_split_map {α β : Type*} {f : α → β} {P : List β → β → Prop} {l : List α} :
    (∀ pre x post, l.map f = pre ++ x :: post → P pre x) ↔
      ∀ pre x post, l = pre ++ x :: post → P (pre.map f) (f x) := by
  constructor
  · intro h pre x post hl
    exact h _ _ (post.map f) (by rw [hl, List.map_append, List.map_cons])
  · intro h pre x post hl
    obtain ⟨pre, l', rfl, rfl, hl'⟩ := List.map_eq_append_iff.mp hl
    obtain ⟨x, post, rfl, rfl, -⟩ := List.map_eq_cons_iff.mp hl'
    exact h pre x post rfl

namespace Alloc

/-! ## Topping up, share by share -/

theorem topUp_append (r : ℕ) (l l' : List (ℕ × ℕ)) :
    topUp r (l ++ l') = topUp r l ++ topUp (r - (l.map fun x => x.1 - x.2).sum) l' := by
  induction l generalizing r with
  | nil => simp [topUp]
  | cons x l ih =>
    obtain ⟨q, f⟩ := x
    have hleft : r - min (q - f) r - (l.map fun x => x.1 - x.2).sum =
        r - ((q - f) + (l.map fun x => x.1 - x.2).sum) := by omega
    rw [List.cons_append, topUp, topUp, ih, hleft, List.cons_append, List.map_cons, List.sum_cons]

theorem length_topUp (r : ℕ) (l : List (ℕ × ℕ)) : (topUp r l).length = l.length := by
  induction l generalizing r with
  | nil => rfl
  | cons x l ih => rw [topUp, List.length_cons, List.length_cons, ih]

/-- With enough to go round, every demand is met. -/
theorem topUp_of_le {r : ℕ} {l : List (ℕ × ℕ)} (h : ∀ x ∈ l, x.2 ≤ x.1)
    (hr : (l.map fun x => x.1 - x.2).sum ≤ r) : topUp r l = l.map Prod.fst := by
  induction l generalizing r with
  | nil => rfl
  | cons x l ih =>
    obtain ⟨q, f⟩ := x
    obtain ⟨hf, hl⟩ := List.forall_mem_cons.mp h
    rw [List.map_cons, List.sum_cons] at hr
    dsimp only at hf hr
    have hq : f + min (q - f) r = q := by omega
    rw [topUp, hq, ih hl (by omega), List.map_cons]

/-- Topping up meets every demand exactly if it hands out what they lack. -/
theorem topUp_eq_iff {r : ℕ} {l : List (ℕ × ℕ)} (h : ∀ x ∈ l, x.2 ≤ x.1) :
    topUp r l = l.map Prod.fst ↔ (l.map fun x => x.1 - x.2).sum ≤ r := by
  refine ⟨fun heq => ?_, topUp_of_le h⟩
  have hsum := sum_topUp h r
  have hlack : (l.map Prod.snd).sum + (l.map fun x => x.1 - x.2).sum = (l.map Prod.fst).sum := by
    clear heq hsum
    induction l with
    | nil => rfl
    | cons x l ih =>
      obtain ⟨hx, hl⟩ := List.forall_mem_cons.mp h
      have := ih hl
      simp only [List.map_cons, List.sum_cons]
      omega
  rw [heq] at hsum
  omega

/-- **One share topped up**: it gets no less than it had and no more than
is handed out, and gets more only once those before it are met. -/
theorem topUp_split {r : ℕ} {pre post : List (ℕ × ℕ)} {x : ℕ × ℕ} (h : ∀ y ∈ pre, y.2 ≤ y.1) :
    ∃ g gs, topUp r (pre ++ x :: post) = topUp r pre ++ g :: gs ∧ x.2 ≤ g ∧ g ≤ x.2 + r ∧
      (x.2 < g → topUp r pre = pre.map Prod.fst) := by
  obtain ⟨q, f⟩ := x
  rw [topUp_append, topUp]
  refine ⟨_, _, rfl, Nat.le_add_right .., ?_, fun hlt => topUp_of_le h ?_⟩
  · dsimp only
    omega
  · dsimp only at hlt
    omega

/-! ## What rounding leaves -/

theorem mul_sum_floor_add_sum_mod (t T : ℕ) (qs : List ℕ) :
    T * (qs.map fun q => t * q / T).sum + (qs.map fun q => t * q % T).sum = t * qs.sum := by
  induction qs with
  | nil => rfl
  | cons q qs ih =>
    have hq := Nat.div_add_mod (t * q) T
    simp only [List.map_cons, List.sum_cons, Nat.mul_add]
    omega

theorem sum_mod_lt (t : ℕ) {T : ℕ} (hT : 0 < T) {qs : List ℕ} (hne : qs ≠ []) :
    (qs.map fun q => t * q % T).sum < qs.length * T := by
  induction qs with
  | nil => exact absurd rfl hne
  | cons q qs ih =>
    have hq := Nat.mod_lt (t * q) hT
    rw [List.map_cons, List.sum_cons, List.length_cons, Nat.add_mul, Nat.one_mul]
    rcases eq_or_ne qs [] with rfl | hqs
    · simpa using hq
    · have := ih hqs
      omega

/-- **Rounding down loses less than one for each share.** -/
theorem lt_sum_floor_add_length (t : ℕ) {qs : List ℕ} (hpos : 0 < qs.sum) :
    t < (qs.map fun q => t * q / qs.sum).sum + qs.length := by
  have hne : qs ≠ [] := by
    rintro rfl
    exact Nat.lt_irrefl 0 hpos
  have hsum := mul_sum_floor_add_sum_mod t qs.sum qs
  have hlt := sum_mod_lt t hpos hne
  refine Nat.lt_of_mul_lt_mul_right (a := qs.sum) ?_
  rw [Nat.add_mul, ← hsum, Nat.mul_comm qs.sum]
  omega

/-! ## The proportional allocation -/

/-- The share of `t` that a demand of `q` among `T` comes to. -/
def floor (t T q : ℕ) : ℕ := t * q / T

/-- **The proportional allocation** of `avail` over the demands `qs`: the
rounded-down shares, and what they leave head to tail. -/
def proportional (avail : ℕ) (qs : List ℕ) : List ℕ :=
  topUp (min avail qs.sum - (qs.map (floor (min avail qs.sum) qs.sum)).sum)
    (qs.map fun q => (q, floor (min avail qs.sum) qs.sum q))

theorem floor_le {t T : ℕ} (h : t ≤ T) (q : ℕ) : floor t T q ≤ q :=
  calc t * q / T ≤ T * q / T := Nat.div_le_div_right (Nat.mul_le_mul_right q h)
    _ ≤ q := Nat.div_le_of_le_mul (Nat.le_refl _)

theorem floor_le_of_mem (avail : ℕ) {qs : List ℕ} (l : List ℕ) :
    ∀ x ∈ l.map fun q => (q, floor (min avail qs.sum) qs.sum q), x.2 ≤ x.1 := by
  intro x hx
  obtain ⟨q, -, rfl⟩ := List.mem_map.mp hx
  exact floor_le (Nat.min_le_right ..) q

/-- What rounding leaves of a proportional allocation is less than the
number of shares. -/
theorem residual_lt_length (avail : ℕ) {qs : List ℕ} (hpos : 0 < qs.sum) :
    min avail qs.sum - (qs.map (floor (min avail qs.sum) qs.sum)).sum < qs.length := by
  have hlt := lt_sum_floor_add_length (min avail qs.sum) hpos
  have hlen : 0 < qs.length := by
    rcases qs with _ | ⟨q, qs⟩
    · exact absurd hpos (Nat.lt_irrefl 0)
    · exact Nat.succ_pos _
  have hsame : (qs.map (floor (min avail qs.sum) qs.sum)).sum =
      (qs.map fun q => min avail qs.sum * q / qs.sum).sum := rfl
  omega

/-- **Fair shares**: each demand gets its share and less than one unit
for each of them more, and gets more only once those before it are met. -/
theorem proportional_split (avail : ℕ) {qs pre post : List ℕ} {q : ℕ}
    (hqs : qs = pre ++ q :: post) (hpos : 0 < qs.sum) :
    ∃ gpre g gpost, proportional avail qs = gpre ++ g :: gpost ∧ gpre.length = pre.length ∧
      floor (min avail qs.sum) qs.sum q ≤ g ∧
      g ≤ floor (min avail qs.sum) qs.sum q + (qs.length - 1) ∧
      (floor (min avail qs.sum) qs.sum q < g → gpre = pre) := by
  have hres := residual_lt_length avail hpos
  have hle := @floor_le_of_mem avail qs pre
  rw [proportional]
  set t := min avail qs.sum
  set T := qs.sum
  set r := t - (qs.map (floor t T)).sum
  obtain ⟨g, gpost, heq, hge, hle', hmore⟩ := @topUp_split r _ (post.map fun q => (q, floor t T q))
    (q, floor t T q) hle
  refine ⟨topUp r (pre.map fun q => (q, floor t T q)), g, gpost, ?_, ?_, hge, ?_, fun hlt => ?_⟩
  · rw [← heq, hqs, List.map_append, List.map_cons]
  · rw [length_topUp, List.length_map]
  · dsimp only at hle'
    omega
  · rw [hmore hlt, List.map_map]
    exact List.map_id _

/-! ## Shares that come out low -/

/-- A demand with its share, and with what it was given for it. -/
structure Lot where
  demand : ℕ
  share : ℕ
  given : ℕ

/-- What was not given of the shares. -/
def lacking (l : List Lot) : ℕ := (l.map fun x => x.share - x.given).sum

theorem lacking_cons (x : Lot) (l : List Lot) :
    lacking (x :: l) = (x.share - x.given) + lacking l := by
  rw [lacking, List.map_cons, List.sum_cons]
  rfl

theorem lacking_eq_zero_iff {l : List Lot} :
    lacking l = 0 ↔ ∀ x ∈ l, x.share ≤ x.given := by
  induction l with
  | nil => simp [lacking]
  | cons x l ih =>
    rw [lacking_cons, List.forall_mem_cons, ← ih]
    omega

/-- A lot whose demand the handing out does not reach: nothing is left,
so later lots keep what they were given. -/
theorem topUp_given_iff_of_lt {x : Lot} {l : List Lot}
    (h : ∀ y ∈ x :: l, y.given ≤ y.share ∧ y.share ≤ y.demand) {r : ℕ}
    (hr : r < x.demand - x.share) :
    topUp (r + lacking (x :: l)) ((x :: l).map fun y => (y.demand, y.given)) =
        topUp r ((x :: l).map fun y => (y.demand, y.share)) ↔ lacking l = 0 := by
  obtain ⟨⟨hg, hf⟩, hl⟩ := List.forall_mem_cons.mp h
  rw [List.map_cons, List.map_cons, topUp, topUp, List.cons.injEq, lacking_cons]
  constructor
  · rintro ⟨hhead, -⟩
    omega
  · intro hzero
    have hsame : l.map (fun y => (y.demand, y.given)) = l.map fun y => (y.demand, y.share) := by
      refine List.map_congr_left fun y hy => ?_
      have hle := lacking_eq_zero_iff.mp hzero y hy
      rw [Nat.le_antisymm (hl y hy).1 hle]
    have hnone : r + (x.share - x.given + lacking l) -
        min (x.demand - x.given) (r + (x.share - x.given + lacking l)) = 0 := by omega
    have hnone' : r - min (x.demand - x.share) r = 0 := by omega
    exact ⟨by omega, by rw [hnone, hnone', hsame]⟩

/-- **Topping up makes up for what was not given** exactly if whoever was
given less than their share comes after demands that are all met. -/
theorem topUp_given_iff {l : List Lot}
    (h : ∀ x ∈ l, x.given ≤ x.share ∧ x.share ≤ x.demand) (r : ℕ) :
    topUp (r + lacking l) (l.map fun x => (x.demand, x.given)) =
        topUp r (l.map fun x => (x.demand, x.share)) ↔
      ∀ pre x post, l = pre ++ x :: post → x.given < x.share →
        topUp r (pre.map fun x => (x.demand, x.share)) = pre.map Lot.demand := by
  induction l generalizing r with
  | nil => exact ⟨fun _ pre x post hl => absurd hl.symm (by simp), fun _ => rfl⟩
  | cons y l ih =>
    obtain ⟨⟨hg, hf⟩, hl⟩ := List.forall_mem_cons.mp h
    rw [@forall_split_cons Lot fun pre x => x.given < x.share →
      topUp r (pre.map fun x => (x.demand, x.share)) = pre.map Lot.demand]
    by_cases hr : y.demand - y.share ≤ r
    · -- the head is met either way, and the rest goes on with what is left
      have hhigh : y.share + min (y.demand - y.share) r = y.demand := by omega
      have hlow : y.given + min (y.demand - y.given) (r + (y.share - y.given + lacking l)) =
          y.demand := by omega
      have hleft : r + (y.share - y.given + lacking l) -
          min (y.demand - y.given) (r + (y.share - y.given + lacking l)) =
          (r - min (y.demand - y.share) r) + lacking l := by omega
      rw [List.map_cons, List.map_cons, topUp, topUp, lacking_cons, hhigh, hlow, hleft,
        List.cons.injEq, ih hl]
      simp only [List.map_cons, topUp, hhigh, List.cons.injEq, true_and, List.map_nil,
        implies_true]
    · -- the head is not met, so nobody after it may be short
      rw [topUp_given_iff_of_lt h (by omega), lacking_eq_zero_iff]
      constructor
      · intro hall
        refine ⟨fun _ => rfl, fun pre x post hsplit hx => ?_⟩
        have := hall x (by rw [hsplit]; simp)
        omega
      · rintro ⟨-, hall⟩ x hx
        obtain ⟨pre, post, hsplit⟩ := List.append_of_mem hx
        by_contra hlt
        have hhead := hall pre x post hsplit (by omega)
        rw [List.map_cons, List.map_cons, topUp] at hhead
        have := (List.cons.inj hhead).1
        omega

end Alloc

end OrderbookFix
