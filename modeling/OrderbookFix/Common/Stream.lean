import OrderbookFix.Common.Run
import Mathlib.Data.Nat.Notation
import Mathlib.Data.List.Basic
/-!
# Taking items off a stream

A reader looks at the front of a buffer that grows by chunks. It waits
for more, takes an item off, ends the stream, or fails. What it makes of
a stream does not depend on the chunks it comes in, as long as a verdict
on a buffer stands when the buffer is extended.
-/

namespace OrderbookFix

/-- What a reader makes of its buffer. -/
inductive Verdict (σ ω ε : Type*) where
  /-- Nothing whole is there yet. -/
  | wait
  | fail (e : ε)
  /-- The stream ends here, whatever is left of it. -/
  | stop (s : σ) (out : ω)
  /-- The first `n` of the buffer are an item. -/
  | take (n : ℕ) (s : σ) (out : ω)

/-- What comes of the items of a buffer: the reader waits for more, with
what is left of it, or the stream ended. -/
inductive Outcome (σ α ω : Type*) where
  | more (s : σ) (left : List α) (outs : List ω)
  | done (s : σ) (outs : List ω)

section Stream

variable {σ α ω ε : Type*}

namespace Outcome

/-- The outcome with what was put out before it. -/
def prepend (outs : List ω) : Outcome σ α ω → Outcome σ α ω
  | more s left outs' => more s left (outs ++ outs')
  | done s outs' => done s (outs ++ outs')

@[simp]
theorem prepend_nil (r : Outcome σ α ω) : r.prepend [] = r := by
  rcases r with _ | _ <;> rfl

@[simp]
theorem prepend_prepend (outs outs' : List ω) (r : Outcome σ α ω) :
    (r.prepend outs').prepend outs = r.prepend (outs ++ outs') := by
  rcases r with _ | _ <;> simp only [prepend, List.append_assoc]

end Outcome

variable (next : σ → List α → Verdict σ ω ε)

/-- The reader's loop. -/
def pump : ℕ → σ → List α → Except ε (Outcome σ α ω)
  | 0, s, buf => .ok (.more s buf [])
  | fuel + 1, s, buf =>
    match next s buf with
    | .wait => .ok (.more s buf [])
    | .fail e => .error e
    | .stop s' out => .ok (.done s' [out])
    | .take n s' out => (pump fuel s' (buf.drop n)).map (Outcome.prepend [out])

/-- A buffer of `n` has at most `n` items. -/
def pumpAll (s : σ) (buf : List α) : Except ε (Outcome σ α ω) := pump next buf.length s buf

/-- The outcome of more input, after that of what came before. -/
def resume (ext : List α) : Except ε (Outcome σ α ω) → Except ε (Outcome σ α ω)
  | .error e => .error e
  | .ok (.done s outs) => .ok (.done s outs)
  | .ok (.more s left outs) => (pumpAll next s (left ++ ext)).map (Outcome.prepend outs)

/-- **A stream in chunks.** Once it ended no chunk is read. -/
def feed : σ → List α → List (List α) → Except ε (Outcome σ α ω)
  | s, left, [] => .ok (.more s left [])
  | s, left, chunk :: chunks =>
    match pumpAll next s (left ++ chunk) with
    | .error e => .error e
    | .ok (.done s' outs) => .ok (.done s' outs)
    | .ok (.more s' left' outs) => (feed s' left' chunks).map (Outcome.prepend outs)

/-- **A steady reader.** Verdicts stand when a buffer is extended, up to
some length; an item is not empty and is in the buffer. -/
structure Steady (bound : ℕ) : Prop where
  nil : ∀ s, next s [] = .wait
  append : ∀ s buf ext, next s buf ≠ .wait → (buf ++ ext).length < bound →
    next s (buf ++ ext) = next s buf
  take : ∀ s buf n s' out, next s buf = .take n s' out → 0 < n ∧ n ≤ buf.length

variable {next}

/-! ## Rounds -/

/-- A round of the loop that read something: the reader and its buffer
before it, what it put out, and the reader after it. -/
structure Round (σ α ω : Type*) where
  before : σ
  buf : List α
  out : ω
  after : σ

variable (next) in
/-- The rounds of the loop. -/
def rounds : ℕ → σ → List α → List (Round σ α ω)
  | 0, _, _ => []
  | fuel + 1, s, buf =>
    match next s buf with
    | .wait => []
    | .fail _ => []
    | .stop s' out => [⟨s, buf, out, s'⟩]
    | .take n s' out => ⟨s, buf, out, s'⟩ :: rounds fuel s' (buf.drop n)

theorem length_rounds_le (fuel : ℕ) (s : σ) (buf : List α) :
    (rounds next fuel s buf).length ≤ fuel := by
  induction fuel generalizing s buf with
  | zero => exact Nat.le_refl _
  | succ fuel ih =>
    rw [rounds]
    rcases next s buf with _ | e | ⟨s', out⟩ | ⟨n, s', out⟩
    · exact Nat.zero_le _
    · exact Nat.zero_le _
    · exact Nat.succ_le_succ (Nat.zero_le _)
    · exact Nat.succ_le_succ (ih s' (buf.drop n))

/-- **The invariant rule.** `J` holds of the rounds made, the reader and
its buffer as long as the stream goes on, `K` of the rounds and the
reader once it ended. -/
theorem rounds_inv {J : List (Round σ α ω) → σ → List α → Prop}
    {K : List (Round σ α ω) → σ → Prop}
    (htake : ∀ rs s buf n s' out, J rs s buf → next s buf = .take n s' out →
      J (rs ++ [⟨s, buf, out, s'⟩]) s' (buf.drop n))
    (hstop : ∀ rs s buf s' out, J rs s buf → next s buf = .stop s' out →
      K (rs ++ [⟨s, buf, out, s'⟩]) s')
    {fuel : ℕ} {rs : List (Round σ α ω)} {s : σ} {buf : List α} {r : Outcome σ α ω}
    (hs : J rs s buf) (h : pump next fuel s buf = .ok r) :
    (∃ s' left, r = .more s' left ((rounds next fuel s buf).map Round.out) ∧
        J (rs ++ rounds next fuel s buf) s' left) ∨
      ∃ s', r = .done s' ((rounds next fuel s buf).map Round.out) ∧
        K (rs ++ rounds next fuel s buf) s' := by
  induction fuel generalizing rs s buf r with
  | zero => exact .inl ⟨s, buf, (Except.ok.inj h).symm, by simpa [rounds] using hs⟩
  | succ fuel ih =>
    rw [pump] at h
    rw [rounds]
    rcases hn : next s buf with _ | e | ⟨s', out⟩ | ⟨n, s', out⟩
    · rw [hn] at h
      exact .inl ⟨s, buf, (Except.ok.inj h).symm, by simpa using hs⟩
    · rw [hn] at h
      cases h
    · rw [hn] at h
      exact .inr ⟨s', (Except.ok.inj h).symm, hstop rs s buf s' out hs hn⟩
    · rw [hn] at h
      dsimp only at h ⊢
      rcases hp : pump next fuel s' (buf.drop n) with e | r'
      · rw [hp] at h
        cases h
      rw [hp] at h
      -- the round made here stands before those of the rest of the loop
      have hr : r = r'.prepend [out] := (Except.ok.inj h).symm
      rw [List.append_cons]
      rcases ih (htake rs s buf n s' out hs hn) hp with ⟨s₁, left, rfl, hJ⟩ | ⟨s₁, rfl, hK⟩
      · exact .inl ⟨s₁, left, hr, hJ⟩
      · exact .inr ⟨s₁, hr, hK⟩

/-! ## Loops that return -/

variable (next) in
/-- Every buffer the loop looks at has a property. -/
def Visits (P : σ → List α → Prop) : ℕ → σ → List α → Prop
  | 0, _, _ => True
  | fuel + 1, s, buf =>
    P s buf ∧ ∀ n s' out, next s buf = .take n s' out → Visits P fuel s' (buf.drop n)

/-- A verdict that is no failure, and whose round has a property. -/
def Proceeds (R : Round σ α ω → Prop) (next : σ → List α → Verdict σ ω ε) (s : σ) (buf : List α) :
    Prop :=
  (∀ e, next s buf ≠ .fail e) ∧
    ∀ s' out, (next s buf = .stop s' out ∨ ∃ n, next s buf = .take n s' out) →
      R ⟨s, buf, out, s'⟩

/-- **A loop returns, and every round of it has a property**, exactly if
every verdict on its way is such. -/
theorem pump_returns_iff {R : Round σ α ω → Prop} {fuel : ℕ} {s : σ} {buf : List α} :
    ((∃ r, pump next fuel s buf = .ok r) ∧ ∀ r ∈ rounds next fuel s buf, R r) ↔
      Visits next (Proceeds R next) fuel s buf := by
  induction fuel generalizing s buf with
  | zero => exact ⟨fun _ => trivial, fun _ => ⟨⟨_, rfl⟩, fun _ h => (by cases h)⟩⟩
  | succ fuel ih =>
    rw [pump, rounds, Visits, Proceeds]
    rcases hn : next s buf with _ | e | ⟨s', out⟩ | ⟨n, s', out⟩
    · refine ⟨fun _ => ⟨⟨fun _ h => (by cases h), fun s' out h => ?_⟩, fun _ _ _ h => (by cases h)⟩,
        fun _ => ⟨⟨_, rfl⟩, fun _ h => (by cases h)⟩⟩
      rcases h with h | ⟨n, h⟩ <;> cases h
    · exact ⟨fun h => absurd h.1 (not_returns_error e), fun h => absurd rfl (h.1.1 e)⟩
    · refine ⟨fun h => ⟨⟨fun _ h => (by cases h), fun s₁ out₁ h₁ => ?_⟩, fun _ _ _ h => (by cases h)⟩,
        fun h => ⟨⟨_, rfl⟩, fun r hr => ?_⟩⟩
      · rcases h₁ with h₁ | ⟨n, h₁⟩
        · obtain ⟨rfl, rfl⟩ := Verdict.stop.inj h₁
          exact h.2 _ (List.mem_singleton_self _)
        · cases h₁
      · rw [List.mem_singleton.mp hr]
        exact h.1.2 s' out (.inl rfl)
    · dsimp only
      have hreturns : (∃ r, (pump next fuel s' (buf.drop n)).map (Outcome.prepend [out]) = .ok r) ↔
          ∃ r, pump next fuel s' (buf.drop n) = .ok r := by
        rcases pump next fuel s' (buf.drop n) with e | r'
        · exact ⟨fun h => absurd h (not_returns_error e), fun h => absurd h (not_returns_error e)⟩
        · exact ⟨fun _ => ⟨_, rfl⟩, fun _ => ⟨_, rfl⟩⟩
      rw [hreturns, List.forall_mem_cons]
      constructor
      · rintro ⟨hr, hround, hrounds⟩
        refine ⟨⟨fun _ h => (by cases h), fun s₁ out₁ h₁ => ?_⟩, fun n₁ s₁ out₁ h₁ => ?_⟩
        · rcases h₁ with h₁ | ⟨n₁, h₁⟩
          · cases h₁
          · obtain ⟨-, rfl, rfl⟩ := Verdict.take.inj h₁
            exact hround
        · obtain ⟨rfl, rfl, -⟩ := Verdict.take.inj h₁
          exact ih.mp ⟨hr, hrounds⟩
      · rintro ⟨⟨-, hround⟩, hvisits⟩
        obtain ⟨hr, hrounds⟩ := ih.mpr (hvisits n s' out rfl)
        exact ⟨hr, hround s' out (.inr ⟨n, rfl⟩), hrounds⟩

/-- What the loop visits is found by making it. -/
instance Visits.decidable (P : σ → List α → Prop) [∀ s buf, Decidable (P s buf)] :
    ∀ fuel s buf, Decidable (Visits next P fuel s buf)
  | 0, _, _ => isTrue trivial
  | fuel + 1, s, buf =>
    match hn : next s buf with
    | .take n s' out =>
      have := Visits.decidable P fuel s' (buf.drop n)
      decidable_of_iff (P s buf ∧ Visits next P fuel s' (buf.drop n))
        ⟨fun h => ⟨h.1, fun _ _ _ he => by
          obtain ⟨rfl, rfl, -⟩ := Verdict.take.inj (hn.symm.trans he)
          exact h.2⟩, fun h => ⟨h.1, h.2 n s' out hn⟩⟩
    | .wait => decidable_of_iff (P s buf)
      ⟨fun h => ⟨h, fun _ _ _ he => nomatch hn.symm.trans he⟩, And.left⟩
    | .fail _ => decidable_of_iff (P s buf)
      ⟨fun h => ⟨h, fun _ _ _ he => nomatch hn.symm.trans he⟩, And.left⟩
    | .stop _ _ => decidable_of_iff (P s buf)
      ⟨fun h => ⟨h, fun _ _ _ he => nomatch hn.symm.trans he⟩, And.left⟩

/-- Properties that agree where the reader goes are visited alike. -/
theorem visits_congr {P Q S : σ → List α → Prop} {J : σ → List α → Prop}
    (hPQ : ∀ s buf, J s buf → S s buf → (P s buf ↔ Q s buf))
    (htake : ∀ s buf n s' out, J s buf → next s buf = .take n s' out → J s' (buf.drop n))
    {fuel : ℕ} {s : σ} {buf : List α} (hJ : J s buf) (hS : Visits next S fuel s buf) :
    Visits next P fuel s buf ↔ Visits next Q fuel s buf := by
  induction fuel generalizing s buf with
  | zero => exact Iff.rfl
  | succ fuel ih =>
    rw [Visits, Visits, hPQ s buf hJ hS.1]
    refine and_congr_right fun _ => forall_congr' fun n => forall_congr' fun s' =>
      forall_congr' fun out => ?_
    exact imp_congr_right fun h => ih (htake s buf n s' out hJ h) (hS.2 n s' out h)

section Steady

variable {bound : ℕ}

/-- Rounds past the length of the buffer change nothing. -/
theorem pump_eq_pumpAll (hst : Steady next bound) {fuel : ℕ} {s : σ} {buf : List α}
    (hf : buf.length ≤ fuel) : pump next fuel s buf = pumpAll next s buf := by
  induction hn : buf.length using Nat.strongRecOn generalizing fuel s buf with
  | _ n ih =>
    rw [pumpAll]
    rcases buf with _ | ⟨a, buf⟩
    · cases fuel with
      | zero => rfl
      | succ fuel => rw [pump, hst.nil]; rfl
    · obtain ⟨fuel, rfl⟩ : ∃ k, fuel = k + 1 :=
        ⟨fuel - 1, by rw [List.length_cons] at hf; omega⟩
      rw [List.length_cons, pump, pump]
      rcases hv : next s (a :: buf) with _ | e | ⟨s', out⟩ | ⟨k, s', out⟩
      · rfl
      · rfl
      · rfl
      · obtain ⟨hk, -⟩ := hst.take _ _ _ _ _ hv
        have hlen : ((a :: buf).drop k).length = buf.length + 1 - k := by simp
        rw [List.length_cons] at hf hn
        dsimp only
        rw [ih _ (by omega) (by omega) hlen, ih _ (by omega) (by omega) hlen]

/-- **One round of the loop.** -/
theorem pumpAll_eq (hst : Steady next bound) (s : σ) (buf : List α) :
    pumpAll next s buf =
      match next s buf with
      | .wait => .ok (.more s buf [])
      | .fail e => .error e
      | .stop s' out => .ok (.done s' [out])
      | .take n s' out => (pumpAll next s' (buf.drop n)).map (Outcome.prepend [out]) := by
  rcases buf with _ | ⟨a, buf⟩
  · rw [hst.nil]
    rfl
  · rw [pumpAll, List.length_cons, pump]
    rcases hv : next s (a :: buf) with _ | e | ⟨s', out⟩ | ⟨n, s', out⟩
    · rfl
    · rfl
    · rfl
    · obtain ⟨hn, -⟩ := hst.take _ _ _ _ _ hv
      dsimp only
      rw [pump_eq_pumpAll hst]
      rw [List.length_drop, List.length_cons]
      omega

/-- **An item at the head of the buffer.** -/
theorem pumpAll_item (hst : Steady next bound) {s s' : σ} {item rest : List α} {out : ω}
    (h : next s (item ++ rest) = .take item.length s' out) :
    pumpAll next s (item ++ rest) = (pumpAll next s' rest).map (Outcome.prepend [out]) := by
  rw [pumpAll_eq hst, h]
  dsimp only
  rw [List.drop_left]

/-- The reader waits on part of an item. -/
theorem wait_of_item (hst : Steady next bound) {s s' : σ} {part rest : List α} {out : ω}
    (h : next s (part ++ rest) = .take (part ++ rest).length s' out)
    (hlen : (part ++ rest).length < bound) (hrest : rest ≠ []) : next s part = .wait := by
  by_contra hne
  have happ := hst.append s part rest hne hlen
  rw [h] at happ
  have hle := (hst.take _ _ _ _ _ happ.symm).2
  have hpos := List.length_pos_of_ne_nil hrest
  rw [List.length_append] at hle
  omega

/-- The loop leaves an end of the buffer that the reader waits on. -/
theorem left_of_pumpAll (hst : Steady next bound) {s s' : σ} {buf left : List α}
    {outs : List ω} (h : pumpAll next s buf = .ok (.more s' left outs)) :
    next s' left = .wait ∧ left.length ≤ buf.length := by
  induction hn : buf.length using Nat.strongRecOn generalizing s buf outs with
  | _ n ih =>
    rw [pumpAll_eq hst] at h
    rcases hv : next s buf with _ | e | ⟨s₁, out⟩ | ⟨k, s₁, out⟩
    · rw [hv] at h
      obtain ⟨rfl, rfl, -⟩ := Outcome.more.inj (Except.ok.inj h)
      exact ⟨hv, Nat.le_of_eq hn⟩
    · rw [hv] at h
      cases h
    · rw [hv] at h
      cases Except.ok.inj h
    · rw [hv] at h
      dsimp only at h
      obtain ⟨hk, hkl⟩ := hst.take _ _ _ _ _ hv
      rcases hp : pumpAll next s₁ (buf.drop k) with e | ⟨s₂, left₂, outs₂⟩ | ⟨s₂, outs₂⟩
      · rw [hp] at h
        cases h
      · rw [hp] at h
        obtain ⟨rfl, rfl, -⟩ := Outcome.more.inj (Except.ok.inj h)
        obtain ⟨hwait, hle⟩ := ih _ (by omega) hp List.length_drop
        exact ⟨hwait, by omega⟩
      · rw [hp] at h
        cases Except.ok.inj h

/-- **More input is taken up where the loop stopped.** -/
theorem pumpAll_append (hst : Steady next bound) {s : σ} {buf ext : List α}
    (hlen : (buf ++ ext).length < bound) :
    pumpAll next s (buf ++ ext) = resume next ext (pumpAll next s buf) := by
  induction hn : buf.length using Nat.strongRecOn generalizing s buf with
  | _ n ih =>
    rw [pumpAll_eq hst s buf]
    rcases hv : next s buf with _ | e | ⟨s₁, out⟩ | ⟨k, s₁, out⟩
    · dsimp only [resume]
      rcases pumpAll next s (buf ++ ext) with e | r
      · rfl
      · rw [Except.map, Outcome.prepend_nil]
    · rw [pumpAll_eq hst, hst.append s buf ext (by rw [hv]; exact fun h => by cases h) hlen, hv]
      rfl
    · rw [pumpAll_eq hst, hst.append s buf ext (by rw [hv]; exact fun h => by cases h) hlen, hv]
      rfl
    · obtain ⟨hk, hkl⟩ := hst.take _ _ _ _ _ hv
      rw [pumpAll_eq hst, hst.append s buf ext (by rw [hv]; exact fun h => by cases h) hlen, hv]
      dsimp only
      rw [List.length_append] at hlen
      rw [List.drop_append_of_le_length hkl, ih _ (by omega)
        (by rw [List.length_append, List.length_drop]; omega) List.length_drop]
      -- the item taken first stands before what either side puts out
      rcases pumpAll next s₁ (buf.drop k) with e | ⟨s₂, left₂, outs₂⟩ | ⟨s₂, outs₂⟩
      · rfl
      · change Except.map _ (Except.map _ (pumpAll next s₂ (left₂ ++ ext))) =
          Except.map (Outcome.prepend ([out] ++ outs₂)) (pumpAll next s₂ (left₂ ++ ext))
        rcases pumpAll next s₂ (left₂ ++ ext) with e | r
        · rfl
        · exact congrArg Except.ok (Outcome.prepend_prepend [out] outs₂ r)
      · rfl

/-- **A stream is read as one buffer.** -/
theorem feed_eq_pumpAll (hst : Steady next bound) {s : σ} {left : List α}
    {chunks : List (List α)} (hwait : next s left = .wait)
    (hlen : (left ++ chunks.flatten).length < bound) :
    feed next s left chunks = pumpAll next s (left ++ chunks.flatten) := by
  induction chunks generalizing s left with
  | nil => rw [List.flatten_nil, List.append_nil, pumpAll_eq hst, hwait]; rfl
  | cons chunk chunks ih =>
    rw [List.flatten_cons, ← List.append_assoc] at hlen ⊢
    rw [pumpAll_append hst hlen, feed]
    rcases hp : pumpAll next s (left ++ chunk) with e | ⟨s₁, left₁, outs⟩ | ⟨s₁, outs⟩
    · rfl
    · obtain ⟨hwait', hle⟩ := left_of_pumpAll hst hp
      rw [List.length_append] at hlen
      dsimp only [resume]
      rw [ih hwait' (by rw [List.length_append]; omega)]
    · rfl

/-- **The invariant rule for a stream of known items.** The reader takes
each item whole or ends at it, whatever follows; so it does when only the
first part of the stream has arrived, and what it leaves is the start of
the items it has yet to take. Once all has arrived it leaves nothing. -/
theorem pumpAll_items (hst : Steady next bound) {J : List (List α) → σ → List ω → Prop}
    {K : σ → List ω → Prop}
    (hitem : ∀ w ws s outs, J (w :: ws) s outs →
      (∃ s' out, (∀ rest, (w ++ rest).length < bound →
          next s (w ++ rest) = .take w.length s' out) ∧ J ws s' (outs ++ [out])) ∨
        ∃ s' out, (∀ rest, (w ++ rest).length < bound → next s (w ++ rest) = .stop s' out) ∧
          K s' (outs ++ [out]))
    {ws : List (List α)} {s : σ} {outs : List ω} {buf rest : List α} (hJ : J ws s outs)
    (hbuf : buf ++ rest = ws.flatten) (hlen : ws.flatten.length < bound) :
    (∃ ws' s' left outs', pumpAll next s buf = .ok (.more s' left outs') ∧
        J ws' s' (outs ++ outs') ∧ left ++ rest = ws'.flatten ∧ (rest = [] → ws' = [])) ∨
      ∃ s' outs', pumpAll next s buf = .ok (.done s' outs') ∧ K s' (outs ++ outs') := by
  induction ws generalizing s outs buf with
  | nil =>
    obtain ⟨rfl, rfl⟩ := List.append_eq_nil_iff.mp hbuf
    exact .inl ⟨[], s, [], [], rfl, by rwa [List.append_nil], rfl, fun _ => rfl⟩
  | cons w ws ih =>
    rw [List.flatten_cons] at hbuf hlen
    have hwait : next s buf = .wait → rest ≠ [] → ∃ ws' s' left outs',
        pumpAll next s buf = .ok (.more s' left outs') ∧ J ws' s' (outs ++ outs') ∧
          left ++ rest = ws'.flatten ∧ (rest = [] → ws' = []) := fun hn hrest =>
      ⟨w :: ws, s, buf, [], by rw [pumpAll_eq hst, hn], by rwa [List.append_nil],
        by rw [hbuf, List.flatten_cons], fun h => absurd h hrest⟩
    rcases hitem w ws s outs hJ with ⟨s', out, hn, hJ'⟩ | ⟨s', out, hn, hK⟩
    · by_cases hle : w.length ≤ buf.length
      · -- the whole item has arrived
        obtain ⟨buf', rfl⟩ : ∃ buf', buf = w ++ buf' :=
          List.prefix_of_prefix_length_le (List.prefix_append w ws.flatten)
            (hbuf ▸ List.prefix_append buf rest) hle |>.imp fun _ h => h.symm
        rw [List.append_assoc, List.append_cancel_left_eq] at hbuf
        have hlen' : (w ++ buf').length < bound := by
          rw [← hbuf] at hlen
          simp only [List.length_append] at hlen ⊢
          omega
        rw [pumpAll_item hst (hn buf' hlen')]
        rcases ih hJ' hbuf (by rw [List.length_append] at hlen; omega) with
          ⟨ws', s₁, left, outs', hp, hJ₁, hleft, hnil⟩ | ⟨s₁, outs', hp, hK₁⟩
        · rw [hp]
          exact .inl ⟨ws', s₁, left, out :: outs', rfl, by rwa [List.append_cons], hleft, hnil⟩
        · rw [hp]
          exact .inr ⟨s₁, out :: outs', rfl, by rwa [List.append_cons]⟩
      · obtain ⟨part, hpart⟩ : ∃ part, buf ++ part = w :=
          List.prefix_of_prefix_length_le (hbuf ▸ List.prefix_append buf rest)
            (List.prefix_append w ws.flatten) (by omega)
        have hne : part ≠ [] := by
          rintro rfl
          rw [List.append_nil] at hpart
          exact hle (Nat.le_of_eq (congrArg List.length hpart.symm))
        have hw := hn [] (by rw [List.length_append] at hlen; simp; omega)
        rw [List.append_nil, ← hpart] at hw
        refine .inl (hwait (wait_of_item hst hw ?_ hne) ?_)
        · rw [hpart]
          rw [List.length_append] at hlen
          omega
        · rintro rfl
          rw [List.append_nil] at hbuf
          rw [hbuf, List.length_append] at hle
          omega
    · have hall := hn ws.flatten hlen
      by_cases hv : next s buf = .wait
      · refine .inl (hwait hv ?_)
        rintro rfl
        rw [List.append_nil] at hbuf
        rw [hbuf, hall] at hv
        cases hv
      · -- a verdict on part of the item is the verdict on all of it
        have happ := hst.append s buf rest hv (by rwa [hbuf])
        rw [hbuf, hall] at happ
        exact .inr ⟨s', [out], by rw [pumpAll_eq hst, ← happ], hK⟩

end Steady

end Stream

end OrderbookFix
