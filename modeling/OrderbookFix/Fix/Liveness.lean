import OrderbookFix.Common.Walk
import OrderbookFix.Fix.Helpers.Exchange
import OrderbookFix.Fix.Helpers.Timers
import Mathlib.Data.Rat.Cast.Order
import Mathlib.Tactic.Linarith
/-!
# Is the peer still there

A session that hears nothing for a while sends a TestRequest, and one
that then hears nothing for as long again gives the peer up. The times
and flags behind it are set in many places; what they amount to is told
by the timeline. A tick tests the peer only where the last event is a
message, and gives it up only where the last two are a message and a
TestRequest, each time after the window has passed.

The window is computed in whole seconds from the interval and half of it,
so it is one and a half intervals exactly if the interval is even.
-/

namespace OrderbookFix

namespace Fix

namespace Session

/-! ## The law of the timeline -/

/-- **When an event is due**, given those before it and the window. -/
inductive Due (w : Int) : List Event → Event → Prop
  | heard (es : List Event) (t : Int) : Due w es (.heard t)
  | tested (es : List Event) {t₀ t : Int} (h : t₀ + w ≤ t) :
      Due w (es ++ [.heard t₀]) (.tested t)
  | timedOut (es : List Event) {t₀ t₁ t : Int} (h₀ : t₀ + w ≤ t₁) (h₁ : t₁ + w ≤ t) :
      Due w (es ++ [.heard t₀, .tested t₁]) (.timedOut t)

/-- **A lawful timeline.** -/
def Lawful (w : Int) (es : List Event) : Prop :=
  ∀ pre e post, es = pre ++ e :: post → Due w pre e

section Law

variable {w : Int} {es : List Event}

theorem Lawful.nil : Lawful w [] := by
  intro pre e post h
  exact absurd h.symm (List.append_ne_nil_of_right_ne_nil _ (List.cons_ne_nil e post))

theorem Lawful.append {new : List Event} (h : Lawful w es)
    (hnew : ∀ pre e post, new = pre ++ e :: post → Due w (es ++ pre) e) :
    Lawful w (es ++ new) := by
  intro pre e post heq
  rcases append_eq_append_cons heq with ⟨c, hes, -⟩ | ⟨c, rfl, rfl⟩
  · exact h pre e c hes
  · exact hnew c e post rfl

/-- One more event. -/
theorem Lawful.concat {e : Event} (h : Lawful w es) (he : Due w es e) :
    Lawful w (es ++ [e]) := by
  refine h.append fun pre e' post heq => ?_
  rcases pre with _ | ⟨e₀, pre⟩
  · rw [List.append_nil, ← (List.cons.inj heq).1]
    exact he
  · have hnil := (List.cons.inj heq).2
    exact absurd hnil.symm (List.append_ne_nil_of_right_ne_nil _ (List.cons_ne_nil e' post))

/-- Messages may be heard at any time. -/
theorem Lawful.append_heard (h : Lawful w es) (ts : List Int) :
    Lawful w (es ++ ts.map .heard) := by
  refine h.append fun pre e post heq => ?_
  have hmem : e ∈ ts.map Event.heard := by
    rw [heq]
    simp
  obtain ⟨t, -, rfl⟩ := List.mem_map.mp hmem
  exact .heard _ t

end Law

/-! ## Where a session stands -/

/-- **Where a session that is on stands**: the last event is a message, or
it sent a TestRequest since. -/
inductive Standing (s : Session) : List Event → Prop
  | heard (es : List Event) {t : Int} (hin : t ≤ s.lastInbound)
      (hout : s.testRequestOutstanding = false) : Standing s (es ++ [.heard t])
  | tested (es : List Event) {t : Int} (hlate : t + s.window ≤ s.testRequestAt)
      (hout : s.testRequestOutstanding = true) :
      Standing s (es ++ [.heard t, .tested s.testRequestAt])

/-- **The invariant of a run.** -/
structure Watched (secs : Int) (ps : List Moment) (s : Session) : Prop where
  secs : s.cfg.heartbeatSecs = secs
  armed : s.Armed
  standing : s.state = .loggedIn → Standing s (timeline ps)
  lawful : Lawful s.window (timeline ps)
  order : ((timeline ps).filterMap Event.heardAt).Sublist (ps.flatMap Moment.times)

section Watch

variable {s s' : Session} {secs : Int} {ps : List Moment} {c : Call} {out : List SessionStep}

theorem timeline_concat (ps : List Moment) (p : Moment) :
    timeline (ps ++ [p]) = timeline ps ++ Moment.events p := by
  rw [timeline, List.flatMap_append, List.flatMap_singleton]
  rfl

theorem times_concat (ps : List Moment) (p : Moment) :
    (ps ++ [p]).flatMap Moment.times = ps.flatMap Moment.times ++ Moment.times p := by
  rw [List.flatMap_append, List.flatMap_singleton]

theorem filterMap_heardAt (ts : List Int) : (ts.map Event.heard).filterMap Event.heardAt = ts := by
  induction ts with
  | nil => rfl
  | cons t ts ih => rw [List.map_cons, List.filterMap_cons, ih]; rfl

/-- The readings of the last call of a run are in order. -/
theorem Onward.readings {p : Moment} (h : Onward (ps ++ [p])) :
    (readings p.before p.after).Pairwise (· ≤ ·) := by
  rw [Onward, times_concat] at h
  exact (List.pairwise_append.mp (List.pairwise_append.mp h).2.1).2.1

theorem Onward.init {qs : List Moment} (h : Onward (ps ++ qs)) : Onward ps := by
  rw [Onward, List.flatMap_append] at h
  exact (List.pairwise_append.mp h).1

theorem Standing.last_heard {es : List Event} (h : Standing s es)
    (hout : s.testRequestOutstanding = false) :
    ∃ es₀ t, es = es₀ ++ [.heard t] ∧ t ≤ s.lastInbound := by
  cases h with
  | heard es₀ hin _ => exact ⟨es₀, _, rfl, hin⟩
  | tested es₀ _ hout' =>
    rw [hout] at hout'
    cases hout'

theorem Standing.last_tested {es : List Event} (h : Standing s es)
    (hout : s.testRequestOutstanding = true) :
    ∃ es₀ t, es = es₀ ++ [.heard t, .tested s.testRequestAt] ∧
      t + s.window ≤ s.testRequestAt := by
  cases h with
  | heard es₀ _ hout' =>
    rw [hout] at hout'
    cases hout'
  | tested es₀ hlate _ => exact ⟨es₀, _, rfl, hlate⟩

/-- A call that changes nothing of the timers leaves the session where it
stands. -/
theorem Standing.silent {es : List Event} (h : Standing s es) (hh : Hears s [] s') :
    Standing s' es := by
  obtain ⟨hin, hout, -⟩ := hh.silent rfl
  have hwindow := window_congr hh.secs
  cases h with
  | heard es hin' hout' => exact .heard es (by rw [hin]; exact hin') (hout.trans hout')
  | tested es hlate hout' =>
    rw [← hh.testAt]
    exact .tested es (by rw [hwindow, hh.testAt]; exact hlate) (hout.trans hout')

/-- Messages heard, if any, are the last events. -/
theorem Standing.hears {es : List Event} {ts : List Int} (h : s.state = .loggedIn → Standing s es)
    (hh : Hears s ts s') (hr : (readings s s').Pairwise (· ≤ ·)) (hon : s'.state = .loggedIn) :
    Standing s' (es ++ ts.map .heard) := by
  rcases List.eq_nil_or_concat ts with rfl | ⟨front, t, rfl⟩
  · obtain ⟨-, -, hstate⟩ := hh.silent rfl
    rw [List.map_nil, List.append_nil]
    exact (h (hstate hon)).silent hh
  · obtain ⟨hout, i, j, hi, hij, hj, rfl, hin⟩ := hh.heard t (by simp)
    have hle := clock_le_of_readings hr hi hij hj
    rw [List.concat_eq_append, List.map_append, ← List.append_assoc]
    exact .heard _ (by rw [hin]; exact hle) hout

/-- Calls other than ticks keep the invariant. -/
theorem Watched.hears {p : Moment} {ts : List Int} (h : Watched secs ps s)
    (hp : Moment.events p = ts.map .heard) (hbefore : p.before = s) (hafter : p.after = s')
    (hh : Hears s ts s') (hf : Onward (ps ++ [p])) : Watched secs (ps ++ [p]) s' := by
  have hwindow := window_congr hh.secs
  have hr := hf.readings
  rw [hbefore, hafter] at hr
  refine ⟨hh.secs.trans h.secs, hh.armed h.armed, fun hon => ?_, ?_, ?_⟩
  · rw [timeline_concat, hp]
    exact Standing.hears h.standing hh hr hon
  · rw [timeline_concat, hp, hwindow]
    exact h.lawful.append_heard ts
  · rw [timeline_concat, hp, times_concat, List.filterMap_append, filterMap_heardAt]
    refine h.order.append ?_
    rw [Moment.times, Moment.clocked, hbefore, hafter]
    exact hh.within.trans (List.sublist_append_right _ _)

/-- A call that hears nothing leaves the messages in order. -/
theorem Watched.order_concat {p : Moment} (h : Watched secs ps s)
    (hp : (Moment.events p).filterMap Event.heardAt = []) :
    ((timeline (ps ++ [p])).filterMap Event.heardAt).Sublist
      ((ps ++ [p]).flatMap Moment.times) := by
  rw [timeline_concat, List.filterMap_append, hp, List.append_nil, times_concat]
  exact h.order.trans (List.sublist_append_left _ _)

/-- **One call keeps the invariant.** -/
theorem Watched.perform (h : Watched secs ps s) (hp : s.perform c = .ok (s', out))
    (hf : Onward (ps ++ [⟨s, c, out, s'⟩])) : Watched secs (ps ++ [⟨s, c, out, s'⟩]) s' := by
  rcases hc : c.now with _ | now
  · obtain ⟨ts, hevents, hh⟩ := perform_hears hp hc
    exact h.hears hevents rfl rfl hh hf
  obtain ⟨step, rfl, rfl, ht⟩ := perform_tick hp hc
  have htells := (tick_ticksAt ht).tells
  generalize hes : Moment.events ⟨s, .tick now, [step], s'⟩ = es at htells
  cases htells with
  | nothing hh =>
    have hnil : Moment.events ⟨s, .tick now, [step], s'⟩ = ([] : List Int).map .heard := hes
    exact h.hears hnil rfl rfl hh hf
  | tested htimed hout hlate hs' =>
    subst hs'
    obtain ⟨es₀, t, hlast, hin⟩ := (h.standing htimed.on).last_heard hout
    refine ⟨h.secs, fun _ => htimed.armed, fun _ => ?_, ?_, h.order_concat (by rw [hes]; rfl)⟩
    · rw [timeline_concat, hes, hlast, List.append_assoc]
      exact .tested es₀ (show t + s.window ≤ now by omega) rfl
    · rw [timeline_concat, hes]
      refine h.lawful.concat ?_
      rw [hlast]
      exact .tested es₀ (show t + s.window ≤ now by omega)
  | timedOut htimed hout hlate hoff hsecs =>
    obtain ⟨es₀, t, hlast, hlate'⟩ := (h.standing htimed.on).last_tested hout
    have hwindow := window_congr hsecs
    refine ⟨hsecs.trans h.secs, fun hon => absurd hon hoff, fun hon => absurd hon hoff, ?_,
      h.order_concat (by rw [hes]; rfl)⟩
    rw [timeline_concat, hes, hwindow]
    refine h.lawful.concat ?_
    rw [hlast]
    exact .timedOut es₀ hlate' (by omega)

/-- **Every run keeps it.** -/
theorem run_watched {cfg : SessionConfig} {soh : Soh} {order : FieldOrder} {now : ℕ → Bytes}
    {clock : ℕ → Int} {calls : List Call}
    (h : run (recorded perform) (makeSession cfg soh order now clock) calls = .ok (s, ps))
    (hf : Onward ps) : Watched cfg.heartbeatSecs ps s := by
  refine recorded_inv (J := fun ps s => Onward ps → Watched cfg.heartbeatSecs ps s)
    (fun ps s c out s' hj hp hf => ?_) (fun _ => ?_) h hf
  · exact (hj hf.init).perform hp hf
  · exact ⟨rfl, fun h => (by cases h), fun h => (by cases h), Lawful.nil, List.nil_sublist _⟩

/-- **A tick of a run** is made in a state of a shorter run, where the
invariant holds. -/
theorem exists_of_tick {cfg : SessionConfig} {soh : Soh} {order : FieldOrder} {now : ℕ → Bytes}
    {clock : ℕ → Int} {calls : List Call} {pre post : List Moment} {p : Moment} {t : Int}
    (h : run (recorded perform) (makeSession cfg soh order now clock) calls =
      .ok (s, pre ++ p :: post))
    (hf : Onward (pre ++ p :: post)) (hcall : p.call = .tick t) :
    ∃ calls' step,
      run (recorded perform) (makeSession cfg soh order now clock) calls' = .ok (p.before, pre) ∧
      Watched cfg.heartbeatSecs pre p.before ∧ p.out = [step] ∧
      p.before.tick t = (p.after, step) := by
  obtain ⟨calls', hrun, hstep⟩ := exists_of_run_recorded h
  obtain ⟨step, -, hout, htick⟩ := perform_tick hstep (by rw [hcall]; rfl)
  exact ⟨calls', step, hrun, run_watched hrun hf.init, hout, htick⟩

end Watch

/-! ## What ticks do to a silent peer -/

section Safety

variable {w : Int} {es pre mid post : List Event} {t t' : Int}

/-- Between two TestRequests a message was heard. -/
theorem Lawful.heard_between (h : Lawful w es)
    (hes : es = pre ++ .tested t :: (mid ++ .tested t' :: post)) : ∃ u, .heard u ∈ mid := by
  have hdue := h (pre ++ .tested t :: mid) (.tested t') post (by rw [hes]; simp)
  generalize hl : pre ++ Event.tested t :: mid = l at hdue
  cases hdue with
  | @tested es₀ u _ _ =>
    rcases List.eq_nil_or_concat mid with rfl | ⟨front, e, rfl⟩
    · obtain ⟨-, hlast⟩ := List.append_inj' hl rfl
      cases hlast
    · rw [List.concat_eq_append, ← List.cons_append, ← List.append_assoc] at hl
      obtain ⟨-, hlast⟩ := List.append_inj' hl rfl
      obtain rfl := List.singleton_inj.mp hlast
      exact ⟨u, by simp⟩

/-- The peer is given up a window after a TestRequest, the one since the
last message. -/
theorem Lawful.timedOut (h : Lawful w es) (hes : es = pre ++ .timedOut t :: post) :
    ∃ es₀ t₀ t₁, pre = es₀ ++ [.heard t₀, .tested t₁] ∧ t₀ + w ≤ t₁ ∧ t₁ + w ≤ t := by
  have hdue := h pre (.timedOut t) post hes
  cases hdue with
  | timedOut es₀ h₀ h₁ => exact ⟨es₀, _, _, rfl, h₀, h₁⟩

theorem Lawful.tested (h : Lawful w es) (hes : es = pre ++ .tested t :: post) :
    ∃ es₀ t₀, pre = es₀ ++ [.heard t₀] ∧ t₀ + w ≤ t := by
  have hdue := h pre (.tested t) post hes
  cases hdue with
  | tested es₀ h => exact ⟨es₀, _, rfl, h⟩

/-- The last message heard is the latest. -/
theorem le_of_heard {t₀ u : Int}
    (h : ((pre ++ .heard t₀ :: post).filterMap Event.heardAt).Pairwise (· ≤ ·))
    (hu : .heard u ∈ pre) : u ≤ t₀ := by
  rw [List.filterMap_append, List.filterMap_cons] at h
  exact (List.pairwise_append.mp h).2.2 u (List.mem_filterMap.mpr ⟨_, hu, rfl⟩) t₀
    (List.mem_cons_self ..)

/-- Where the messages are heard in order, the peer is given up two
windows after the last of them at least. -/
theorem Lawful.timedOut_late (h : Lawful w es)
    (hsorted : (es.filterMap Event.heardAt).Pairwise (· ≤ ·))
    (hes : es = pre ++ .timedOut t :: post) :
    ∃ es₀ t₀ t₁, pre = es₀ ++ [.heard t₀, .tested t₁] ∧ t₁ ≤ t - w ∧
      ∀ u, .heard u ∈ pre → u ≤ t₁ - w := by
  obtain ⟨es₀, t₀, t₁, rfl, h₀, h₁⟩ := h.timedOut hes
  refine ⟨es₀, t₀, t₁, rfl, by omega, fun u hu => ?_⟩
  rw [hes, List.append_assoc] at hsorted
  have hle : u ≤ t₀ := by
    rcases List.mem_append.mp hu with hu | hu
    · exact le_of_heard hsorted hu
    · simp only [List.mem_cons, Event.heard.injEq, reduceCtorEq, List.not_mem_nil,
        or_false] at hu
      omega
  omega

end Safety

/-- **The liveness machine is safe.** Between two TestRequests of ticks a
message was parsed; a peer is given up a window after the one TestRequest
since its last message, and that came a window after any message; and a
tick that leaves the session on leaves it having spoken within its
interval. -/
theorem liveness_safe (cfg : SessionConfig) (soh : Soh) (order : FieldOrder) (now : ℕ → Bytes)
    (clock : ℕ → Int) (calls : List Call) (s : Session) (ps : List Moment)
    (hsecs : 0 < cfg.heartbeatSecs)
    (hrun : run (recorded perform) (makeSession cfg soh order now clock) calls = .ok (s, ps))
    (hforward : Onward ps) (hnow : ∀ p ∈ ps, Moment.AtNow p) :
    let w := (cfg.heartbeatSecs + cfg.heartbeatSecs / 2) * second
    (∀ pre t mid t' post, timeline ps = pre ++ .tested t :: (mid ++ .tested t' :: post) →
      ∃ u, .heard u ∈ mid) ∧
    (∀ pre t post, timeline ps = pre ++ .timedOut t :: post →
      ∃ es t₀ t₁, pre = es ++ [.heard t₀, .tested t₁] ∧ t₁ ≤ t - w ∧
        ∀ u, .heard u ∈ pre → u ≤ t₁ - w) ∧
    ∀ p ∈ ps, ∀ t, p.call = .tick t → p.after.state = .loggedIn →
      t - p.after.lastOutbound < cfg.heartbeatSecs * second := by
  intro w
  have hwatched := run_watched hrun hforward
  have hw : s.window = w := by rw [window, hwatched.secs]
  have hlaw := hw ▸ hwatched.lawful
  have hsorted := hforward.sublist hwatched.order
  refine ⟨fun pre t mid t' post hes => hlaw.heard_between hes,
    fun pre t post hes => hlaw.timedOut_late hsorted hes, fun p hp t hcall hon => ?_⟩
  obtain ⟨pre, post, rfl⟩ := List.append_of_mem hp
  obtain ⟨calls', step, -, hbefore, -, htick⟩ := exists_of_tick hrun hforward hcall
  rcases (tick_ticksAt htick).recent hbefore.armed (hbefore.secs ▸ hsecs) hon with hlt | hmem
  · rwa [hbefore.secs] at hlt
  · have hat := hnow p hp t (by rw [hcall]; rfl) _ hmem
    rw [hat]
    have hpos : 0 < cfg.heartbeatSecs * second := Int.mul_pos hsecs (by decide)
    omega

/-- The unit tests' configuration with another interval. -/
def intervalConfig (secs : Int) : SessionConfig := { testSession.cfg with heartbeatSecs := secs }

/-- A clock that answers with some times, in seconds, and then stands. -/
def clockOf (ts : List Int) (n : ℕ) : Int := (ts[n]?.getD (ts.getLastD 0)) * second

/-- A peer that logs on and falls silent: after 30 s a Heartbeat, after 45 s
a TestRequest, after 90 s a Logout. -/
theorem liveness_safe_silent_peer :
    ∃ s ps, run (recorded perform)
        (makeSession (intervalConfig 30) .text .stored (fun _ => ascii "20260513-00:00:00.000")
          (clockOf [0, 0, 0, 0, 30, 45, 90]))
        [.onBytes logonBytes, .tick (30 * second), .tick (45 * second), .tick (90 * second)] =
          .ok (s, ps) ∧
      timeline ps = [.heard 0, .tested (45 * second), .timedOut (90 * second)] ∧
      (∃ (es : List Event) (t₀ t₁ : Int),
        [.heard 0, .tested (45 * second)] = es ++ [.heard t₀, .tested t₁] ∧
        t₁ ≤ 90 * second - 45 * second) ∧
      ∀ p ∈ ps, ∀ t, p.call = .tick t → p.after.state = .loggedIn →
        t - p.after.lastOutbound < 30 * second := by
  obtain ⟨s, ps, hr, hcheck⟩ := @exists_of_run_check _ _ _ _ (recorded perform)
    (fun r : Session × List Moment => decide (Onward r.2 ∧ (∀ p ∈ r.2, Moment.AtNow p) ∧
      timeline r.2 = [.heard 0, .tested (45 * second), .timedOut (90 * second)]))
    (makeSession (intervalConfig 30) .text .stored (fun _ => ascii "20260513-00:00:00.000")
      (clockOf [0, 0, 0, 0, 30, 45, 90]))
    [.onBytes logonBytes, .tick (30 * second), .tick (45 * second), .tick (90 * second)]
    (by decide +kernel)
  obtain ⟨hforward, hnow, hline⟩ := of_decide_eq_true hcheck
  obtain ⟨-, hout, hspoke⟩ :=
    liveness_safe (intervalConfig 30) _ _ _ _ _ s ps (by decide) hr hforward hnow
  obtain ⟨es, t₀, t₁, hes, ht₁, -⟩ := hout [.heard 0, .tested (45 * second)] _ [] hline
  exact ⟨s, ps, hr, hline, ⟨es, t₀, t₁, hes, ht₁⟩, hspoke⟩

/-! ## The window in seconds -/

/-- **One and a half intervals**, exactly: before each TestRequest since
the last message, and before the peer is given up since the last
TestRequest. -/
structure Timely (secs : Int) (es : List Event) : Prop where
  tested : ∀ (pre : List Event) (t : Int) (post : List Event), es = pre ++ .tested t :: post →
    ∃ t₀ : Int, (pre.filterMap Event.heardAt).getLast? = some t₀ ∧
      (3 / 2 * secs * second : ℚ) ≤ t - t₀
  timedOut : ∀ (pre : List Event) (t : Int) (post : List Event), es = pre ++ .timedOut t :: post →
    ∃ t₁ : Int, (pre.filterMap Event.testedAt).getLast? = some t₁ ∧
      (3 / 2 * secs * second : ℚ) ≤ t - t₁

section Window

variable {secs : Int}

/-- The rational bound, in integers. -/
theorem three_halves_le_iff {a t t₀ : Int} :
    (3 / 2 * secs * a : ℚ) ≤ t - t₀ ↔ 3 * (secs * a) ≤ 2 * (t - t₀) := by
  have hcast : (3 / 2 * secs * a : ℚ) ≤ t - t₀ ↔
      ((3 * (secs * a) : Int) : ℚ) ≤ ((2 * (t - t₀) : Int) : ℚ) := by
    push_cast
    constructor
    · intro h
      linarith
    · intro h
      linarith
  rw [hcast, Int.cast_le]

/-- An even interval has a half. -/
theorem Lawful.timely {es : List Event} (h : Lawful ((secs + secs / 2) * second) es)
    (heven : 2 ∣ secs) : Timely secs es := by
  have hhalf : 3 * (secs * second) = 2 * ((secs + secs / 2) * second) := by
    unfold second
    omega
  constructor
  · intro pre t post hes
    obtain ⟨es₀, t₀, rfl, hle⟩ := h.tested hes
    have hlast : (es₀ ++ [Event.heard t₀]).filterMap Event.heardAt =
        es₀.filterMap Event.heardAt ++ [t₀] := List.filterMap_append ..
    refine ⟨t₀, by rw [hlast, List.getLast?_concat], ?_⟩
    rw [three_halves_le_iff]
    omega
  · intro pre t post hes
    obtain ⟨es₀, t₀, t₁, rfl, -, hle⟩ := h.timedOut hes
    have hlast : (es₀ ++ [Event.heard t₀, Event.tested t₁]).filterMap Event.testedAt =
        es₀.filterMap Event.testedAt ++ [t₁] := List.filterMap_append ..
    refine ⟨t₁, by rw [hlast, List.getLast?_concat], ?_⟩
    rw [three_halves_le_iff]
    omega

/-- A new session of any interval takes the unit tests' Logon, and asks
the clock four times for it. -/
theorem onBytes_logonBytes {s : Session} (hbuf : s.inBuf = []) (hoff : s.state = .disconnected)
    (hsoh : s.soh = .text) (hsender : s.cfg.senderCompId = ascii "OBFIX") :
    ∃ m step, s.onBytes logonBytes =
        .ok (((s.heard.accepting m 1).sent s.heard.logonBody).withBuf [], step) ∧
      (s.turns logonBytes).filterMap Turn.heardAt =
        [s.providers.clock s.providers.clockCalls] := by
  obtain ⟨pr, hp, hcheck⟩ := (passes_iff (r := parseOne .text logonBytes)
    (p := fun pr : ParseResult => decide (pr.err = .none ∧ pr.consumed = logonBytes.length ∧
      pr.msg.seq = .ok 1 ∧ pr.msg.msgType = MsgType.logon ∧
      pr.msg.get Tag.targetCompID = some (ascii "OBFIX")))).mp (by decide +kernel)
  obtain ⟨hnone, hall, hseq, ht, hto⟩ := of_decide_eq_true hcheck
  rw [← hsender] at hto
  rw [← hsoh] at hp
  have hh := handleMessage_logon_eq (s := s.heard) hoff hseq ht hto
  have hne : logonBytes ≠ [] := by decide +kernel
  have hn : next s logonBytes = .take logonBytes.length
      ((s.heard.accepting pr.msg 1).sent s.heard.logonBody)
      { out := [build s.soh ((s.heard.accepting pr.msg 1).wireBody s.heard.logonBody)] } := by
    rw [next, if_neg hne, hp]
    dsimp only
    rw [if_neg (by rw [hnone]; decide), if_neg (by rw [hnone]; decide), hh, hall]
    rfl
  have hmessage : ∀ step s', Turn.message ⟨s, logonBytes, step, s'⟩ = some pr.msg := by
    intro step s'
    unfold Turn.message
    dsimp only
    rw [hp]
    exact if_pos hnone
  refine ⟨pr.msg,
    { out := [build s.soh ((s.heard.accepting pr.msg 1).wireBody s.heard.logonBody)] }, ?_, ?_⟩
  · have hs : s.withBuf [] = s := by rw [← hbuf]; rfl
    have hpiece := onBytes_piece (List.nil_append _) (by decide +kernel) hn logonBytes.length
    rwa [List.take_length, List.drop_length, if_pos rfl, hs] at hpiece
  · rw [turns_whole hbuf hne hn, List.filterMap_cons, Turn.heardAt, hmessage]
    rfl

/-- **A peer that logs on and falls silent** gets a TestRequest as soon as
the window has passed. -/
theorem exists_run_tested (hsecs : 0 < secs) :
    ∃ (clock : ℕ → Int) (s : Session) (ps : List Moment),
      run (recorded perform) (makeSession (intervalConfig secs) .text .stored (fun _ => []) clock)
        [.onBytes logonBytes, .tick ((secs + secs / 2) * second)] = .ok (s, ps) ∧
      Onward ps ∧ timeline ps = [.heard 0, .tested ((secs + secs / 2) * second)] := by
  set now := (secs + secs / 2) * second with hnow
  have hpos : 0 ≤ now := Int.mul_nonneg (by omega) (by decide)
  refine ⟨fun n => if n < 4 then 0 else now, ?_⟩
  set s₀ := makeSession (intervalConfig secs) .text .stored (fun _ => [])
    (fun n => if n < 4 then 0 else now)
  obtain ⟨m, step, hlogon, hheard⟩ := @onBytes_logonBytes s₀ rfl rfl rfl rfl
  set s₁ := ((s₀.heard.accepting m 1).sent s₀.heard.logonBody).withBuf []
  have hfirst : recorded perform s₀ (.onBytes logonBytes) =
      .ok (s₁, [⟨s₀, .onBytes logonBytes, [step], s₁⟩]) := by
    rw [recorded, perform, hlogon]
    rfl
  -- the tick finds the last message a window ago
  have hwindow : s₁.window = now := rfl
  have hinbound : s₁.lastInbound = 0 := rfl
  obtain ⟨s₂, step₂, htick, hevents, hread⟩ := @tick_tested s₁ now
    ⟨rfl, hsecs, rfl⟩ rfl (by omega)
  have hsecond : recorded perform s₁ (.tick now) =
      .ok (s₂, [⟨s₁, .tick now, [step₂], s₂⟩]) := by
    rw [recorded, perform, htick]
    rfl
  refine ⟨s₂, _, by rw [run_cons_of_ok hfirst, run_cons_of_ok hsecond]; rfl, ?_, ?_⟩
  · have htimes : [(⟨s₀, .onBytes logonBytes, [step], s₁⟩ : Moment),
        ⟨s₁, .tick now, [step₂], s₂⟩].flatMap Moment.times = [0, 0, 0, 0, now, now] := by
      change readings s₀ s₁ ++ ((now :: readings s₁ s₂) ++ []) = _
      rw [hread]
      rfl
    have hforward : Onward [⟨s₀, .onBytes logonBytes, [step], s₁⟩,
        ⟨s₁, .tick now, [step₂], s₂⟩] := by
      rw [Onward, htimes]
      simp [hpos]
    exact hforward
  · change ((s₀.turns logonBytes).filterMap Turn.heardAt).map Event.heard ++
      (Moment.events ⟨s₁, .tick now, [step₂], s₂⟩ ++ []) = _
    rw [hheard, hevents]
    rfl

/-- **The window is one and a half intervals exactly if the interval is
even.** -/
theorem timely_iff_even (secs : Int) (hsecs : 0 < secs) :
    (∀ (cfg : SessionConfig) (soh : Soh) (order : FieldOrder) (now : ℕ → Bytes) (clock : ℕ → Int)
        (calls : List Call) (s : Session) (ps : List Moment), cfg.heartbeatSecs = secs →
        run (recorded perform) (makeSession cfg soh order now clock) calls = .ok (s, ps) →
        Onward ps → Timely secs (timeline ps)) ↔ 2 ∣ secs := by
  constructor
  · intro h
    obtain ⟨clock, s, ps, hrun, hforward, hline⟩ := exists_run_tested hsecs
    have htimely := h _ _ _ _ _ _ s ps rfl hrun hforward
    obtain ⟨t₀, hlast, hle⟩ := htimely.tested [.heard 0] _ [] hline
    obtain rfl : 0 = t₀ := Option.some.inj hlast
    rw [three_halves_le_iff] at hle
    unfold second at hle
    omega
  · intro heven cfg soh order now clock calls s ps hcfg hrun hforward
    have hwatched := run_watched hrun hforward
    have hlaw := hwatched.lawful
    rw [window, hwatched.secs, hcfg] at hlaw
    exact hlaw.timely heven

end Window

/-- The silent peer again: one and a half of 30 s. -/
theorem timely_thirty_seconds :
    ∃ s ps, run (recorded perform)
        (makeSession (intervalConfig 30) .text .stored (fun _ => ascii "20260513-00:00:00.000")
          (clockOf [0, 0, 0, 0, 45, 90]))
        [.onBytes logonBytes, .tick (45 * second), .tick (90 * second)] = .ok (s, ps) ∧
      timeline ps = [.heard 0, .tested (45 * second), .timedOut (90 * second)] ∧
      Timely 30 (timeline ps) := by
  obtain ⟨s, ps, hr, hcheck⟩ := @exists_of_run_check _ _ _ _ (recorded perform)
    (fun r : Session × List Moment => decide (Onward r.2 ∧
      timeline r.2 = [.heard 0, .tested (45 * second), .timedOut (90 * second)]))
    (makeSession (intervalConfig 30) .text .stored (fun _ => ascii "20260513-00:00:00.000")
      (clockOf [0, 0, 0, 0, 45, 90]))
    [.onBytes logonBytes, .tick (45 * second), .tick (90 * second)] (by decide +kernel)
  obtain ⟨hforward, hline⟩ := of_decide_eq_true hcheck
  exact ⟨s, ps, hr, hline,
    (timely_iff_even 30 (by decide)).mpr (by decide) _ _ _ _ _ _ s ps rfl hr hforward⟩

/-- An interval of 3 s: the TestRequest goes out after 4 s and the Logout 4 s
later, half a second early each. -/
theorem three_seconds_not_timely :
    ∃ s ps, run (recorded perform)
        (makeSession (intervalConfig 3) .text .stored (fun _ => ascii "20260513-00:00:00.000")
          (clockOf [0, 0, 0, 0, 4, 8]))
        [.onBytes logonBytes, .tick (4 * second), .tick (8 * second)] = .ok (s, ps) ∧
      Onward ps ∧ timeline ps = [.heard 0, .tested (4 * second), .timedOut (8 * second)] ∧
      ¬ Timely 3 (timeline ps) := by
  obtain ⟨s, ps, hr, hcheck⟩ := @exists_of_run_check _ _ _ _ (recorded perform)
    (fun r : Session × List Moment => decide (Onward r.2 ∧
      timeline r.2 = [.heard 0, .tested (4 * second), .timedOut (8 * second)]))
    (makeSession (intervalConfig 3) .text .stored (fun _ => ascii "20260513-00:00:00.000")
      (clockOf [0, 0, 0, 0, 4, 8]))
    [.onBytes logonBytes, .tick (4 * second), .tick (8 * second)] (by decide +kernel)
  obtain ⟨hforward, hline⟩ := of_decide_eq_true hcheck
  refine ⟨s, ps, hr, hforward, hline, fun htimely => ?_⟩
  obtain ⟨t₀, hlast, hle⟩ := htimely.tested [.heard 0] _ [.timedOut (8 * second)] hline
  obtain rfl : 0 = t₀ := Option.some.inj hlast
  rw [three_halves_le_iff] at hle
  exact absurd hle (by decide)

end Session

end Fix

end OrderbookFix
