import Mathlib.Algebra.BigOperators.Group.Finset.Basic
import OrderbookFix.Common.Run
import OrderbookFix.Net.Finality
import OrderbookFix.Net.Helpers.Atoms
/-!
# What goes out, and what is counted

`send` may take any part of what it is given. All the same, as long as it
does not fail on a connection, the bytes on the wire are the messages of
its thread, whole and in the order they were written, and a part of the
one being written. The counters count what was routed and what was
written, on all connections together, but not at the same moment: a message
is counted before it goes to the book, and one that goes out is counted
after it. In between the counters are off by the number of threads that are
there.
-/

namespace OrderbookFix

namespace Net

open OrderbookFix.Core OrderbookFix.Fix

/-- A message that went out, and where. -/
def Trace.toWire : Trace → Option (Conn × WireOut)
  | .routed _ _ => none
  | .wrote c w => some (c, w)

namespace Thread

/-- The message `write_all` is writing. -/
def writing (th : Thread) : WireOut :=
  match th.phase with
  | .answering w _ _ _ | .reporting w _ _ _ => w
  | _ => []

/-- **The wire has what was written**, and a part of what is being
written. -/
def InOrder (th : Thread) : Prop :=
  ∃ part, th.wire = th.written.flatten ++ part ∧ part ++ th.left = th.writing

/-- What is in `msgs_in_` and not at the book yet. -/
def ahead (th : Thread) : ℕ :=
  match th.phase with
  | .routing _ _ => 1
  | _ => 0

/-- What is written whole and not in `msgs_out_` yet. -/
def behind (th : Thread) : ℕ :=
  match th.phase with
  | .answered _ _ | .reported _ _ => 1
  | _ => 0

section Rounds

variable {th : Thread} {apps : List AppMessage}

/-- What going on with the round leaves alone, that no part of the next
message is out yet, and that all is counted as it should be. -/
structure GoesOn (th th' : Thread) : Prop where
  wire : th'.wire = th.wire
  written : th'.written = th.written
  left : th'.left = th'.writing
  ahead : th'.ahead = 0
  behind : th'.behind = 0

theorem goesOn_proceed (th : Thread) (apps : List AppMessage) : GoesOn th (th.proceed apps) := by
  cases apps with
  | nil => cases hd : th.disconnect <;> simp [proceed, hd] <;> exact ⟨rfl, rfl, rfl, rfl, rfl⟩
  | cons m apps => exact ⟨rfl, rfl, rfl, rfl, rfl⟩

theorem goesOn_answer (th : Thread) (apps : List AppMessage) (ws : List WireOut) :
    GoesOn th (th.answer apps ws) := by
  cases ws with
  | nil => exact th.goesOn_proceed apps
  | cons w rest => exact ⟨rfl, rfl, rfl, rfl, rfl⟩

theorem goesOn_report (th : Thread) (apps : List AppMessage) (bodies : List Body) :
    GoesOn th (th.report apps bodies) := by
  cases bodies with
  | nil => exact th.goesOn_proceed apps
  | cons body rest => exact ⟨rfl, rfl, rfl, rfl, rfl⟩

theorem GoesOn.inOrder {th' : Thread} (h : GoesOn th th') (hwire : th.wire = th.written.flatten) :
    th'.InOrder := by
  refine ⟨[], ?_, h.left⟩
  rw [h.wire, h.written, hwire, List.append_nil]

/-- Between two messages the wire has what was written. -/
theorem InOrder.whole (h : th.InOrder) (hwriting : th.writing = []) :
    th.wire = th.written.flatten := by
  obtain ⟨part, hwire, hpart⟩ := h
  obtain ⟨rfl, -⟩ := List.append_eq_nil_iff.mp (hpart.trans hwriting)
  rwa [List.append_nil] at hwire

/-- **A message is out**, once the wire has all of it. -/
theorem inOrder_wrote (hwire : th.wire = th.written.flatten ++ th.writing) :
    th.wrote.1.InOrder := by
  obtain ⟨s, phase, bye, wire, written⟩ := th
  have hflat : ∀ w, wire = written.flatten ++ w → wire = (written ++ [w]).flatten ++ [] := by
    intro w hw
    rw [hw, List.flatten_append, List.flatten_singleton, List.append_nil]
  cases phase with
  | answering w left rest apps => exact ⟨[], hflat w hwire, rfl⟩
  | reporting w left rest apps => exact ⟨[], hflat w hwire, rfl⟩
  | _ => exact ⟨[], hwire, rfl⟩

/-- What sending a part of a message leaves alone. -/
theorem leaving_spec (hleft : th.left ≠ []) (left : Bytes) :
    (th.leaving left).wire = th.wire ∧ (th.leaving left).written = th.written ∧
      (th.leaving left).writing = th.writing ∧ (th.leaving left).left = left := by
  obtain ⟨s, phase, bye, wire, written⟩ := th
  cases phase with
  | answering w left' rest apps => exact ⟨rfl, rfl, rfl, rfl⟩
  | reporting w left' rest apps => exact ⟨rfl, rfl, rfl, rfl⟩
  | _ => exact absurd rfl hleft

/-- **A round of `write_all` that does not fail.** -/
theorem InOrder.send {n : Int} (h : th.InOrder) (hn : 0 < n) : (th.send n).1.InOrder := by
  obtain ⟨part, hwire, hpart⟩ := h
  rw [Thread.send]
  split_ifs with hleft hfail hall
  · refine inOrder_wrote ?_
    rw [hwire, ← hpart, hleft, List.append_nil]
  · omega
  · refine inOrder_wrote ?_
    change th.wire ++ th.left.take n.toNat = th.written.flatten ++ th.writing
    rw [List.take_of_length_le hall, hwire, ← hpart, List.append_assoc]
  · obtain ⟨hw, hws, hwriting, hl⟩ := @leaving_spec
      { th with wire := th.wire ++ th.left.take n.toNat } hleft (th.left.drop n.toNat)
    refine ⟨part ++ th.left.take n.toNat, ?_, ?_⟩
    · rw [hw, hws, hwire, List.append_assoc]
    · rw [hl, hwriting, List.append_assoc, List.take_append_drop]
      exact hpart

theorem written_wrote (th : Thread) : th.wrote.1.written = th.written ++ th.wrote.2 := by
  obtain ⟨s, phase, bye, wire, written⟩ := th
  cases phase with
  | answering w left rest apps => rfl
  | reporting w left rest apps => rfl
  | _ => exact (List.append_nil _).symm

theorem written_lost (th : Thread) : th.lost.written = th.written := by
  obtain ⟨s, phase, bye, wire, written⟩ := th
  cases phase with
  | answering w left rest apps => exact (goesOn_proceed _ apps).written
  | reporting w left rest apps => exact (goesOn_proceed _ apps).written
  | _ => rfl

/-- What a round of `write_all` writes. -/
theorem written_send (th : Thread) (n : Int) :
    (th.send n).1.written = th.written ++ (th.send n).2 := by
  rw [send]
  split_ifs with hleft hfail hall
  · exact th.written_wrote
  · exact th.written_lost.trans (List.append_nil _).symm
  · exact written_wrote _
  · obtain ⟨-, hws, -⟩ := @leaving_spec
      { th with wire := th.wire ++ th.left.take n.toNat } hleft (th.left.drop n.toNat)
    exact hws.trans (List.append_nil _).symm

/-- **A message is out before it is counted.** -/
theorem behind_send (th : Thread) (n : Int) :
    (th.send n).1.ahead = th.ahead ∧
      (th.send n).1.behind = th.behind + (th.send n).2.length := by
  by_cases hwrites : th.Writes
  swap
  · rw [send_of_not_writes n hwrites]
    exact ⟨rfl, rfl⟩
  obtain ⟨s, phase, bye, wire, written⟩ := th
  obtain ⟨w, left, ⟨rest, apps, rfl⟩ | ⟨rest, apps, rfl⟩⟩ := hwrites
  · rw [send]
    split_ifs with hleft hn hall
    · exact ⟨rfl, rfl⟩
    · exact ⟨(goesOn_proceed _ apps).ahead, (goesOn_proceed _ apps).behind⟩
    · exact ⟨rfl, rfl⟩
    · exact ⟨rfl, rfl⟩
  · rw [send]
    split_ifs with hleft hn hall
    · exact ⟨rfl, rfl⟩
    · exact ⟨(goesOn_proceed _ apps).ahead, (goesOn_proceed _ apps).behind⟩
    · exact ⟨rfl, rfl⟩
    · exact ⟨rfl, rfl⟩

theorem check_goesOn (th : Thread) (running : Bool) :
    (th.check running).written = th.written ∧ (th.check running).ahead = th.ahead ∧
      (th.check running).behind = th.behind ∧ (th.InOrder → (th.check running).InOrder) := by
  obtain ⟨s, phase, bye, wire, written⟩ := th
  cases phase with
  | top => cases running <;> exact ⟨rfl, rfl, rfl, id⟩
  | _ => exact ⟨rfl, rfl, rfl, id⟩

/-- A thread that wakes up writes nothing yet. -/
theorem goesOn_wake {th' : Thread} {r : Wake} (h : th.wake r = .ok th') : GoesOn th th' := by
  cases r with
  | interrupted =>
    obtain rfl := Except.ok.inj h
    exact ⟨rfl, rfl, rfl, rfl, rfl⟩
  | failed =>
    obtain rfl := Except.ok.inj h
    exact ⟨rfl, rfl, rfl, rfl, rfl⟩
  | timeout now =>
    rw [wake] at h
    obtain rfl := Except.ok.inj h
    obtain ⟨hwire, hwritten, hleft, hahead, hbehind⟩ := goesOn_answer _ _ _
    exact ⟨hwire, hwritten, hleft, hahead, hbehind⟩
  | readable data now =>
    rw [wake] at h
    rcases hbytes : th.session.onBytes data with e | ⟨s, step⟩
    · rw [hbytes] at h
      cases h
    · rw [hbytes] at h
      obtain rfl := Except.ok.inj h
      obtain ⟨hwire, hwritten, hleft, hahead, hbehind⟩ := goesOn_answer _ _ _
      exact ⟨hwire, hwritten, hleft, hahead, hbehind⟩

end Rounds

end Thread

/-! ## Runs -/

/-- A number of the threads, over these connections. -/
def Process.tally (p : Process) (f : Thread → ℕ) (conns : Finset Conn) : ℕ :=
  ∑ c ∈ conns, (p.threads c).elim 0 f

/-- **What the counters and the threads have of a run**, `conns` being the
connections that have a thread. -/
structure Counted (p : Process) (trace : List Trace) (conns : Finset Conn) : Prop where
  present : ∀ c, c ∈ conns ↔ ∃ th, p.threads c = some th
  msgsIn : p.msgsIn =
    UInt64.ofNat ((trace.filterMap Trace.toBook).length + p.tally Thread.ahead conns)
  msgsOut : p.msgsOut + UInt64.ofNat (p.tally Thread.behind conns) =
    UInt64.ofNat (trace.filterMap Trace.toWire).length
  silent : ∀ c, p.threads c = none → trace.filterMap (Trace.toPeer c) = []
  written : ∀ c th, p.threads c = some th → th.written = trace.filterMap (Trace.toPeer c)

section Steps

variable {p p' q : Process} {a : Atom} {c : Conn} {th th' : Thread} {trace out : List Trace}
  {conns : Finset Conn}

/-- One thread goes on, and the others have what they had. -/
theorem tally_replace (hth : p.threads c = some th)
    (hq : q.threads = Function.update p.threads c (some th')) (hc : c ∈ conns)
    (f : Thread → ℕ) : q.tally f conns + f th = p.tally f conns + f th' := by
  have hrest : ∑ c' ∈ conns.erase c, (q.threads c').elim 0 f =
      ∑ c' ∈ conns.erase c, (p.threads c').elim 0 f := by
    refine Finset.sum_congr rfl fun c' hc' => ?_
    rw [hq, Function.update_of_ne (Finset.ne_of_mem_erase hc')]
  have hself : (q.threads c).elim 0 f = f th' := by
    rw [hq, Function.update_self]
    rfl
  have hbefore : (p.threads c).elim 0 f = f th := by
    rw [hth]
    rfl
  rw [Process.tally, Process.tally, ← Finset.sum_erase_add _ _ hc, ← Finset.sum_erase_add _ _ hc,
    hrest, hself, hbefore]
  omega

/-- A thread more, that has nothing yet. -/
theorem tally_insert (hq : q.threads = Function.update p.threads c (some th'))
    (hc : c ∉ conns) {f : Thread → ℕ} (hf : f th' = 0) :
    q.tally f (insert c conns) = p.tally f conns := by
  have hself : (q.threads c).elim 0 f = 0 := by
    rw [hq, Function.update_self]
    exact hf
  rw [Process.tally, Finset.sum_insert hc, hself, zero_add, Process.tally]
  refine Finset.sum_congr rfl fun c' hc' => ?_
  rw [hq, Function.update_of_ne fun he : c' = c => hc (he ▸ hc')]

theorem tally_congr (hq : q.threads = p.threads) (f : Thread → ℕ) :
    q.tally f conns = p.tally f conns := by
  rw [Process.tally, Process.tally, hq]

theorem filterMap_toPeer_wrote (c c' : Conn) (ws : List WireOut) :
    (ws.map (Trace.wrote c)).filterMap (Trace.toPeer c') = if c = c' then ws else [] := by
  rw [List.filterMap_map]
  split_ifs with hc
  · subst hc
    exact (List.filterMap_congr fun w _ => if_pos rfl).trans List.filterMap_some
  · exact List.filterMap_eq_nil_iff.mpr fun w _ => if_neg hc

theorem filterMap_toWire_wrote (c : Conn) (ws : List WireOut) :
    ((ws.map (Trace.wrote c)).filterMap Trace.toWire).length = ws.length := by
  induction ws with
  | nil => rfl
  | cons w ws ih => exact congrArg Nat.succ ih

theorem filterMap_toBook_wrote (c : Conn) (ws : List WireOut) :
    (ws.map (Trace.wrote c)).filterMap Trace.toBook = [] := by
  rw [List.filterMap_map]
  exact List.filterMap_eq_nil_iff.mpr fun _ _ => rfl

/-- One thread goes on. Each counter moves by what is counted, and what
the thread is ahead or behind by makes up for the rest. -/
theorem Counted.replace (h : Counted p trace conns) (hth : p.threads c = some th)
    (hq : q.threads = Function.update p.threads c (some th')) {i o : ℕ}
    (hin : q.msgsIn = p.msgsIn + UInt64.ofNat i) (hout : q.msgsOut = p.msgsOut + UInt64.ofNat o)
    (hahead : i + th.ahead = (out.filterMap Trace.toBook).length + th'.ahead)
    (hbehind : o + th'.behind = (out.filterMap Trace.toWire).length + th.behind)
    (hother : ∀ c', c' ≠ c → out.filterMap (Trace.toPeer c') = [])
    (hws : th'.written = th.written ++ out.filterMap (Trace.toPeer c)) :
    Counted q (trace ++ out) conns where
  present c' := by
    rw [h.present c', hq]
    by_cases hc : c' = c
    · subst hc
      rw [Function.update_self]
      exact ⟨fun _ => ⟨_, rfl⟩, fun _ => ⟨_, hth⟩⟩
    · rw [Function.update_of_ne hc]
  msgsIn := by
    have htally := tally_replace hth hq ((h.present c).mpr ⟨_, hth⟩) Thread.ahead
    rw [hin, h.msgsIn, List.filterMap_append, List.length_append, ← UInt64.ofNat_add]
    congr 1
    omega
  msgsOut := by
    have htally := tally_replace hth hq ((h.present c).mpr ⟨_, hth⟩) Thread.behind
    have hmoved : o + q.tally Thread.behind conns =
        p.tally Thread.behind conns + (out.filterMap Trace.toWire).length := by omega
    rw [hout, UInt64.add_assoc, ← UInt64.ofNat_add, hmoved, UInt64.ofNat_add, ← UInt64.add_assoc,
      h.msgsOut, List.filterMap_append, List.length_append, UInt64.ofNat_add]
  silent c' hnone := by
    have hne : c' ≠ c := by
      rintro rfl
      rw [hq, Function.update_self] at hnone
      cases hnone
    rw [hq, Function.update_of_ne hne] at hnone
    rw [List.filterMap_append, h.silent c' hnone, hother c' hne, List.nil_append]
  written c' th'' hth'' := by
    rw [List.filterMap_append]
    by_cases hc : c' = c
    · subst hc
      rw [hq, Function.update_self] at hth''
      rw [← Option.some.inj hth'', hws, h.written c' th hth]
    · rw [hq, Function.update_of_ne hc] at hth''
      rw [hother c' hc, List.append_nil]
      exact h.written c' th'' hth''

/-- One thread goes on without writing. -/
theorem Counted.quiet (h : Counted p trace conns) (hth : p.threads c = some th)
    (hahead : th'.ahead = th.ahead) (hbehind : th'.behind = th.behind)
    (hws : th'.written = th.written) : Counted (p.set c th') (trace ++ []) conns :=
  h.replace hth rfl (i := 0) (o := 0) (UInt64.add_zero _).symm (UInt64.add_zero _).symm
    (congrArg (0 + ·) hahead.symm) (congrArg (0 + ·) hbehind) (fun _ _ => rfl)
    (hws.trans (List.append_nil _).symm)

/-- One thread goes on with its round. It was ahead by what goes to the
book now, and behind by what is counted now. -/
theorem Counted.goesOn (h : Counted p trace conns) (hth : p.threads c = some th)
    (hgoes : th.GoesOn th') (hq : q.threads = Function.update p.threads c (some th'))
    (hin : q.msgsIn = p.msgsIn) (hout : q.msgsOut = p.msgsOut + UInt64.ofNat th.behind)
    (hahead : th.ahead = (out.filterMap Trace.toBook).length)
    (hwire : out.filterMap Trace.toWire = [])
    (hpeer : ∀ c', out.filterMap (Trace.toPeer c') = []) : Counted q (trace ++ out) conns := by
  refine h.replace hth hq (i := 0) ?_ hout ?_ ?_ (fun c' _ => hpeer c') ?_
  · rw [hin]
    exact (UInt64.add_zero _).symm
  · rw [hahead, hgoes.ahead, Nat.zero_add, Nat.add_zero]
  · rw [hwire, hgoes.behind, List.length_nil, Nat.zero_add, Nat.add_zero]
  · rw [hpeer, List.append_nil, hgoes.written]

/-- The threads and the counters are as they were. -/
theorem Counted.same (h : Counted p trace conns) (hthreads : q.threads = p.threads)
    (hin : q.msgsIn = p.msgsIn) (hout : q.msgsOut = p.msgsOut) :
    Counted q (trace ++ []) conns := by
  rw [List.append_nil]
  refine ⟨?_, ?_, ?_, ?_, ?_⟩
  · rw [hthreads]
    exact h.present
  · rw [hin, tally_congr hthreads]
    exact h.msgsIn
  · rw [hout, tally_congr hthreads]
    exact h.msgsOut
  · rw [hthreads]
    exact h.silent
  · rw [hthreads]
    exact h.written

/-- A thread more. -/
theorem Counted.spawn (h : Counted p trace conns) (hnone : p.threads c = none) {s : Session}
    (hthreads : q.threads = Function.update p.threads c (some { session := s }))
    (hin : q.msgsIn = p.msgsIn) (hout : q.msgsOut = p.msgsOut) :
    Counted q (trace ++ []) (insert c conns) := by
  have hc : c ∉ conns := by
    rw [h.present c, hnone]
    rintro ⟨th, hth⟩
    cases hth
  rw [List.append_nil]
  refine ⟨fun c' => ?_, ?_, ?_, fun c' hnone' => ?_, fun c' th hth => ?_⟩
  · rw [Finset.mem_insert, hthreads, h.present c']
    by_cases he : c' = c
    · subst he
      rw [Function.update_self]
      exact ⟨fun _ => ⟨_, rfl⟩, fun _ => .inl rfl⟩
    · rw [Function.update_of_ne he]
      exact ⟨fun hor => hor.resolve_left he, .inr⟩
  · rw [hin, tally_insert hthreads hc rfl]
    exact h.msgsIn
  · rw [hout, tally_insert hthreads hc rfl]
    exact h.msgsOut
  · have hne : c' ≠ c := by
      rintro rfl
      rw [hthreads, Function.update_self] at hnone'
      cases hnone'
    rw [hthreads, Function.update_of_ne hne] at hnone'
    exact h.silent c' hnone'
  · by_cases he : c' = c
    · subst he
      rw [hthreads, Function.update_self] at hth
      rw [← Option.some.inj hth, h.silent c' hnone]
    · rw [hthreads, Function.update_of_ne he] at hth
      exact h.written c' th hth

/-- **One atom**, counted. -/
theorem Counted.step (h : Counted p trace conns) (hstep : p.step a = .ok (p', out)) :
    ∃ conns', Counted p' (trace ++ out) conns' := by
  cases Process.step_steps hstep with
  | stay a => exact ⟨conns, h.same rfl rfl rfl⟩
  | start howner hacceptor => exact ⟨conns, h.same rfl rfl rfl⟩
  | stop =>
    obtain ⟨-, -, hthreads, hin, hout⟩ := p.stop_keeps
    exact ⟨conns, h.same hthreads hin hout⟩
  | accept r =>
    obtain ⟨-, -, -, -, hin, hout⟩ := p.accept_keeps r
    rcases p.accept_threads r with ⟨hthreads, -⟩ | ⟨c, order, now, clock, -, -, hnone, -, -, hthreads⟩
    · exact ⟨conns, h.same hthreads hin hout⟩
    · exact ⟨insert c conns, h.spawn hnone hthreads hin hout⟩
  | @check c th hth =>
    obtain ⟨hwritten, hahead, hbehind, -⟩ := th.check_goesOn p.running
    exact ⟨conns, h.quiet hth hahead hbehind hwritten⟩
  | @wake c r th th' hth hphase hr hwake =>
    refine ⟨conns, h.goesOn hth (Thread.goesOn_wake hwake) rfl rfl ?_ ?_ rfl fun _ => rfl⟩
    · rw [Thread.behind, hphase]
      exact (UInt64.add_zero _).symm
    · rw [Thread.ahead, hphase]
      rfl
  | @send c n th hth =>
    obtain ⟨hahead, hbehind⟩ := th.behind_send n
    refine ⟨conns, h.replace hth rfl (i := 0) (o := 0) (UInt64.add_zero _).symm
      (UInt64.add_zero _).symm ?_ ?_ (fun c' hc => ?_) ?_⟩
    · rw [filterMap_toBook_wrote, hahead]
      rfl
    · rw [filterMap_toWire_wrote, hbehind]
      omega
    · rw [filterMap_toPeer_wrote, if_neg (Ne.symm hc)]
    · rw [filterMap_toPeer_wrote, if_pos rfl]
      exact th.written_send n
  | @enter c th m apps hth hphase =>
    refine ⟨conns, h.replace hth rfl (i := 1) (o := 0) rfl (UInt64.add_zero _).symm ?_ ?_
      (fun _ _ => rfl) (List.append_nil _).symm⟩
    · rw [Thread.ahead, hphase]
      rfl
    · rw [Thread.behind.eq_def th, hphase]
      rfl
  | @answered c th rest apps hth hphase =>
    refine ⟨conns, h.goesOn hth (th.goesOn_answer apps rest) rfl rfl ?_ ?_ rfl fun _ => rfl⟩
    · rw [Thread.behind, hphase]
      rfl
    · rw [Thread.ahead, hphase]
      rfl
  | @reported c th rest apps hth hphase =>
    refine ⟨conns, h.goesOn hth (th.goesOn_report apps rest) rfl rfl ?_ ?_ rfl fun _ => rfl⟩
    · rw [Thread.behind, hphase]
      rfl
    · rw [Thread.ahead, hphase]
      rfl
  | @route c th m apps srv evs hth hphase hroute =>
    refine ⟨conns, h.goesOn hth (th.goesOn_report apps (evs.filterMap report)) rfl rfl ?_ ?_ rfl
      fun _ => rfl⟩
    · rw [Thread.behind, hphase]
      exact (UInt64.add_zero _).symm
    · rw [Thread.ahead, hphase]
      rfl

/-- **One atom**, on the wire of a connection. -/
theorem inOrder_step (hstep : p.step a = .ok (p', out)) (hintact : ∀ n, a = .send c n → 0 < n)
    (h : ∀ c' th, p.threads c' = some th → c' = c → th.InOrder) :
    ∀ c' th, p'.threads c' = some th → c' = c → th.InOrder := by
  cases Process.step_steps hstep with
  | stay a => exact h
  | start howner hacceptor => exact h
  | stop =>
    rw [p.stop_keeps.2.2.1]
    exact h
  | accept r =>
    rcases p.accept_threads r with ⟨hthreads, -⟩ | ⟨c', order, now, clock, -, -, -, -, -, hthreads⟩
    · rw [hthreads]
      exact h
    · rw [hthreads]
      exact Process.threads_set h fun _ => ⟨[], rfl, rfl⟩
  | check hth =>
    exact Process.threads_set h fun hc => (Thread.check_goesOn _ _).2.2.2 (h _ _ hth hc)
  | @wake c' r th th' hth hphase hr hwake =>
    refine Process.threads_set h fun hc => (Thread.goesOn_wake hwake).inOrder ?_
    exact (h c' th hth hc).whole (by rw [Thread.writing, hphase])
  | @send c' n th hth =>
    refine Process.threads_set h fun hc => (h c' th hth hc).send ?_
    subst hc
    exact hintact n rfl
  | @enter c' th m apps hth hphase =>
    refine Process.threads_set h fun hc => ⟨[], ?_, rfl⟩
    rw [List.append_nil]
    exact (h c' th hth hc).whole (by rw [Thread.writing, hphase])
  | @answered c' th rest apps hth hphase =>
    refine Process.threads_set h fun hc => (th.goesOn_answer apps rest).inOrder ?_
    exact (h c' th hth hc).whole (by rw [Thread.writing, hphase])
  | @reported c' th rest apps hth hphase =>
    refine Process.threads_set h fun hc => (th.goesOn_report apps rest).inOrder ?_
    exact (h c' th hth hc).whole (by rw [Thread.writing, hphase])
  | @route c' th m apps srv evs hth hphase hroute =>
    refine Process.threads_set h fun hc => (th.goesOn_report apps _).inOrder ?_
    exact (h c' th hth hc).whole (by rw [Thread.writing, hphase])

/-- Where no thread is between a message and its count, the counters are
exact. -/
theorem Counted.exact (h : Counted p trace conns)
    (hrest : ∀ c th, p.threads c = some th → th.ahead = 0 ∧ th.behind = 0) :
    p.msgsIn = UInt64.ofNat (trace.filterMap Trace.toBook).length ∧
      p.msgsOut = UInt64.ofNat (trace.filterMap Trace.toWire).length := by
  have hzero : ∀ f : Thread → ℕ, (∀ c th, p.threads c = some th → f th = 0) →
      p.tally f conns = 0 := by
    intro f hf
    refine Finset.sum_eq_zero fun c hc => ?_
    obtain ⟨th, hth⟩ := (h.present c).mp hc
    rw [hth]
    exact hf c th hth
  have hin := h.msgsIn
  have hout := h.msgsOut
  rw [hzero _ fun c th hth => (hrest c th hth).1, Nat.add_zero] at hin
  rw [hzero _ fun c th hth => (hrest c th hth).2] at hout
  exact ⟨hin, (UInt64.add_zero _).symm.trans hout⟩

end Steps

/-- As long as no `send` fails, the wire has the messages in order. -/
theorem run_inOrder {cfg : ServerConfig} {atoms : List Atom} {p : Process} {trace : List Trace}
    (h : run Process.step (Process.new cfg) atoms = .ok (p, trace)) {c : Conn} {th : Thread}
    (hth : p.threads c = some th) (hintact : Intact c atoms) : th.InOrder := by
  refine run_inv_returns (P := fun _ => True)
    (J := fun past _ p => Intact c past → ∀ c' th, p.threads c' = some th → c' = c → th.InOrder)
    ?_ (fun _ _ _ hth => by cases hth) (fun _ _ => trivial) h hintact c th hth rfl
  intro past _ p a p' out horder _ hstep hall
  exact inOrder_step hstep (fun n hn => hall n (by simp [hn]))
    (horder fun n hn => hall n (List.mem_append_left _ hn))

/-- **Nothing is lost on the way out, and nothing is counted twice.**
`msgs_in_` has what was routed on all connections and what is about to be,
`msgs_out_` what was written but for what was only just, so that both are
exact where no thread is in between. A thread has written what went out on
its own connection, and as long as no `send` fails there the bytes on the
wire are these messages in order, and a part of the next. -/
theorem run_accounted (cfg : ServerConfig) (atoms : List Atom) (p : Process) (trace : List Trace)
    (h : run Process.step (Process.new cfg) atoms = .ok (p, trace)) :
    (∃ conns, Counted p trace conns) ∧
      ((∀ c th, p.threads c = some th → th.ahead = 0 ∧ th.behind = 0) →
        p.msgsIn = UInt64.ofNat (trace.filterMap Trace.toBook).length ∧
          p.msgsOut = UInt64.ofNat (trace.filterMap Trace.toWire).length) ∧
      ∀ c th, p.threads c = some th → Intact c atoms → th.InOrder := by
  have hcounted : ∃ conns, Counted p trace conns := by
    refine run_inv_returns (P := fun _ => True)
      (J := fun _ trace p => ∃ conns, Counted p trace conns) ?_ ⟨∅, ?_⟩ (fun _ _ => trivial) h
    · rintro _ _ p a p' out ⟨conns, hcounted⟩ - hstep
      exact hcounted.step hstep
    · refine ⟨fun c => ⟨fun hc => absurd hc (Finset.notMem_empty c), ?_⟩, rfl, rfl, fun _ _ => rfl,
        fun _ _ hth => by cases hth⟩
      rintro ⟨th, hth⟩
      cases hth
  obtain ⟨conns, hconns⟩ := hcounted
  exact ⟨⟨conns, hconns⟩, hconns.exact, fun c th hth hintact => run_inOrder h hth hintact⟩

/-- The Logon of a client. -/
def logsOn : Bytes := visit.headD []

/-- Its order. -/
def buys : Bytes := visit.getD 1 []

/-- A client connects. -/
def arrives (c : Conn) : List Atom :=
  [.accept none, .accept none,
    .accept (some (c, .stored, fun _ => ascii "20260513-00:00:00.000", fun _ => 0)), .accept none]

/-- Two clients log on and trade, and their threads take turns: the sell
is matched while a part of the report of the buy is out. -/
def turns : List Atom :=
  [.start true] ++ arrives 1 ++ arrives 2 ++
    [.check 1, .wake 1 (.readable logsOn 0), .check 2, .wake 2 (.readable logsOn 0),
      .send 1 7, .send 2 1000, .send 1 1000, .count 2, .count 1, .check 1,
      .wake 1 (.readable buys 0), .check 2,
      .wake 2 (.readable (clientBytes MsgType.newOrderSingle "2" [(Tag.clOrdID, ascii "B"),
        (Tag.side, ascii "2"), (Tag.price, ascii "100"), (Tag.orderQty, ascii "5")]) 0),
      .count 2, .count 1, .route 1, .send 1 3, .route 2, .send 2 1000, .count 2, .send 1 1000,
      .send 2 4]

/-- The report of the buy is out, and not counted yet. -/
theorem run_accounted_turns :
    ∃ p trace, run Process.step (Process.new {}) turns = .ok (p, trace) ∧ p.msgsIn = 2 ∧
      p.msgsOut = 3 ∧ (trace.filterMap Trace.toWire).length = 4 ∧
      (p.threads 2).map (fun th => th.written.length) = some 2 ∧
      (∃ conns, Counted p trace conns) ∧
      ((∀ c th, p.threads c = some th → th.ahead = 0 ∧ th.behind = 0) →
        p.msgsIn = UInt64.ofNat (trace.filterMap Trace.toBook).length ∧
          p.msgsOut = UInt64.ofNat (trace.filterMap Trace.toWire).length) ∧
      ∀ c th, p.threads c = some th → Intact c turns → th.InOrder := by
  obtain ⟨p, trace, hr, hend⟩ := @exists_of_run_check _ _ _ _ Process.step
    (fun r : Process × List Trace => decide (r.1.msgsIn = 2 ∧ r.1.msgsOut = 3 ∧
      (r.2.filterMap Trace.toWire).length = 4 ∧
      (r.1.threads 2).map (fun th => th.written.length) = some 2)) (Process.new {}) turns
    (by decide +kernel)
  obtain ⟨hin, hout, hwire, hwritten⟩ := of_decide_eq_true hend
  exact ⟨p, trace, hr, hin, hout, hwire, hwritten, run_accounted {} turns p trace hr⟩

end Net

end OrderbookFix
