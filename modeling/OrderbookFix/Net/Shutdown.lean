import Mathlib.Algebra.Order.BigOperators.Group.List
import Mathlib.Algebra.Order.Monoid.Prod
import OrderbookFix.Common.Fair
import OrderbookFix.Net.Wire
/-!
# Stopping

`stop` takes `running_` and the listening socket away, waits for the
acceptor and then for every thread. When it returns no thread is left, so
nothing goes to the book and nothing to a peer until the next `start`. And
it does return, if the system answers every call and the process lives: the
acceptor can add one thread at most once `running_` is false, a thread
finishes the round it is in and no other, and the lock on the threads is
taken after the only other thread that takes it has ended. But a `send` need
not answer as long as the peer does not read, a `send` to a peer that is
gone raises a signal, and an order of the round that is left to finish may
raise an exception; then the process ends in the middle of `stop`.
-/

namespace OrderbookFix

namespace Net

open OrderbookFix.Core OrderbookFix.Fix

namespace Process

/-- The threads still to be joined. -/
def unjoined (p : Process) : List Conn :=
  match p.owner with
  | .joining rest => rest
  | _ => p.sessions

/-- **A thread that runs is one that will be joined.** -/
structure Supervised (p : Process) : Prop where
  known : ∀ c th, p.threads c = some th → th.phase = .closed ∨ c ∈ p.unjoined
  spawned : ∀ c ∈ p.unjoined, ∃ th, p.threads c = some th
  quiet : p.owner = .idle → p.running = false → p.acceptor = .none ∧ p.sessions = []
  stopping : p.owner ≠ .idle → p.running = false
  alone : p.locked = true → p.acceptor = .none

theorem supervised_new (cfg : ServerConfig) : (Process.new cfg).Supervised where
  known _ _ hth := by cases hth
  spawned _ hc := by cases hc
  quiet _ _ := ⟨rfl, rfl⟩
  stopping h := absurd rfl h
  alone h := by cases h

section Step

variable {p p' : Process} {a : Atom} {out : List Trace} {c : Conn} {th th' : Thread}

/-- An ended thread takes no step, so one that takes a step is still to be
joined. -/
theorem Supervised.set (h : p.Supervised) (hth : p.threads c = some th)
    (hended : th.phase = .closed → th'.phase = .closed) : (p.set c th').Supervised where
  known := by
    refine threads_set h.known ?_
    rcases h.known c th hth with hclosed | hmem
    · exact .inl (hended hclosed)
    · exact .inr hmem
  spawned c' hc' := by
    by_cases hc : c' = c
    · exact ⟨th', by subst hc; exact Function.update_self ..⟩
    · obtain ⟨th₀, hth₀⟩ := h.spawned c' hc'
      exact ⟨th₀, (Function.update_of_ne hc ..).trans hth₀⟩
  quiet := h.quiet
  stopping := h.stopping
  alone := h.alone

theorem check_closed (running : Bool) (h : th.phase = .closed) : th.check running = th := by
  rw [Thread.check, h]

theorem send_closed (n : Int) (h : th.phase = .closed) : th.send n = (th, []) := by
  rw [Thread.send, Thread.left, Thread.wrote, h]
  rfl

theorem done_iff : p.done c = true ↔ ∃ th, p.threads c = some th ∧ th.phase = .closed := by
  rw [done]
  rcases hth : p.threads c with _ | th
  · simp
  · cases hphase : th.phase <;> simp [hphase]

/-- **The owner's step.** -/
theorem Supervised.stop (h : p.Supervised) : p.stop.Supervised := by
  obtain ⟨cfg, server, threads, sessions, running, listening, acceptor, owner, msgsIn, msgsOut⟩ := p
  cases owner with
  | idle =>
    cases running with
    | true => exact ⟨h.known, h.spawned, fun he => (by cases he), fun _ => rfl, fun he => by cases he⟩
    | false => exact h
  | closing =>
    have hoff : running = false := h.stopping fun he => by cases he
    exact ⟨h.known, h.spawned, fun he => (by cases he), fun _ => hoff, fun he => by cases he⟩
  | waiting =>
    have hoff : running = false := h.stopping fun he => by cases he
    cases acceptor with
    | none => exact ⟨h.known, h.spawned, fun he => (by cases he), fun _ => hoff, fun _ => rfl⟩
    | ended => exact ⟨h.known, h.spawned, fun he => (by cases he), fun _ => hoff, fun _ => rfl⟩
    | _ => exact h
  | joining rest =>
    cases rest with
    | nil =>
      exact ⟨h.known, h.spawned, fun _ _ => ⟨h.alone rfl, rfl⟩, fun he => absurd rfl he,
        fun he => by cases he⟩
    | cons c rest =>
      rw [Process.stop]
      dsimp only
      split_ifs with hdone
      · obtain ⟨th, hth, hclosed⟩ := done_iff.mp hdone
        have hoff : running = false := h.stopping fun he => by cases he
        refine ⟨fun c' th' hth' => ?_, fun c' hc' => h.spawned c' (List.mem_cons_of_mem _ hc'),
          fun he => (by cases he), fun _ => hoff, fun _ => h.alone rfl⟩
        rcases h.known c' th' hth' with hclosed' | hmem
        · exact .inl hclosed'
        · rcases List.mem_cons.mp hmem with rfl | hmem
          · obtain rfl := Option.some.inj (hth.symm.trans hth')
            exact .inl hclosed
          · exact .inr hmem
      · exact h

/-- **The acceptor's step.** It adds a thread while there is nobody who
joins them. -/
theorem Supervised.accept (h : p.Supervised) (r : Accepted) : (p.accept r).Supervised := by
  obtain ⟨-, -, hrunning, howner, -⟩ := p.accept_keeps r
  have hacceptor : p.acceptor = .none → p.accept r = p := by
    intro hnone
    rw [accept.eq_def, hnone]
  by_cases hnone : p.acceptor = .none
  · rw [hacceptor hnone]
    exact h
  have hidle : p.owner = .idle → p.running ≠ false := fun hi hr => hnone (h.quiet hi hr).1
  have hunlocked : p.locked ≠ true := fun hl => hnone (h.alone hl)
  have hlocked : (p.accept r).locked = p.locked := by rw [locked, howner, locked]
  have hrest : (∀ c th, (p.accept r).threads c = some th →
        th.phase = .closed ∨ c ∈ (p.accept r).unjoined) →
      (∀ c ∈ (p.accept r).unjoined, ∃ th, (p.accept r).threads c = some th) →
      (p.accept r).Supervised := fun hknown hspawned =>
    ⟨hknown, hspawned, fun hi hr => absurd (hrunning ▸ hr) (hidle (howner ▸ hi)),
      fun hi => hrunning.trans (h.stopping (howner ▸ hi)),
      fun hl => absurd (hlocked ▸ hl) hunlocked⟩
  have hunjoined : ∀ {q : Process}, q.locked ≠ true → q.unjoined = q.sessions := by
    intro q hq
    rw [unjoined]
    split
    · rename_i rest hjoining
      rw [locked, hjoining] at hq
      exact absurd rfl hq
    · rfl
  have hlist := hunjoined hunlocked
  have hlist' := hunjoined (hlocked ▸ hunlocked)
  rcases p.accept_threads r with ⟨hthreads, hsessions⟩ |
    ⟨c, order, now, clock, -, -, -, -, hsessions, hthreads⟩
  · apply hrest
    · rw [hthreads, hlist', hsessions, ← hlist]
      exact h.known
    · rw [hthreads, hlist', hsessions, ← hlist]
      exact h.spawned
  · apply hrest
    · rw [hthreads, hlist', hsessions, ← hlist]
      refine threads_set (p := p) (P := fun c' th => th.phase = .closed ∨ c' ∈ p.unjoined ++ [c])
        (fun c' th hth => (h.known c' th hth).imp_right (List.mem_append_left _)) ?_
      exact .inr (List.mem_append_right _ (List.mem_singleton_self c))
    · rw [hthreads, hlist', hsessions, ← hlist]
      intro c' hc'
      by_cases hc : c' = c
      · subst hc
        exact ⟨_, Function.update_self ..⟩
      · have hmem : c' ∈ p.unjoined := by simpa [hc] using hc'
        obtain ⟨th, hth⟩ := h.spawned c' hmem
        exact ⟨th, (Function.update_of_ne hc ..).trans hth⟩

/-- **One atom** keeps the threads supervised. -/
theorem Supervised.step (h : p.Supervised) (hstep : p.step a = .ok (p', out)) :
    p'.Supervised := by
  cases step_steps hstep with
  | stay a => exact h
  | start howner hacceptor =>
    obtain ⟨cfg, server, threads, sessions, running, listening, acceptor, owner, msgsIn, msgsOut⟩ :=
      p
    obtain rfl : owner = .idle := howner
    exact ⟨h.known, h.spawned, fun _ hr => (by cases hr), fun hi => absurd rfl hi,
      fun hl => by cases hl⟩
  | stop => exact h.stop
  | accept r => exact h.accept r
  | check hth => exact h.set hth fun hclosed => by rw [check_closed _ hclosed, hclosed]
  | wake hth hphase hr hwake => exact h.set hth fun hclosed => by cases hphase.symm.trans hclosed
  | send hth => exact h.set hth fun hclosed => by rw [send_closed _ hclosed, hclosed]
  | @enter c th m apps hth hphase =>
    have hset : (p.set c { th with phase := .routing m apps }).Supervised :=
      h.set hth fun hclosed => by cases hphase.symm.trans hclosed
    exact ⟨hset.known, hset.spawned, hset.quiet, hset.stopping, hset.alone⟩
  | @answered c th rest apps hth hphase =>
    have hset : (p.set c (th.answer apps rest)).Supervised :=
      h.set hth fun hclosed => by cases hphase.symm.trans hclosed
    exact ⟨hset.known, hset.spawned, hset.quiet, hset.stopping, hset.alone⟩
  | @reported c th rest apps hth hphase =>
    have hset : (p.set c (th.report apps rest)).Supervised :=
      h.set hth fun hclosed => by cases hphase.symm.trans hclosed
    exact ⟨hset.known, hset.spawned, hset.quiet, hset.stopping, hset.alone⟩
  | @route c th m apps srv evs hth hphase hroute =>
    have hset : (p.set c (th.report apps (evs.filterMap Net.report))).Supervised :=
      h.set hth fun hclosed => by cases hphase.symm.trans hclosed
    exact ⟨hset.known, hset.spawned, hset.quiet, hset.stopping, hset.alone⟩

/-- Nobody is left to be joined once `stop` has returned. -/
theorem Supervised.closed (h : p.Supervised) (howner : p.owner = .idle)
    (hrunning : p.running = false) : ∀ c th, p.threads c = some th → th.phase = .closed := by
  intro c th hth
  refine (h.known c th hth).resolve_right ?_
  rw [unjoined, howner, (h.quiet howner hrunning).2]
  exact List.not_mem_nil

theorem set_self (hth : p.threads c = some th) : p.set c th = p := by
  rw [set, ← hth, Function.update_eq_self]

/-- **A stopped process stays as it is.** -/
theorem Supervised.stopped (h : p.Supervised) (howner : p.owner = .idle)
    (hrunning : p.running = false) (ha : a ≠ .start true) : p.step a = .ok (p, []) := by
  have hacceptor := (h.quiet howner hrunning).1
  have hclosed := h.closed howner hrunning
  cases a with
  | start ok =>
    cases ok with
    | true => exact absurd rfl ha
    | false =>
      rw [Process.step, start.eq_def, howner]
      rfl
  | stop =>
    rw [Process.step, Process.stop, howner, hrunning]
    rfl
  | accept r => rw [Process.step, accept.eq_def, hacceptor]
  | check c =>
    rw [Process.step]
    rcases hth : p.threads c with _ | th
    · rfl
    · dsimp only
      rw [check_closed _ (hclosed c th hth), set_self hth]
  | wake c r =>
    rw [Process.step]
    rcases hth : p.threads c with _ | th
    · rfl
    · dsimp only
      rw [wake, hclosed c th hth]
  | send c n =>
    rw [Process.step]
    rcases hth : p.threads c with _ | th
    · rfl
    · dsimp only
      rw [send_closed n (hclosed c th hth)]
      dsimp only
      rw [set_self hth]
      rfl
  | sigpipe c =>
    rw [Process.step]
    rcases hth : p.threads c with _ | th
    · rfl
    · exact if_pos (by rw [Thread.left, hclosed c th hth])
  | count c =>
    rw [Process.step]
    rcases hth : p.threads c with _ | th
    · rfl
    · dsimp only
      rw [count, hclosed c th hth]
  | route c =>
    rw [Process.step]
    rcases hth : p.threads c with _ | th
    · rfl
    · dsimp only
      rw [route, hclosed c th hth]

end Step

end Process

theorem run_supervised {cfg : ServerConfig} {atoms : List Atom} {p : Process} {trace : List Trace}
    (h : run Process.step (Process.new cfg) atoms = .ok (p, trace)) : p.Supervised :=
  run_preserves (J := Process.Supervised) (fun _ _ _ _ hp hstep => hp.step hstep)
    (Process.supervised_new cfg) h

/-- **When `stop` has returned nothing of the server runs.** The acceptor
is gone and every thread has ended, and until the next `start` whatever
happens leaves the process as it is: nothing goes to the book, no byte to
a peer. -/
theorem run_stopped (cfg : ServerConfig) (before after : List Atom) (p : Process)
    (trace : List Trace) (h : run Process.step (Process.new cfg) before = .ok (p, trace))
    (howner : p.owner = .idle) (hrunning : p.running = false)
    (hafter : ∀ a ∈ after, a ≠ .start true) :
    p.acceptor = .none ∧ (∀ c th, p.threads c = some th → th.phase = .closed) ∧
      run Process.step p after = .ok (p, []) := by
  have hp := run_supervised h
  refine ⟨(hp.quiet howner hrunning).1, hp.closed howner hrunning, ?_⟩
  induction after with
  | nil => rfl
  | cons a after ih =>
    rw [run_cons_of_ok (hp.stopped howner hrunning (hafter a List.mem_cons_self)),
      ih fun b hb => hafter b (List.mem_cons_of_mem _ hb)]
    rfl

/-- A client logs on, and the server is stopped while the answer goes
out. -/
def closing : List Atom :=
  [.start true] ++ arrives 1 ++ [.check 1, .wake 1 (.readable logsOn 0), .stop, .send 1 20,
    .stop, .stop, .accept none, .stop, .send 1 1000, .count 1, .check 1, .stop, .stop]

/-- An order that comes in now is not taken. -/
theorem run_stopped_closing :
    ∃ p trace, run Process.step (Process.new {}) closing = .ok (p, trace) ∧
      (p.threads 1).map (fun th => th.written.length) = some 1 ∧ p.acceptor = .none ∧
      (∀ c th, p.threads c = some th → th.phase = .closed) ∧
      run Process.step p [.check 1, .wake 1 (.readable buys 0), .route 1, .accept none] =
        .ok (p, []) := by
  obtain ⟨p, trace, hr, hend⟩ := @exists_of_run_check _ _ _ _ Process.step
    (fun r : Process × List Trace => decide (r.1.owner = .idle ∧ r.1.running = false ∧
      (r.1.threads 1).map (fun th => th.written.length) = some 1)) (Process.new {}) closing
    (by decide +kernel)
  obtain ⟨howner, hrunning, hwritten⟩ := of_decide_eq_true hend
  exact ⟨p, trace, hr, hwritten, run_stopped {} closing _ p trace hr howner hrunning
    (by simp)⟩

/-! ## It returns -/

/-- What a process still has to do, the gravest first: buffers it may read,
messages it may route, messages it may write, and steps besides. -/
abbrev Rank := ℕ ×ₗ ℕ ×ₗ ℕ ×ₗ ℕ

/-- A rank from its parts. -/
def rankOf (reads routes writes steps : ℕ) : Rank :=
  toLex (reads, toLex (routes, toLex (writes, steps)))

theorem rankOf_lt {a b c d a' b' c' d' : ℕ} : rankOf a b c d < rankOf a' b' c' d' ↔
    a < a' ∨ a = a' ∧ (b < b' ∨ b = b' ∧ (c < c' ∨ c = c' ∧ d < d')) := by
  simp only [rankOf, Prod.Lex.toLex_lt_toLex]

def Phase.rank : Phase → Rank
  | .closed => rankOf 0 0 0 0
  | .top => rankOf 0 0 0 1
  | .polling => rankOf 1 0 0 0
  | .answering _ left rest apps => rankOf 0 apps.length (rest.length + 1) (left.length + 1)
  | .answered rest apps => rankOf 0 apps.length (rest.length + 1) 0
  | .entering _ apps => rankOf 0 (apps.length + 1) 0 1
  | .routing _ apps => rankOf 0 (apps.length + 1) 0 0
  | .reporting _ left rest apps => rankOf 0 apps.length (rest.length + 1) (left.length + 1)
  | .reported rest apps => rankOf 0 apps.length (rest.length + 1) 0

namespace Thread

variable {th : Thread} {apps : List AppMessage}

theorem rank_proceed (th : Thread) (apps : List AppMessage) :
    (th.proceed apps).phase.rank < rankOf 0 apps.length 1 0 := by
  cases apps with
  | nil => cases hd : th.disconnect <;> simp [proceed, hd, Phase.rank, rankOf_lt]
  | cons m apps => simp [proceed, Phase.rank, rankOf_lt]

theorem rank_answer (th : Thread) (apps : List AppMessage) (ws : List WireOut) :
    (th.answer apps ws).phase.rank < rankOf 0 apps.length (ws.length + 1) 0 := by
  cases ws with
  | nil => exact th.rank_proceed apps
  | cons w rest => simp [answer, Phase.rank, rankOf_lt]

theorem rank_report (th : Thread) (apps : List AppMessage) (bodies : List Body) :
    (th.report apps bodies).phase.rank < rankOf 0 apps.length (bodies.length + 1) 0 := by
  cases bodies with
  | nil => exact th.rank_proceed apps
  | cons body rest => simp [report, Phase.rank, rankOf_lt]

/-- A thread that is told to stop at the head of its loop is done. -/
theorem rank_check (th : Thread) :
    th.check false = th ∨ (th.check false).phase.rank < th.phase.rank := by
  obtain ⟨s, phase, bye, wire, written⟩ := th
  cases phase with
  | top => exact .inr (by simp [check, Phase.rank, rankOf_lt])
  | _ => exact .inl rfl

/-- A thread that is past it reads one buffer at most. -/
theorem rank_wake {th' : Thread} {r : Wake} (hphase : th.phase = .polling)
    (h : th.wake r = .ok th') : th'.phase.rank < th.phase.rank := by
  have hlow : ∀ {b c d : ℕ}, rankOf 0 b c d < th.phase.rank := by
    intro b c d
    rw [hphase]
    exact rankOf_lt.mpr (.inl Nat.one_pos)
  cases r with
  | interrupted =>
    obtain rfl := Except.ok.inj h
    exact hlow
  | failed =>
    obtain rfl := Except.ok.inj h
    exact hlow
  | timeout now =>
    rw [wake] at h
    obtain rfl := Except.ok.inj h
    exact (rank_answer _ _ _).trans hlow
  | readable data now =>
    rw [wake] at h
    rcases hbytes : th.session.onBytes data with e | ⟨s, step⟩
    · rw [hbytes] at h
      cases h
    · rw [hbytes] at h
      obtain rfl := Except.ok.inj h
      exact (rank_answer _ _ _).trans hlow

/-- **A call of `send`** brings the message on, or gives it up. -/
theorem rank_send (n : Int) (h : th.Writes) : (th.send n).1.phase.rank < th.phase.rank := by
  obtain ⟨s, phase, bye, wire, written⟩ := th
  have hlow : ∀ {b c d : ℕ}, rankOf 0 b c 0 < rankOf 0 b c (d + 1) := fun {b c d} =>
    rankOf_lt.mpr (.inr ⟨rfl, .inr ⟨rfl, .inr ⟨rfl, Nat.succ_pos d⟩⟩⟩)
  have hless : ∀ {b c d : ℕ}, rankOf 0 b 1 0 < rankOf 0 b (c + 1) (d + 1) := by
    intro b c d
    rcases Nat.eq_zero_or_pos c with rfl | hc
    · exact hlow
    · exact rankOf_lt.mpr (.inr ⟨rfl, .inr ⟨rfl, .inl (by omega)⟩⟩)
  have hpart : ∀ {left : Bytes} {b c : ℕ}, left ≠ [] → ¬ n ≤ 0 →
      rankOf 0 b c ((left.drop n.toNat).length + 1) < rankOf 0 b c (left.length + 1) := by
    intro left b c hleft hn
    have hpos : 0 < left.length := List.length_pos_of_ne_nil hleft
    refine rankOf_lt.mpr (.inr ⟨rfl, .inr ⟨rfl, .inr ⟨rfl, ?_⟩⟩⟩)
    rw [List.length_drop]
    omega
  obtain ⟨w, left, ⟨rest, apps, rfl⟩ | ⟨rest, apps, rfl⟩⟩ := h
  · rw [send]
    split_ifs with hleft hn hall
    · exact hlow
    · exact (rank_proceed _ _).trans hless
    · exact hlow
    · exact hpart hleft hn
  · rw [send]
    split_ifs with hleft hn hall
    · exact hlow
    · exact (rank_proceed _ _).trans hless
    · exact hlow
    · exact hpart hleft hn

/-- A message counted as it comes in is about to be routed. -/
theorem rank_enter {m : AppMessage} (hphase : th.phase = .entering m apps) :
    (Phase.routing m apps).rank < th.phase.rank := by
  rw [hphase]
  exact rankOf_lt.mpr (.inr ⟨rfl, .inr ⟨rfl, .inr ⟨rfl, Nat.one_pos⟩⟩⟩)

/-- The book's turn is the last of a message to come. -/
theorem rank_route {m : AppMessage} (hphase : th.phase = .routing m apps) (bodies : List Body) :
    (th.report apps bodies).phase.rank < th.phase.rank := by
  refine (th.rank_report apps bodies).trans ?_
  rw [hphase]
  exact rankOf_lt.mpr (.inr ⟨rfl, .inl (Nat.lt_succ_self _)⟩)

end Thread

/-- What the acceptor still has to do. -/
def Acceptor.rank : Acceptor → Rank
  | .none | .ended => rankOf 0 0 0 0
  | .looping => rankOf 1 0 0 0
  | .spawning _ _ _ _ => rankOf 2 0 0 0
  | .accepting => rankOf 3 0 0 0
  | .loading => rankOf 4 0 0 0

namespace Process

variable {p p' : Process} {a : Atom} {out : List Trace} {c : Conn} {th th' : Thread}

/-- What a thread still has to do. -/
def threadRank (p : Process) (c : Conn) : Rank := (p.threads c).elim 0 fun th => th.phase.rank

/-- What the owner still has to do. -/
def ownerSteps (p : Process) : ℕ :=
  match p.owner with
  | .idle => 0
  | .closing => p.sessions.length + 3
  | .waiting => p.sessions.length + 2
  | .joining rest => rest.length + 1

/-- **What a process that is being stopped still has to do.** -/
def rank (p : Process) : Rank :=
  p.acceptor.rank + (p.unjoined.map p.threadRank).sum + rankOf 0 0 0 p.ownerSteps

theorem rankOf_steps_lt {m n : ℕ} (h : m < n) : rankOf 0 0 0 m < rankOf 0 0 0 n :=
  rankOf_lt.mpr (.inr ⟨rfl, .inr ⟨rfl, .inr ⟨rfl, h⟩⟩⟩)

theorem threadRank_of_some (hth : p.threads c = some th) : p.threadRank c = th.phase.rank := by
  rw [threadRank, hth]
  rfl

/-- The threads still to be joined when none is locked out. -/
theorem unjoined_of_unlocked (h : p.locked = false) : p.unjoined = p.sessions := by
  rw [unjoined]
  split
  · rename_i rest hjoining
    rw [locked, hjoining] at h
    cases h
  · rfl

/-- **A thread's step** lowers the rank where it lowers the thread's. -/
theorem rank_set (h : p.Supervised) (hth : p.threads c = some th)
    (hlt : th'.phase.rank < th.phase.rank) : (p.set c th').rank < p.rank := by
  have hmem : c ∈ p.unjoined := by
    refine (h.known c th hth).resolve_left fun hclosed => ?_
    rw [hclosed] at hlt
    exact absurd hlt (by simp [Phase.rank, rankOf, Prod.Lex.lt_iff])
  have hset : (p.set c th').threads c = some th' := Function.update_self ..
  have hself : (p.set c th').threadRank c < p.threadRank c := by
    rwa [threadRank_of_some hset, threadRank_of_some hth]
  have hsum : (p.unjoined.map (p.set c th').threadRank).sum < (p.unjoined.map p.threadRank).sum := by
    refine List.sum_lt_sum _ _ (fun c' _ => ?_) ⟨c, hmem, hself⟩
    by_cases hc : c' = c
    · exact hc ▸ hself.le
    · have hother : (p.set c th').threads c' = p.threads c' := Function.update_of_ne hc ..
      exact le_of_eq (by rw [threadRank, threadRank, hother])
  exact add_lt_add_left (add_lt_add_right hsum _) _

/-- **The owner's step**, in `stop`. -/
theorem rank_stop (hrunning : p.running = false) : p.stop = p ∨ p.stop.rank < p.rank := by
  obtain ⟨cfg, server, threads, sessions, running, listening, acceptor, owner, msgsIn, msgsOut⟩ := p
  obtain rfl : running = false := hrunning
  cases owner with
  | idle => exact .inl rfl
  | closing => exact .inr (add_lt_add_right (rankOf_steps_lt (Nat.lt_succ_self _)) _)
  | waiting =>
    cases acceptor with
    | none => exact .inr (add_lt_add_right (rankOf_steps_lt (Nat.lt_succ_self _)) _)
    | ended => exact .inr (add_lt_add_right (rankOf_steps_lt (Nat.lt_succ_self _)) _)
    | _ => exact .inl rfl
  | joining rest =>
    cases rest with
    | nil => exact .inr (add_lt_add_right (rankOf_steps_lt Nat.one_pos) _)
    | cons c rest =>
      rw [Process.stop]
      dsimp only
      split_ifs with hdone
      · obtain ⟨th, hth, hclosed⟩ := done_iff.mp hdone
        refine .inr (add_lt_add_of_le_of_lt (add_le_add_right (le_of_eq ?_) _)
          (rankOf_steps_lt (Nat.lt_succ_self _)))
        have hzero := threadRank_of_some hth
        rw [hclosed] at hzero
        refine Eq.trans ?_ (List.sum_cons).symm
        rw [hzero]
        exact (zero_add _).symm
      · exact .inl rfl

theorem rankOf_fewer_reads (r : Rank) (k m n : ℕ) :
    rankOf 1 0 0 0 + (r + rankOf 0 0 0 k) + rankOf 0 0 0 m <
      rankOf 2 0 0 0 + r + rankOf 0 0 0 n := by
  obtain ⟨a, b, c, d⟩ := r
  refine Prod.Lex.lt_iff.mpr (.inl ?_)
  change 1 + (a + 0) + 0 < 2 + a + 0
  omega

/-- A thread more, and the acceptor one round less. -/
theorem rank_spawn {order : FieldOrder} {now : ℕ → Bytes} {clock : ℕ → Int} (h : p.Supervised)
    (hspawning : p.acceptor = .spawning c order now clock) (hunlocked : p.locked = false)
    (hnone : p.threads c = none) (s : Session) :
    ({ p.set c { session := s } with
      sessions := p.sessions ++ [c], acceptor := .looping } : Process).rank < p.rank := by
  have hset : (p.set c { session := s }).threads c = some { session := s } :=
    Function.update_self ..
  have hkeep : ∀ c' ∈ p.sessions, (p.set c { session := s }).threadRank c' = p.threadRank c' := by
    intro c' hc'
    obtain ⟨th, hth⟩ := h.spawned c' (by rwa [unjoined_of_unlocked hunlocked])
    have hne : c' ≠ c := by
      rintro rfl
      cases hnone.symm.trans hth
    have hother : (p.set c { session := s }).threads c' = p.threads c' :=
      Function.update_of_ne hne ..
    rw [threadRank, threadRank, hother]
  have hsum : ((p.sessions ++ [c]).map (p.set c { session := s }).threadRank).sum =
      (p.unjoined.map p.threadRank).sum + rankOf 0 0 0 1 := by
    rw [List.map_append, List.sum_append, List.map_congr_left hkeep, unjoined_of_unlocked hunlocked,
      List.map_singleton, List.sum_singleton, threadRank_of_some hset]
    rfl
  rw [rank, rank, hspawning, @unjoined_of_unlocked { p.set c { session := s } with
    sessions := p.sessions ++ [c], acceptor := .looping } hunlocked]
  exact lt_of_eq_of_lt (congrArg (fun r => _ + r + _) hsum) (rankOf_fewer_reads ..)

/-- **The acceptor's step**, once `running_` is false. A thread it adds is
done at the head of its loop. -/
theorem rank_accept (h : p.Supervised) (hrunning : p.running = false) (r : Accepted) :
    p.accept r = p ∨ (p.accept r).rank < p.rank := by
  have hphase : ∀ {next : Acceptor}, next.rank < p.acceptor.rank →
      ({ p with acceptor := next } : Process).rank < p.rank := fun hlt =>
    add_lt_add_left (add_lt_add_left hlt _) _
  rw [accept.eq_def]
  split
  · exact .inl rfl
  · exact .inl rfl
  · rename_i hlooping
    rw [hrunning]
    exact .inr (hphase (by rw [hlooping]; exact rankOf_lt.mpr (.inl (by decide))))
  · rename_i hloading
    refine .inr (hphase ?_)
    rw [hloading]
    cases p.listening <;> exact rankOf_lt.mpr (.inl (by decide))
  · rename_i haccepting
    rw [hrunning]
    split
    · exact .inr (hphase (by rw [haccepting]; exact rankOf_lt.mpr (.inl (by decide))))
    · exact .inr (hphase (by rw [haccepting]; exact rankOf_lt.mpr (.inl (by decide))))
  · rename_i c order now clock hspawning
    split_ifs with hlocked
    · exact .inl rfl
    · rw [spawn]
      split
      · exact .inr (hphase (by rw [hspawning]; exact rankOf_lt.mpr (.inl (by decide))))
      · rename_i hnone
        refine .inr ?_
        exact rank_spawn h hspawning (by simpa using hlocked) hnone _

/-- **Every step of a process that is being stopped** brings it closer to
the end. -/
theorem rank_step (h : p.Supervised) (hrunning : p.running = false) (ha : a ≠ .start true)
    (hstep : p.step a = .ok (p', out)) : p' = p ∨ p'.rank < p.rank := by
  cases step_steps hstep with
  | stay a => exact .inl rfl
  | start howner hacceptor => exact absurd rfl ha
  | stop => exact rank_stop hrunning
  | accept r => exact rank_accept h hrunning r
  | @check c th hth =>
    rw [hrunning]
    rcases th.rank_check with heq | hlt
    · exact .inl (by rw [heq, set_self hth])
    · exact .inr (rank_set h hth hlt)
  | wake hth hphase hr hwake => exact .inr (rank_set h hth (Thread.rank_wake hphase hwake))
  | @send c n th hth =>
    by_cases hwrites : th.Writes
    · exact .inr (rank_set h hth (Thread.rank_send n hwrites))
    · rw [Thread.send_of_not_writes n hwrites]
      exact .inl (set_self hth)
  | @enter c th m apps hth hphase =>
    have hlt : (p.set c { th with phase := .routing m apps }).rank < p.rank :=
      rank_set h hth (Thread.rank_enter hphase)
    exact .inr hlt
  | @answered c th rest apps hth hphase =>
    have hlt : (p.set c (th.answer apps rest)).rank < p.rank :=
      rank_set h hth ((th.rank_answer apps rest).trans_eq (by rw [hphase]; rfl))
    exact .inr hlt
  | @reported c th rest apps hth hphase =>
    have hlt : (p.set c (th.report apps rest)).rank < p.rank :=
      rank_set h hth ((th.rank_report apps rest).trans_eq (by rw [hphase]; rfl))
    exact .inr hlt
  | @route c th m apps srv evs hth hphase hroute =>
    have hlt : (p.set c (th.report apps (evs.filterMap Net.report))).rank < p.rank :=
      rank_set h hth (Thread.rank_route hphase _)
    exact .inr hlt

theorem running_step (hrunning : p.running = false) (ha : a ≠ .start true)
    (hstep : p.step a = .ok (p', out)) : p'.running = false := by
  cases step_steps hstep with
  | start howner hacceptor => exact absurd rfl ha
  | stop =>
    rw [Process.stop]
    split
    · split <;> first | rfl | exact hrunning
    · exact hrunning
    · split <;> exact hrunning
    · split <;> exact hrunning
    · exact hrunning
  | accept r => exact (p.accept_keeps r).2.2.1.trans hrunning
  | _ => exact hrunning

/-- A thread's step that lowers its rank is one. -/
theorem ne_of_rank_lt (hth : p.threads c = some th) {q : Process} (hq : q.threads c = some th')
    (hlt : th'.phase.rank < th.phase.rank) : q ≠ p := by
  rintro rfl
  obtain rfl := Option.some.inj (hth.symm.trans hq)
  exact lt_irrefl _ hlt

/-- **A thread that has not ended can take a step**, or raises. -/
theorem takes_of_thread (hrunning : p.running = false) (hth : p.threads c = some th)
    (hopen : th.phase ≠ .closed) : ∃ a, a ≠ .start true ∧ Takes Process.step p a := by
  have hsend : th.Writes → ∃ a, a ≠ .start true ∧ Takes Process.step p a := by
    refine fun hwrites => ⟨.send c 1, fun he => (by cases he), fun out he => ?_⟩
    rw [Process.step, hth] at he
    exact ne_of_rank_lt hth (Function.update_self ..) (Thread.rank_send 1 hwrites)
      (Prod.mk.inj (Except.ok.inj he)).1
  have hcount : ∀ {th' : Thread}, (p.count c th).threads c = some th' →
      th'.phase.rank < th.phase.rank → ∃ a, a ≠ .start true ∧ Takes Process.step p a := by
    refine fun hset hlt => ⟨.count c, fun he => (by cases he), fun out he => ?_⟩
    rw [Process.step, hth] at he
    exact ne_of_rank_lt hth hset hlt (Prod.mk.inj (Except.ok.inj he)).1
  cases hphase : th.phase with
  | top =>
    refine ⟨.check c, fun he => (by cases he), fun out he => ?_⟩
    rw [Process.step, hth, hrunning] at he
    refine ne_of_rank_lt hth (Function.update_self ..) ?_ (Prod.mk.inj (Except.ok.inj he)).1
    rw [Thread.check, hphase]
    exact rankOf_steps_lt Nat.one_pos
  | polling =>
    refine ⟨.wake c .failed, fun he => (by cases he), fun out he => ?_⟩
    rw [Process.step, hth] at he
    dsimp only at he
    rw [wake, hphase] at he
    exact ne_of_rank_lt hth (Function.update_self ..) (Thread.rank_wake (r := .failed) hphase rfl)
      (Prod.mk.inj (Except.ok.inj he)).1
  | answering w left rest apps => exact hsend ⟨w, left, .inl ⟨rest, apps, hphase⟩⟩
  | reporting w left rest apps => exact hsend ⟨w, left, .inr ⟨rest, apps, hphase⟩⟩
  | answered rest apps =>
    have hset : (p.count c th).threads c = some (th.answer apps rest) := by
      rw [count, hphase]
      exact Function.update_self ..
    exact hcount hset ((th.rank_answer apps rest).trans_eq (by rw [hphase]; rfl))
  | reported rest apps =>
    have hset : (p.count c th).threads c = some (th.report apps rest) := by
      rw [count, hphase]
      exact Function.update_self ..
    exact hcount hset ((th.rank_report apps rest).trans_eq (by rw [hphase]; rfl))
  | entering m apps =>
    have hset : (p.count c th).threads c = some { th with phase := .routing m apps } := by
      rw [count, hphase]
      exact Function.update_self ..
    exact hcount hset (Thread.rank_enter hphase)
  | routing m apps =>
    refine ⟨.route c, fun he => (by cases he), fun out he => ?_⟩
    rw [Process.step, hth] at he
    dsimp only at he
    rw [route, hphase] at he
    dsimp only at he
    rcases hroute : p.server.route m with e | ⟨srv, evs⟩
    · rw [hroute] at he
      cases he
    · rw [hroute] at he
      exact ne_of_rank_lt hth (Function.update_self ..) (Thread.rank_route hphase _)
        (Prod.mk.inj (Except.ok.inj he)).1
  | closed => exact absurd hphase hopen

/-- **The acceptor can take a step** once `running_` is false, unless it
has ended or waits for the lock. -/
theorem takes_of_acceptor (hrunning : p.running = false) (hunlocked : p.locked = false)
    (hnone : p.acceptor ≠ .none) (hended : p.acceptor ≠ .ended) :
    ∃ a, a ≠ .start true ∧ Takes Process.step p a := by
  have hmoves : (p.accept none).acceptor ≠ p.acceptor := by
    rw [Process.accept.eq_def]
    rcases hacc : p.acceptor with _ | _ | _ | _ | ⟨c, order, now, clock⟩ | _
    · exact absurd hacc hnone
    · rw [hrunning]
      exact fun he => by cases he
    · cases p.listening <;> exact fun he => by cases he
    · rw [hrunning]
      exact fun he => by cases he
    · rw [hunlocked]
      exact fun he => by cases he
    · exact absurd hacc hended
  refine ⟨.accept none, fun he => (by cases he), fun out he => hmoves ?_⟩
  rw [(Prod.mk.inj (Except.ok.inj he)).1]

/-- **A process that is being stopped can take a step**, or a thread
raises. -/
theorem exists_takes (h : p.Supervised) (howner : p.owner ≠ .idle) :
    ∃ a, a ≠ .start true ∧ Takes Process.step p a := by
  have hrunning := h.stopping howner
  have hstop : p.stop.owner ≠ p.owner → ∃ a, a ≠ .start true ∧ Takes Process.step p a := by
    refine fun hmoves => ⟨.stop, fun he => (by cases he), fun out he => hmoves ?_⟩
    rw [(Prod.mk.inj (Except.ok.inj he)).1]
  rcases ho : p.owner with _ | _ | _ | rest
  · exact absurd ho howner
  · refine hstop ?_
    rw [Process.stop, ho]
    exact fun he => by cases he
  · -- the owner goes on once the acceptor has ended, and the acceptor can end
    by_cases hjoin : p.acceptor = .none ∨ p.acceptor = .ended
    · refine hstop ?_
      rw [Process.stop, ho]
      rcases hjoin with hacc | hacc <;> rw [hacc] <;> exact fun he => by cases he
    · rw [not_or] at hjoin
      exact takes_of_acceptor hrunning (by rw [locked, ho]) hjoin.1 hjoin.2
  · cases rest with
    | nil =>
      refine hstop ?_
      rw [Process.stop, ho]
      exact fun he => by cases he
    | cons c rest =>
      obtain ⟨th, hth⟩ := h.spawned c (by rw [unjoined, ho]; exact List.mem_cons_self)
      by_cases hclosed : th.phase = .closed
      · refine hstop ?_
        rw [Process.stop, ho]
        dsimp only
        rw [if_pos (done_iff.mpr ⟨th, hth, hclosed⟩)]
        exact fun he => List.cons_ne_self c rest (Owner.joining.inj he).symm
      · exact takes_of_thread hrunning hth hclosed

/-- How a process that is not started again can end. -/
theorem crash_of_step {e : Crash} (hstep : p.step a = .error e) (ha : a ≠ .start true) :
    (∃ f, e = .uncaught f) ∨ e = .sigpipe := by
  cases step_fails hstep with
  | reassigned => exact absurd rfl ha
  | wake hth hphase hr hwake => exact .inl ⟨_, rfl⟩
  | sigpipe hth hleft => exact .inr rfl
  | route hth hphase hroute => exact .inl ⟨_, rfl⟩

/-- `stop` has returned, and every thread has ended. -/
def Stopped (p : Process) : Prop :=
  p.owner = .idle ∧ p.running = false ∧ ∀ c th, p.threads c = some th → th.phase = .closed

/-- One process comes from another by a step that is not a `start`. -/
def Goes (p' p : Process) : Prop :=
  ∃ a out, a ≠ .start true ∧ p.step a = .ok (p', out) ∧ p' ≠ p

end Process

/-- **`stop` returns, if the system answers and the process lives.** From
wherever it is called there is no endless run of steps, whatever the system
answers. And if whoever could take a step does so in the end, so that every
`send` answers, then `stop` returns and every thread has ended; or before
that a thread raises what nobody catches, or a `send` to a peer that is gone
raises the signal that ends the process. -/
theorem run_stops (cfg : ServerConfig) (atoms : List Atom) (p : Process) (trace : List Trace)
    (h : run Process.step (Process.new cfg) atoms = .ok (p, trace)) (hstop : p.owner ≠ .idle) :
    Acc Process.Goes p ∧
      ∀ later : ℕ → Atom, (∀ n, later n ≠ .start true) →
        Fair Process.step (fun a => a ≠ .start true) p later →
        ∃ n, (∃ q out, run Process.step p (firsts later n) = .ok (q, out) ∧ q.Stopped) ∨
          (∃ e, run Process.step p (firsts later n) = .error (.uncaught e)) ∨
          run Process.step p (firsts later n) = .error .sigpipe := by
  have hp := run_supervised h
  have hstopping : p.Supervised ∧ p.running = false := ⟨hp, hp.stopping hstop⟩
  have hmove : ∀ (p : Process) a p' out, (p.Supervised ∧ p.running = false) → a ≠ .start true →
      p.step a = .ok (p', out) → p' ≠ p →
      (p'.Supervised ∧ p'.running = false) ∧ p'.rank < p.rank := by
    rintro p a p' out ⟨hp, hrunning⟩ ha hstep hne
    exact ⟨⟨hp.step hstep, Process.running_step hrunning ha hstep⟩,
      (Process.rank_step hp hrunning ha hstep).resolve_left hne⟩
  have hgoes : ∀ p p' : Process, (p.Supervised ∧ p.running = false) → Process.Goes p' p →
      (p'.Supervised ∧ p'.running = false) ∧ p'.rank < p.rank := by
    rintro p p' hp ⟨a, out, ha, hstep, hne⟩
    exact hmove p a p' out hp ha hstep hne
  refine ⟨acc_of_rank hgoes hstopping, fun later hlater hfair => ?_⟩
  have hprogress : ∀ q : Process, (q.Supervised ∧ q.running = false) → ¬ q.owner = .idle →
      ∃ a, a ≠ .start true ∧ Takes Process.step q a := fun q hq howner =>
    Process.exists_takes hq.1 howner
  obtain ⟨n, ⟨q, out, hrun, ⟨hq, hrunning⟩, hidle⟩ | ⟨q, a, e, ha, hstep, hrun⟩⟩ :=
    hfair.ends hmove hprogress hstopping hlater
  · exact ⟨n, .inl ⟨q, out, hrun, hidle, hrunning, hq.closed hidle hrunning⟩⟩
  · rcases Process.crash_of_step hstep ha with ⟨f, rfl⟩ | rfl
    · exact ⟨n, .inr (.inl ⟨f, hrun⟩)⟩
    · exact ⟨n, .inr (.inr hrun)⟩

/-- In the middle of it the thread has a part of its answer to send. There
is a way to go on that leaves nobody waiting, and `stop` returns on it. -/
theorem run_stops_closing :
    ∃ p trace, run Process.step (Process.new {}) (closing.take 10) = .ok (p, trace) ∧
      p.owner = .waiting ∧ Acc Process.Goes p ∧
      ∃ later : ℕ → Atom, (∀ n, later n ≠ .start true) ∧
        Fair Process.step (fun a => a ≠ .start true) p later ∧
        ∃ n, (∃ q out, run Process.step p (firsts later n) = .ok (q, out) ∧ q.Stopped) ∨
          (∃ e, run Process.step p (firsts later n) = .error (.uncaught e)) ∨
          run Process.step p (firsts later n) = .error .sigpipe := by
  obtain ⟨p, trace, hr, hend⟩ := @exists_of_run_check _ _ _ _ Process.step
    (fun r : Process × List Trace => decide (r.1.owner = .waiting)) (Process.new {})
    (closing.take 10) (by decide +kernel)
  have howner := of_decide_eq_true hend
  obtain ⟨hacc, hreturns⟩ := run_stops {} (closing.take 10) p trace hr
    (by rw [howner]; exact fun he => by cases he)
  obtain ⟨later, hlater, hfair⟩ := exists_fair Process.step (fun a => a ≠ .start true) p
    ⟨.stop, fun he => by cases he⟩
  exact ⟨p, trace, hr, howner, hacc, later, hlater, hfair, hreturns later hlater hfair⟩

end Net

end OrderbookFix
