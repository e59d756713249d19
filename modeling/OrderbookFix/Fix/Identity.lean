import OrderbookFix.Fix.Admission
import OrderbookFix.Fix.Sequencing
/-!
# Whose messages are taken

The CompIDs of a message are looked at once, when the Logon comes in.
Later messages are taken by their number and type alone, so what the
session document says of TargetCompID holds on a run exactly if the peer
never sends other CompIDs, or only where the session ends for another
reason.
-/

namespace OrderbookFix

namespace Fix

namespace Session

/-! ## The rounds of a run -/

/-- The rounds a call makes. -/
def turnsBy (s : Session) : Call → List Turn
  | .onBytes data => s.turns data
  | _ => []

/-- A call with the rounds behind its step. -/
def record (s : Session) (c : Call) : Except Fault (Session × List (SessionStep × List Turn)) :=
  (s.perform c).map fun r => (r.1, r.2.map fun step => (step, s.turnsBy c))

/-! ## The law and the condition -/

/-- A message from `peer` to `sender`. -/
def Vouched (sender peer : Bytes) (m : Message) : Prop :=
  m.get Tag.targetCompID = some sender ∧ m.get Tag.senderCompID = some peer

/-- A message to someone else. -/
def Foreign (sender : Bytes) (m : Message) : Prop :=
  ∃ t, m.get Tag.targetCompID = some t ∧ t ≠ sender

/-- **The law of identity**, for a round: a message taken is from the peer
to us, and one to someone else disconnects. -/
structure Identified (sender peer : Bytes) (r : Turn) : Prop where
  taken : ∀ m, Turn.message r = some m →
    (r.before.inSeq < r.after.inSeq ∨ r.out.app ≠ []) → Vouched sender peer m
  foreign : ∀ m, Turn.message r = some m → Foreign sender m → r.out.disconnect = true

/-- Messages the session takes: the next in sequence, and orders without a
number. -/
def Takes (s : Session) (m : Message) : Prop :=
  (m.number = s.inSeq + 1 ∧ m.number ≠ 0) ∨ (m.number = 0 ∧ isApplication m.msgType = true)

/-- Messages that end the session untaken: a number too low, and a Logout
without a number. -/
def EndsBy (s : Session) (m : Message) : Prop :=
  (m.number < s.inSeq + 1 ∧ m.number ≠ 0) ∨ (m.number = 0 ∧ m.msgType = MsgType.logout)

/-- **What the peer has to keep to**: what is taken is its own, and what
is to someone else ends the session. -/
structure Minded (sender peer : Bytes) (s : Session) (m : Message) : Prop where
  taken : Takes s m → Vouched sender peer m
  foreign : Foreign sender m → Takes s m ∨ EndsBy s m

/-! ## One message -/

section Message

variable {s s' : Session} {m : Message} {step : SessionStep} {seq : SeqNum}

/-- What a message in sequence hands out, and whether it disconnects, is
up to its type. -/
theorem Routes.kind (h : Routes s m seq s' step) :
    s'.inSeq = s.inSeq ∧ (step.app ≠ [] ↔ isApplication m.msgType = true) ∧
      (step.disconnect = true ↔ m.msgType = MsgType.logout) := by
  have hno : ∀ {mt : Bytes}, m.msgType = mt → isApplication mt = false → mt ≠ MsgType.logout →
      (([] : List AppMessage) ≠ [] ↔ isApplication m.msgType = true) ∧
        (false = true ↔ m.msgType = MsgType.logout) := by
    intro mt ht happ hlogout
    rw [ht, happ]
    exact ⟨⟨fun h => absurd rfl h, fun h => (by cases h)⟩,
      ⟨fun h => (by cases h), fun h => absurd h hlogout⟩⟩
  cases h with
  | quiet ht =>
    refine ⟨rfl, ?_⟩
    rcases of_decide_eq_true ht with ht | ht | ht
    · exact hno ht (by decide) (by decide)
    · exact hno ht (by decide) (by decide)
    · exact hno ht (by decide) (by decide)
  | testRequest ht => exact ⟨rfl, hno ht (by decide) (by decide)⟩
  | resend ht hstart hstop hr =>
    obtain ⟨n, rfl⟩ := handleResendRequest_asked hr
    exact ⟨rfl, hno ht (by decide) (by decide)⟩
  | acknowledge ht hs =>
    rw [ht]
    exact ⟨rfl, ⟨fun h => absurd rfl h, fun h => absurd h (by decide)⟩, ⟨fun _ => rfl, fun _ => rfl⟩⟩
  | acknowledged ht hs =>
    rw [ht]
    exact ⟨rfl, ⟨fun h => absurd rfl h, fun h => absurd h (by decide)⟩, ⟨fun _ => rfl, fun _ => rfl⟩⟩
  | app ht =>
    refine ⟨rfl, ⟨fun _ => ht, fun _ h => (by cases h)⟩, ⟨fun h => (by cases h), fun h => ?_⟩⟩
    rw [h] at ht
    exact absurd ht (by decide)
  | unknown ht =>
    simp only [knownTypes, List.mem_cons, List.not_mem_nil, or_false, not_or] at ht
    exact ⟨rfl, hno rfl (decide_eq_false (by tauto)) ht.2.2.2.1⟩

/-- **What is taken, and what ends the session**, told from the message
and the number the session is at. -/
theorem handleMessage_takes (hstate : s.state ≠ .disconnected)
    (h : s.handleMessage m = .ok (s', step)) :
    ((s.inSeq < s'.inSeq ∨ step.app ≠ []) ↔ Takes s m) ∧
      (step.disconnect = true → Takes s m ∨ EndsBy s m) ∧ (EndsBy s m → step.disconnect = true) := by
  unfold Takes EndsBy
  cases handleMessage_receives h with
  | refused hoff ht => exact absurd hoff hstate
  | misdirected hoff ht hf => exact absurd hoff hstate
  | admitted hseq hoff ht hf => exact absurd hoff hstate
  | @gap seq hseq hon hgap =>
    -- the number is above the next one, so neither taken nor the end
    obtain ⟨hne', hne⟩ := not_or.mp (not_taken_of_gap hseq hgap)
    rw [m.number_eq hseq] at hne hne' ⊢
    refine ⟨⟨fun h => ?_, fun h => ?_⟩, fun h => (by cases h), fun h => ?_⟩
    · rcases h with h | h
      · exact absurd h (UInt64.lt_irrefl _)
      · exact absurd rfl h
    · rcases h with h | h
      · exact absurd h.1 hne'
      · exact absurd h.1 hne
    · rcases h with h | h
      · exact absurd h.1 (UInt64.lt_asymm hgap)
      · exact absurd h.1 hne
  | @low seq hseq hon hlow h0 =>
    rw [m.number_eq hseq]
    refine ⟨⟨fun h => ?_, fun h => ?_⟩, fun _ => .inr (.inl ⟨hlow, h0⟩), fun _ => rfl⟩
    · rcases h with h | h
      · exact absurd h (UInt64.lt_irrefl _)
      · exact absurd rfl h
    · rcases h with h | h
      · exact absurd (h.1 ▸ hlow) (UInt64.lt_irrefl _)
      · exact absurd h.1 h0
  | @taken seq _ _ hseq hon htaken hd =>
    obtain ⟨hin, happ, hdisc⟩ := hd.kind
    have hin' : s'.inSeq = seq := hin
    rw [m.number_eq hseq, hin', happ, hdisc]
    by_cases h0 : seq = 0
    · subst h0
      have hnot : ¬ s.inSeq < 0 := UInt64.not_lt_zero
      refine ⟨⟨fun h => .inr ⟨rfl, h.resolve_left hnot⟩, fun h => ?_⟩,
        fun h => .inr (.inr ⟨rfl, h⟩), fun h => ?_⟩
      · exact .inr (h.resolve_left fun h => h.2 rfl).2
      · exact (h.resolve_left fun h => h.2 rfl).2
    · have heq := htaken.resolve_right h0
      have hlt := lt_of_eq_add_one heq h0
      refine ⟨⟨fun _ => .inl ⟨heq, h0⟩, fun _ => .inl hlt⟩, fun _ => .inl (.inl ⟨heq, h0⟩),
        fun h => ?_⟩
      rcases h with h | h
      · exact absurd (heq ▸ h.1) (UInt64.lt_irrefl _)
      · exact absurd h.1 h0

/-- A message that does not disconnect leaves the session on. -/
theorem handleMessage_stays (h : s.handleMessage m = .ok (s', step))
    (hd : step.disconnect = false) : s'.state ≠ .disconnected := by
  by_cases hstate : s.state = .disconnected
  · obtain ⟨-, -, -, hon⟩ := handleMessage_first hstate h
    rw [(hon hd).1]
    exact fun h => by cases h
  · obtain ⟨seq, -, hh⟩ := handleMessage_cases hstate h
    exact fun hs' => hstate (hh.inSeq_eq.1 hd hs')

end Message

/-- The message of a round is the one handled. -/
theorem Turns.handled {s s' : Session} {buf : Bytes} {step : SessionStep} {m : Message}
    (h : Turns s buf s' step) (hm : Turn.message ⟨s, buf, step, s'⟩ = some m) :
    s.heard.handleMessage m = .ok (s', step) := by
  unfold Turn.message at hm
  rcases h with ⟨hp, herr⟩ | ⟨hp, hnone, hh⟩
  · dsimp only at hm
    rw [hp] at hm
    dsimp only at hm
    rw [if_neg herr] at hm
    cases hm
  · dsimp only at hm
    rw [hp] at hm
    dsimp only at hm
    rw [if_pos hnone] at hm
    rwa [← Option.some.inj hm]

/-- **One round after the Logon** keeps the law exactly if the peer minds
it. -/
theorem identified_iff {sender peer : Bytes} {r : Turn} (hstate : r.before.state ≠ .disconnected)
    (hturn : Turns r.before r.buf r.after r.out) :
    Identified sender peer r ↔
      ∀ m, Turn.message r = some m → Minded sender peer r.before m := by
  have htakes : ∀ m, Turn.message r = some m →
      ((r.before.inSeq < r.after.inSeq ∨ r.out.app ≠ []) ↔ Takes r.before m) ∧
        (r.out.disconnect = true → Takes r.before m ∨ EndsBy r.before m) ∧
          (EndsBy r.before m → r.out.disconnect = true) := by
    intro m hm
    exact handleMessage_takes (s := r.before.heard) hstate (hturn.handled hm)
  constructor
  · intro h m hm
    obtain ⟨hacc, hends, -⟩ := htakes m hm
    exact ⟨fun ht => h.taken m hm (hacc.mpr ht), fun hf => hends (h.foreign m hm hf)⟩
  · intro h
    refine ⟨fun m hm hacc => (h m hm).taken ((htakes m hm).1.mp hacc), fun m hm hf => ?_⟩
    rcases (h m hm).foreign hf with ht | he
    · -- taken messages are vouched for, so this one is to us after all
      obtain ⟨t, hget, hne⟩ := hf
      have hown := ((h m hm).taken ht).1
      rw [hget] at hown
      exact absurd (Option.some.inj hown) hne
    · exact (htakes m hm).2.2 he

/-! ## Runs -/

/-- The rounds of a run after its first are made by a session that is
on. -/
def OnAfterFirst (ts : List Turn) : Prop :=
  ∀ r ∈ ts.tail, r.before.state ≠ .disconnected ∧ Turns r.before r.buf r.after r.out

theorem OnAfterFirst.snoc {ts : List Turn} {r : Turn} (h : OnAfterFirst ts)
    (hstate : ts ≠ [] → r.before.state ≠ .disconnected)
    (hturn : Turns r.before r.buf r.after r.out) : OnAfterFirst (ts ++ [r]) := by
  intro r' hr'
  rcases ts with _ | ⟨t, ts⟩
  · cases hr'
  · rcases List.mem_append.mp hr' with hr' | hr'
    · exact h r' hr'
    · rw [List.mem_singleton.mp hr']
      exact ⟨hstate (List.cons_ne_nil _ _), hturn⟩

/-- A call that reads nothing does not turn a session off. -/
theorem perform_stays {s s' : Session} {c : Call} {outs : List SessionStep}
    (hc : ∀ data, c ≠ .onBytes data) (h : s.perform c = .ok (s', outs))
    (hstate : s.state ≠ .disconnected) : s'.state ≠ .disconnected := by
  cases perform_cases h with
  | @onBytes data _ _ _ => exact absurd rfl (hc data)
  | tick ht =>
    rcases tick_cases ht with _ | hon | hon | hon
    · exact hstate
    · exact hstate
    · exact fun h => by cases h
    · exact hstate
  | initiateLogon => exact fun h => by cases h
  | logout text => exact fun h => by cases h
  | resetSeq => exact hstate
  | heartbeat => exact hstate
  | executionReport body => exact hstate

/-- A session that has made rounds is on, and so were those it made them
in after the first. -/
structure Going (ts : List Turn) (s : Session) : Prop where
  after : OnAfterFirst ts
  on : ts ≠ [] → s.state ≠ .disconnected

theorem onBytes_going {ts : List Turn} {s s' : Session} {data : Bytes} {step : SessionStep}
    (h : Going ts s) (hb : s.onBytes data = .ok (s', step)) :
    OnAfterFirst (ts ++ s.turns data) ∧
      (step.disconnect = false → Going (ts ++ s.turns data) s') := by
  have hsnoc : ∀ (rs : List Turn) (s₁ : Session) (buf : Bytes) (s₂ : Session)
      (step : SessionStep), Going (ts ++ rs) s₁ → Turns s₁ buf s₂ step →
      OnAfterFirst (ts ++ (rs ++ [⟨s₁, buf, step, s₂⟩])) := by
    intro rs s₁ buf s₂ step hg hturn
    rw [← List.append_assoc]
    exact hg.after.snoc hg.on hturn
  obtain ⟨-, hcase⟩ := onBytes_inv (J := fun rs s₁ _ => Going (ts ++ rs) s₁)
    (K := fun rs _ => OnAfterFirst (ts ++ rs))
    (fun rs s₁ b buf hg => ⟨hg.after, hg.on⟩) (fun rs s₁ b hk => hk)
    (fun rs s₁ buf n s₂ step hg hn => by
      obtain ⟨pr, -, -, -, hm, hd⟩ := message_of_take hn
      exact ⟨hsnoc rs s₁ buf s₂ step hg (turns_of_take hn), fun _ => handleMessage_stays hm hd⟩)
    (fun rs s₁ buf s₂ step hg hn => hsnoc rs s₁ buf s₂ step hg (turns_of_stop hn).1)
    (by rwa [List.append_nil]) hb
  rcases hcase with ⟨-, hg⟩ | ⟨hd, hk⟩
  · exact ⟨hg.after, fun _ => hg⟩
  · exact ⟨hk, fun h => (by rw [hd] at h; cases h)⟩

/-- The invariant of a run: up to the first step that disconnects, its
rounds after the first are made by a session that is on. -/
structure Followed (recs : List (SessionStep × List Turn)) (s : Session) : Prop where
  going : (∀ r ∈ recs, r.1.disconnect = false) → Going (recs.flatMap Prod.snd) s
  after : (∀ r ∈ recs.dropLast, r.1.disconnect = false) → OnAfterFirst (recs.flatMap Prod.snd)

/-- A call that reads nothing. -/
theorem Followed.silent {recs : List (SessionStep × List Turn)} {s s' : Session} {c : Call}
    {outs : List SessionStep} (h : Followed recs s) (hc : ∀ data, c ≠ .onBytes data)
    (hp : s.perform c = .ok (s', outs)) : Followed (recs ++ outs.map fun step => (step, [])) s' := by
  have hturns : (recs ++ outs.map fun step => (step, ([] : List Turn))).flatMap Prod.snd =
      recs.flatMap Prod.snd := by
    rw [List.flatMap_append, List.flatMap_map]
    simp
  constructor
  · intro hall
    rw [hturns]
    have hg := h.going fun r hr => hall r (List.mem_append_left _ hr)
    exact ⟨hg.after, fun hne => perform_stays hc hp (hg.on hne)⟩
  · intro hall
    rw [hturns]
    refine h.after fun r hr => hall r ?_
    rcases eq_or_ne (outs.map fun step => (step, ([] : List Turn))) [] with hnil | hne
    · rwa [hnil, List.append_nil]
    · rw [List.dropLast_append_of_ne_nil hne]
      exact List.mem_append_left _ ((List.dropLast_prefix recs).subset hr)

theorem Followed.onBytes {recs : List (SessionStep × List Turn)} {s s' : Session} {data : Bytes}
    {step : SessionStep} (h : Followed recs s) (hb : s.onBytes data = .ok (s', step)) :
    Followed (recs ++ [(step, s.turns data)]) s' := by
  have hturns : (recs ++ [(step, s.turns data)]).flatMap Prod.snd =
      recs.flatMap Prod.snd ++ s.turns data := by
    rw [List.flatMap_append, List.flatMap_singleton]
  constructor
  · intro hall
    rw [hturns]
    have hg := h.going fun r hr => hall r (List.mem_append_left _ hr)
    exact (onBytes_going hg hb).2
      (hall (step, s.turns data) (List.mem_append_right _ (List.mem_singleton.mpr rfl)))
  · rw [List.dropLast_concat]
    intro hall
    rw [hturns]
    exact (onBytes_going (h.going hall) hb).1

theorem Followed.record {recs out : List (SessionStep × List Turn)} {s s' : Session} {c : Call}
    (h : Followed recs s) (hr : s.record c = .ok (s', out)) : Followed (recs ++ out) s' := by
  unfold Session.record at hr
  rcases hp : s.perform c with e | ⟨s₁, outs⟩
  · rw [hp] at hr
    cases hr
  rw [hp] at hr
  obtain ⟨rfl, rfl⟩ := Prod.mk.inj (Except.ok.inj hr)
  by_cases hc : ∃ data, c = .onBytes data
  · obtain ⟨data, rfl⟩ := hc
    obtain ⟨step, hb, rfl⟩ := perform_onBytes hp
    exact h.onBytes hb
  · have hc' : ∀ data, c ≠ .onBytes data := fun data he => hc ⟨data, he⟩
    have hnone : s.turnsBy c = [] := by
      cases c with
      | onBytes data => exact absurd rfl (hc' data)
      | _ => rfl
    rw [hnone]
    exact h.silent hc' hp

/-- **The law of identity holds exactly on the runs in which the peer
minds it.** `logon` is the round that let the peer in, and its CompID is
the one adopted there; the rounds after it are those up to the first
step that disconnects. -/
theorem run_identified_iff (cfg : SessionConfig) (soh : Soh) (order : FieldOrder)
    (now : ℕ → Bytes) (clock : ℕ → Int) (calls : List Call) (s : Session)
    (recs : List (SessionStep × List Turn)) (logon : Turn) (later : List Turn)
    (hrun : run record (makeSession cfg soh order now clock) calls = .ok (s, recs))
    (hstop : ∀ r ∈ recs.dropLast, r.1.disconnect = false)
    (hturns : recs.flatMap Prod.snd = logon :: later) :
    (∀ r ∈ later, Identified cfg.senderCompId logon.after.cfg.targetCompId r) ↔
      ∀ r ∈ later, ∀ m, Turn.message r = some m →
        Minded cfg.senderCompId logon.after.cfg.targetCompId r.before m := by
  have hinit : Followed [] (makeSession cfg soh order now clock) :=
    ⟨fun _ => ⟨fun _ hr => (by cases hr), fun h => absurd rfl h⟩, fun _ _ hr => (by cases hr)⟩
  have hfollowed : Followed recs s :=
    run_inv_returns (J := fun _ recs s => Followed recs s) (P := fun _ => True)
      (fun _ _ _ _ _ _ hJ _ hr => hJ.record hr) hinit (fun _ _ => trivial) hrun
  have hon := hfollowed.after hstop
  rw [hturns] at hon
  refine forall_congr' fun r => imp_congr_right fun hr => ?_
  exact identified_iff (hon r hr).1 (hon r hr).2

/-- An order with CompIDs. -/
def orderFrom (seq peer target : String) : Bytes :=
  build .text [(Tag.msgType, MsgType.newOrderSingle), (Tag.senderCompID, ascii peer),
    (Tag.targetCompID, ascii target), (Tag.msgSeqNum, ascii seq), (Tag.clOrdID, ascii "A")]

/-- What is seen of a round. -/
def Turn.seen (r : Turn) : Option (Option Bytes × Option Bytes) × ℕ × Bool :=
  ((Turn.message r).map fun m => (m.get Tag.targetCompID, m.get Tag.senderCompID),
    r.out.app.length, r.out.disconnect)

/-- A Logon and two orders of the peer. -/
theorem run_identified_iff_two_orders :
    ∃ s recs logon later,
      run record testSession
        [.onBytes logonBytes, .onBytes (orderFrom "2" "C" "OBFIX" ++ orderFrom "3" "C" "OBFIX")] =
          .ok (s, recs) ∧
      recs.flatMap Prod.snd = logon :: later ∧ later.length = 2 ∧
      ((∀ r ∈ later, Identified (ascii "OBFIX") logon.after.cfg.targetCompId r) ↔
        ∀ r ∈ later, ∀ m, Turn.message r = some m →
          Minded (ascii "OBFIX") logon.after.cfg.targetCompId r.before m) := by
  have hcheck : passes (fun r => decide ((∀ p ∈ r.2.dropLast, p.1.disconnect = false) ∧
      (r.2.flatMap Prod.snd).length = 3)) (run record testSession
        [.onBytes logonBytes,
          .onBytes (orderFrom "2" "C" "OBFIX" ++ orderFrom "3" "C" "OBFIX")]) = true := by
    decide +kernel
  obtain ⟨s, recs, hr, hp⟩ := exists_of_run_check hcheck
  obtain ⟨hstop, hlen⟩ := of_decide_eq_true hp
  rcases hts : recs.flatMap Prod.snd with _ | ⟨logon, later⟩
  · exact absurd (hts ▸ hlen) (by decide)
  · have hlen' : (logon :: later).length = 3 := hts ▸ hlen
    exact ⟨s, recs, logon, later, hr, hts, Nat.succ.inj hlen',
      run_identified_iff _ _ _ _ _ _ s recs logon later hr hstop hts⟩

/-- **An order of someone else to someone else is taken.** -/
theorem foreign_order_taken :
    ∃ s recs logon r,
      run record testSession [.onBytes logonBytes, .onBytes (orderFrom "2" "MALLORY" "OTHER")] =
        .ok (s, recs) ∧
      recs.flatMap Prod.snd = [logon, r] ∧
      logon.after.cfg.targetCompId = ascii "C" ∧ r.out.app.length = 1 ∧
      r.out.disconnect = false ∧
      ¬ Identified (ascii "OBFIX") logon.after.cfg.targetCompId r := by
  have hcheck : passes (fun r => decide ((r.2.flatMap Prod.snd).map Turn.seen =
        [(some (some (ascii "OBFIX"), some (ascii "C")), 0, false),
          (some (some (ascii "OTHER"), some (ascii "MALLORY")), 1, false)] ∧
      (r.2.flatMap Prod.snd).map (fun t => t.after.cfg.targetCompId) =
        [ascii "C", ascii "C"])) (run record testSession
        [.onBytes logonBytes, .onBytes (orderFrom "2" "MALLORY" "OTHER")]) = true := by
    decide +kernel
  obtain ⟨s, recs, hr, hp⟩ := exists_of_run_check hcheck
  obtain ⟨hseen, hpeer⟩ := of_decide_eq_true hp
  obtain ⟨logon, ts, hts, -, hseen'⟩ := List.map_eq_cons_iff.mp hseen
  obtain ⟨r, hrs, hr1⟩ := List.map_eq_singleton_iff.mp hseen'
  subst hrs
  rw [hts] at hpeer
  obtain ⟨hmsg, happ, hdisc⟩ : _ ∧ _ ∧ _ := by
    simpa only [Turn.seen, Prod.mk.injEq] using hr1
  refine ⟨s, recs, logon, r, hr, hts, (List.cons.inj hpeer).1, happ, hdisc, fun h => ?_⟩
  obtain ⟨m, hm, hids⟩ := Option.map_eq_some_iff.mp hmsg
  obtain ⟨hget, -⟩ := Prod.mk.inj hids
  have := h.foreign m hm ⟨_, hget, by decide⟩
  rw [hdisc] at this
  cases this

end Session

end Fix

end OrderbookFix
