import OrderbookFix.Fix.Helpers.Sending
import OrderbookFix.Fix.Helpers.RoundTrip
/-!
# Inbound sequence numbers

After a Logon the session takes the messages in the order of their
numbers: a gap asks for a resend, a number too low ends the session. A
message without a number, or with number 0, is neither: the session
takes it and goes back to 0. The law of the sequence therefore holds on a
run of messages exactly when each has a number.
-/

namespace OrderbookFix

namespace Fix

/-- A message handled, with the session before and after it. -/
structure Handled where
  before : Session
  msg : Message
  after : Session
  step : SessionStep

/-- The numbers of the messages handed out. -/
def dispatched (run : List Handled) : List SeqNum :=
  run.flatMap fun h => h.step.app.map Message.number

/-- **The law of the sequence**, from a session that has taken `start`. -/
structure Sequenced (start : SeqNum) (run : List Handled) : Prop where
  never_back : ∀ h ∈ run, h.before.inSeq ≤ h.after.inSeq
  increasing : (dispatched run).Pairwise (· < ·)
  later : ∀ q ∈ dispatched run, start < q
  out_of_order : ∀ h ∈ run, h.msg.number ≠ h.before.inSeq + 1 →
    h.after.inSeq = h.before.inSeq ∧ h.step.app = []

theorem Sequenced.nil (start : SeqNum) : Sequenced start [] where
  never_back _ h := by cases h
  increasing := .nil
  later _ h := by cases h
  out_of_order _ h := by cases h

/-- The law of a run from that of its first message and of the rest. -/
theorem Sequenced.cons {s s' : Session} {m : Message} {step : SessionStep} {run : List Handled}
    (hle : s.inSeq ≤ s'.inSeq)
    (happ : step.app = [] ∨ (step.app = [m] ∧ s.inSeq < m.number ∧ s'.inSeq = m.number))
    (hout : m.number ≠ s.inSeq + 1 → s'.inSeq = s.inSeq ∧ step.app = [])
    (h : Sequenced s'.inSeq run) : Sequenced s.inSeq (⟨s, m, s', step⟩ :: run) where
  never_back := List.forall_mem_cons.mpr ⟨hle, h.never_back⟩
  out_of_order := List.forall_mem_cons.mpr ⟨hout, h.out_of_order⟩
  increasing := by
    rcases happ with happ | ⟨happ, -, hin⟩
    · rw [dispatched, List.flatMap_cons, happ]
      exact h.increasing
    · rw [dispatched, List.flatMap_cons, happ]
      refine List.pairwise_cons.mpr ⟨fun q hq => ?_, h.increasing⟩
      exact hin ▸ h.later q hq
  later q hq := by
    rw [dispatched, List.flatMap_cons] at hq
    rcases List.mem_append.mp hq with hq | hq
    · rcases happ with happ | ⟨happ, hlt, -⟩
      · rw [happ] at hq
        cases hq
      · rw [happ] at hq
        rwa [List.mem_singleton.mp hq]
    · exact UInt64.lt_of_le_of_lt hle (h.later q hq)

namespace Session

/-- **A run of inbound messages**, up to the first that disconnects or
raises. -/
def handleAll (s : Session) : List Message → List Handled
  | [] => []
  | m :: ms =>
    match s.handleMessage m with
    | .error _ => []
    | .ok (s', step) =>
      if step.disconnect then [⟨s, m, s', step⟩] else ⟨s, m, s', step⟩ :: s'.handleAll ms

/-! ## One message -/

section Step

variable {s s' : Session} {m : Message} {step : SessionStep} {seq : SeqNum}

/-- A message in sequence moves no number, and is handed out at most
once. -/
theorem Dispatches.inSeq_eq (h : Dispatches s m seq s' step) :
    s'.inSeq = s.inSeq ∧ (step.app = [] ∨ step.app = [m]) ∧
      (step.disconnect = false → s'.state = s.state) := by
  rcases h with _ | _ | _ | _ | _ | _
  · exact ⟨rfl, .inl rfl, fun _ => rfl⟩
  · exact ⟨rfl, .inl rfl, fun _ => rfl⟩
  · exact ⟨rfl, .inl rfl, fun _ => rfl⟩
  · exact ⟨rfl, .inl rfl, fun h => by cases h⟩
  · exact ⟨rfl, .inl rfl, fun h => by cases h⟩
  · exact ⟨rfl, .inr rfl, fun _ => rfl⟩

/-- **One message**: it is left out, with the session's number as it was,
or taken, with its own number. -/
theorem Handles.inSeq_eq (h : Handles s m seq s' step) :
    (step.disconnect = false → s'.state = .disconnected → s.state = .disconnected) ∧
      ((s'.inSeq = s.inSeq ∧ step.app = [] ∧ seq ≠ 0) ∨
        (s'.inSeq = seq ∧ (step.app = [] ∨ step.app = [m]) ∧ (seq = s.inSeq + 1 ∨ seq = 0))) := by
  rcases h with hgap | ⟨hlow, h0⟩ | ⟨htaken, hd⟩
  · refine ⟨fun _ => id, .inl ⟨rfl, rfl, ?_⟩⟩
    rintro rfl
    exact UInt64.not_lt_zero hgap
  · exact ⟨fun h => (by cases h), .inl ⟨rfl, rfl, h0⟩⟩
  · obtain ⟨hin, happ, hst⟩ := hd.inSeq_eq
    refine ⟨fun hd' hs' => ?_, .inr ⟨hin, happ, htaken⟩⟩
    rwa [hst hd'] at hs'

end Step

/-! ## Runs -/

theorem lt_of_eq_add_one {a q : SeqNum} (h : q = a + 1) (h0 : q ≠ 0) : a < q := by
  have hq : q.toNat = (a.toNat + 1) % 2 ^ 64 := by
    rw [h, UInt64.toNat_add]
    rfl
  have hpos : q.toNat ≠ 0 := fun hz => h0 (UInt64.toNat_inj.mp hz)
  have ha := a.toNat_lt
  rw [UInt64.lt_iff_toNat_lt]
  omega

/-- A run whose messages all have numbers keeps the law. The induction
carries the number taken last, which bounds what is handed out later. -/
theorem sequenced_of_numbered {s : Session} {ms : List Message} (hstate : s.state ≠ .disconnected)
    (hnum : ∀ h ∈ s.handleAll ms, h.msg.number ≠ 0) : Sequenced s.inSeq (s.handleAll ms) := by
  induction ms generalizing s with
  | nil => exact Sequenced.nil _
  | cons m ms ih =>
    rw [handleAll] at hnum ⊢
    rcases hm : s.handleMessage m with e | ⟨s', step⟩
    · exact Sequenced.nil _
    rw [hm] at hnum
    dsimp only at hnum ⊢
    obtain ⟨seq, hseq, hhandles⟩ := handleMessage_cases hstate hm
    obtain ⟨hstay, hcase⟩ := hhandles.inSeq_eq
    have hnumber := m.number_eq hseq
    have hrest : ∀ {run}, Sequenced s'.inSeq run → seq ≠ 0 →
        Sequenced s.inSeq (⟨s, m, s', step⟩ :: run) := by
      intro run hrun h0
      rcases hcase with ⟨hin, happ, -⟩ | ⟨hin, happ, hnext⟩
      · exact .cons (UInt64.le_of_eq hin.symm) (.inl happ) (fun _ => ⟨hin, happ⟩) hrun
      · have hseq' := hnext.resolve_right h0
        have hlt := lt_of_eq_add_one hseq' h0
        refine .cons (hin ▸ UInt64.le_of_lt hlt) ?_ (fun hne => absurd (hnumber.trans hseq') hne) hrun
        exact happ.imp_right fun ha => ⟨ha, hnumber ▸ hlt, hnumber ▸ hin⟩
    cases hd : step.disconnect with
    | true =>
      rw [if_pos hd] at hnum
      exact hrest (.nil _) (hnumber ▸ hnum _ (List.mem_singleton.mpr rfl))
    | false =>
      rw [if_neg (by rw [hd]; exact Bool.false_ne_true)] at hnum
      obtain ⟨h0, hnum⟩ := List.forall_mem_cons.mp hnum
      exact hrest (ih (fun hs' => hstate (hstay hd hs')) hnum) (hnumber ▸ h0)

/-- A run that never goes back has no message without a number: such a
message takes the session to 0. -/
theorem numbered_of_never_back {s : Session} {ms : List Message}
    (hstate : s.state ≠ .disconnected) (hpos : 0 < s.inSeq)
    (hback : ∀ h ∈ s.handleAll ms, h.before.inSeq ≤ h.after.inSeq) :
    ∀ h ∈ s.handleAll ms, h.msg.number ≠ 0 := by
  induction ms generalizing s with
  | nil => exact fun _ h => by cases h
  | cons m ms ih =>
    rw [handleAll] at hback ⊢
    rcases hm : s.handleMessage m with e | ⟨s', step⟩
    · exact fun _ h => by cases h
    rw [hm] at hback
    dsimp only at hback ⊢
    obtain ⟨seq, hseq, hhandles⟩ := handleMessage_cases hstate hm
    obtain ⟨hstay, hcase⟩ := hhandles.inSeq_eq
    have hnumber := m.number_eq hseq
    have h0 : s.inSeq ≤ s'.inSeq → m.number ≠ 0 := by
      intro hle hz
      rcases hcase with ⟨-, -, hne⟩ | ⟨hin, -, -⟩
      · exact hne (hnumber ▸ hz)
      · rw [hin, ← hnumber, hz] at hle
        exact UInt64.not_lt.mpr hle hpos
    cases hd : step.disconnect with
    | true =>
      rw [if_pos hd] at hback
      intro h hh
      obtain rfl := List.mem_singleton.mp hh
      exact h0 (hback _ hh)
    | false =>
      rw [if_neg (by rw [hd]; exact Bool.false_ne_true)] at hback
      obtain ⟨hle, hback⟩ := List.forall_mem_cons.mp hback
      exact List.forall_mem_cons.mpr ⟨h0 hle, ih (fun hs' => hstate (hstay hd hs'))
        (UInt64.lt_of_lt_of_le hpos hle) hback⟩

/-- A Logon accepted: the session is on and has taken its number. -/
theorem handleMessage_logon {s s' : Session} {logon : Message} {step : SessionStep}
    {seq : SeqNum} (hstate : s.state = .disconnected)
    (h : s.handleMessage logon = .ok (s', step)) (haccept : step.disconnect = false)
    (hseq : logon.seq = .ok seq) : s'.state = .loggedIn ∧ s'.inSeq = seq := by
  cases handleMessage_receives h with
  | refused hoff ht => cases haccept
  | misdirected hoff ht hf => cases haccept
  | admitted hseq' hoff ht hf =>
    rw [hseq] at hseq'
    exact ⟨rfl, (Except.ok.inj hseq').symm⟩
  | gap hseq hon h => exact absurd hstate hon
  | low hseq hon h h0 => exact absurd hstate hon
  | taken hseq hon h hd => exact absurd hstate hon

/-- **The law of the sequence holds exactly on the runs whose messages all
have numbers**, in a session that accepted a Logon with number `seq`. -/
theorem handleAll_sequenced_iff (s₀ s : Session) (logon : Message) (step : SessionStep)
    (seq : SeqNum) (ms : List Message) (hstate : s₀.state = .disconnected)
    (hlogon : s₀.handleMessage logon = .ok (s, step)) (haccept : step.disconnect = false)
    (hseq : logon.seq = .ok seq) (hpos : 1 ≤ seq) :
    Sequenced seq (s.handleAll ms) ↔ ∀ h ∈ s.handleAll ms, h.msg.number ≠ 0 := by
  obtain ⟨hon, hin⟩ := handleMessage_logon hstate hlogon haccept hseq
  have hne : s.state ≠ .disconnected := by rw [hon]; exact fun h => by cases h
  constructor
  · intro h
    refine numbered_of_never_back hne ?_ h.never_back
    rw [hin]
    exact UInt64.lt_of_lt_of_le (by decide) hpos
  · intro h
    exact hin ▸ sequenced_of_numbered hne h

/-- A Logon to the tests' session, with number 1. -/
def testLogon : Message :=
  ⟨addFields ∅ [(Tag.msgType, MsgType.logon), (Tag.senderCompID, ascii "C"),
    (Tag.targetCompID, ascii "OBFIX"), (Tag.msgSeqNum, ascii "1"), (108, ascii "30")]⟩

/-- An order, with or without a number. -/
def orderWith (number : Body) : Message :=
  ⟨addFields ∅ ((Tag.msgType, MsgType.newOrderSingle) :: number)⟩

/-- The tests' session after it. -/
def loggedOn : Session := (testSession.admitLogon testLogon 1).1

/-- A gap and a low number leave the law as it is. -/
theorem handleAll_sequenced_gap_and_low :
    Sequenced 1 (loggedOn.handleAll
      [orderWith [(Tag.msgSeqNum, ascii "2")], orderWith [(Tag.msgSeqNum, ascii "7")],
        orderWith [(Tag.msgSeqNum, ascii "3")], orderWith [(Tag.msgSeqNum, ascii "3")],
        orderWith []]) :=
  (handleAll_sequenced_iff testSession loggedOn testLogon
    (testSession.admitLogon testLogon 1).2 1 _ rfl (by rw [handleMessage]; rfl)
    (by decide +kernel) (by decide +kernel) (by decide)).mpr (by decide +kernel)

/-- **An order without a number is taken and sets the session back**: the
number 1 of the Logon is then taken again. -/
theorem unnumbered_order_goes_back :
    testSession.handleMessage testLogon =
        .ok (loggedOn, (testSession.admitLogon testLogon 1).2) ∧
      (testSession.admitLogon testLogon 1).2.disconnect = false ∧
      dispatched (loggedOn.handleAll
        [orderWith [(Tag.msgSeqNum, ascii "2")], orderWith [],
          orderWith [(Tag.msgSeqNum, ascii "1")]]) = [2, 0, 1] ∧
      ¬ Sequenced 1 (loggedOn.handleAll
        [orderWith [(Tag.msgSeqNum, ascii "2")], orderWith [],
          orderWith [(Tag.msgSeqNum, ascii "1")]]) := by
  have hdisp : dispatched (loggedOn.handleAll
      [orderWith [(Tag.msgSeqNum, ascii "2")], orderWith [],
        orderWith [(Tag.msgSeqNum, ascii "1")]]) = [2, 0, 1] := by decide +kernel
  refine ⟨by rw [handleMessage]; rfl, by decide +kernel, hdisp, fun h => ?_⟩
  have := h.increasing
  rw [hdisp] at this
  exact absurd this (by decide)

end Session

end Fix

end OrderbookFix
