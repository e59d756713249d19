import OrderbookFix.Common.Run
import OrderbookFix.Fix.Helpers.Answer
import OrderbookFix.Fix.Helpers.Timers
/-!
# When input is decoded or refused

Whatever passes the framing reaches the conversions of tags 34, 7 and 16.
Those raise where a field does not start with a numeral, and take the
number a field starts with whatever follows it. So `on_bytes` returns,
and refuses whatever it cannot decode, exactly if no length field wraps
and each field it converts is a numeral, or one that starts with one in a
message that is refused for another reason. The messages the session kept
are never in the way: they were built with a true length.
-/

namespace OrderbookFix

namespace Fix

open Bytes

/-- **A numeral of 64 bits**: digits and nothing else. -/
def Numeral (v : Bytes) : Prop :=
  v ≠ [] ∧ (∀ c ∈ v, isDigit c = true) ∧ digitsValue v < 2 ^ 64

/-- **A field `std::stoull` accepts**: digits after blanks and a sign,
for a number of 64 bits, whatever follows them. -/
def Convertible (v : Bytes) : Prop :=
  (scanNumber v).2 ≠ [] ∧ digitsValue (scanNumber v).2 < 2 ^ 64

section Decide

variable (v : Bytes)

instance : Decidable (Numeral v) := inferInstanceAs (Decidable (_ ∧ _))

instance : Decidable (Convertible v) := inferInstanceAs (Decidable (_ ∧ _))

end Decide

theorem stoull_returns_iff {v : Bytes} : (∃ n, stoull v = .ok n) ↔ Convertible v := by
  rw [stoull, Convertible]
  rcases scanNumber v with ⟨neg, ds⟩
  dsimp only
  split_ifs with hnil hlt
  · constructor
    · rintro ⟨_, h⟩
      cases h
    · exact fun h => absurd hnil h.1
  · exact ⟨fun _ => ⟨hnil, hlt⟩, fun _ => ⟨_, rfl⟩⟩
  · exact ⟨fun _ => ⟨hnil, hlt⟩, fun _ => ⟨_, rfl⟩⟩
  · constructor
    · rintro ⟨_, h⟩
      cases h
    · exact fun h => absurd h.2 hlt

namespace Session

/-! ## Fields and rounds -/

/-- **The number fields the session reads** of a message: its MsgSeqNum,
and the range of a ResendRequest that it takes. -/
def numberTags (s : Session) (m : Message) : List Int :=
  Tag.msgSeqNum :: if s.TakesResend m then [Tag.beginSeqNo, Tag.endSeqNo] else []

/-- Each of them that is there has a property. -/
def EachNumber (s : Session) (m : Message) (P : Bytes → Prop) : Prop :=
  ∀ t ∈ s.numberTags m, ∀ v, m.get t = some v → P v

/-- **A round that read what cannot be decoded**: no message, or one with
a number field that is no numeral. -/
def Garbled (r : Turn) : Prop :=
  ∀ m, Turn.message r = some m → ¬ r.before.EachNumber m Numeral

/-- **A round that refuses what it read**: it disconnects, or sends a
Reject or a Logout. A message that is sent again is neither, whatever
its type: the session takes no number for it. -/
def Refuses (r : Turn) : Prop :=
  r.out.disconnect = true ∨
    r.after.outSeq = r.before.outSeq + 1 ∧ ∃ w ∈ r.out.out,
      StartsWith r.before.soh MsgType.reject w ∨ StartsWith r.before.soh MsgType.logout w

/-- **A message that is refused whatever its fields look like**: the first
of a connection, if it is no Logon or one to someone else; one with a
number too low; and, in sequence or without a number, a Logout and one of
no known type. -/
def Unwelcome (s : Session) (m : Message) : Prop :=
  if s.state = .disconnected then
    m.msgType ≠ MsgType.logon ∨ (m.get Tag.targetCompID).any (· ≠ s.cfg.senderCompId) = true
  else
    m.number < s.inSeq + 1 ∧ m.number ≠ 0 ∨
      (m.number = s.inSeq + 1 ∨ m.number = 0) ∧
        (m.msgType = MsgType.logout ∨ m.msgType ∉ knownTypes)

/-- The ring holds messages the session built. -/
def Built (s : Session) : Prop := ∀ rec ∈ s.history, ∃ body, rec.bytes = build s.soh body

/-- The ring's strings fit strings. -/
def Fits (s : Session) : Prop := ∀ rec ∈ s.history, rec.bytes.length < 2 ^ 63

instance (s : Session) : Decidable s.Fits :=
  inferInstanceAs (Decidable (∀ rec ∈ s.history, rec.bytes.length < 2 ^ 63))

theorem number_returns_iff {m : Message} {t : Int} :
    (∃ n, number m t = .ok n) ↔ ∀ v, m.get t = some v → Convertible v := by
  rw [number]
  rcases m.get t with _ | v
  · exact ⟨fun _ _ h => (by cases h), fun _ => ⟨0, rfl⟩⟩
  · refine stoull_returns_iff.trans ⟨fun h v' hv' => Option.some.inj hv' ▸ h, fun h => h v rfl⟩

theorem seq_returns_iff {m : Message} :
    (∃ n, m.seq = .ok n) ↔ ∀ v, m.get Tag.msgSeqNum = some v → Convertible v :=
  number_returns_iff (t := Tag.msgSeqNum)

/-- What the session built is read without a fault. -/
theorem parse_history_returns {s : Session} (hb : s.Built) (hf : s.Fits) :
    ∀ rec ∈ s.history, ∃ r, parseOne s.soh rec.bytes = .ok r := by
  intro rec hrec
  obtain ⟨body, hbody⟩ := hb rec hrec
  have hlen := hf rec hrec
  rw [hbody] at hlen ⊢
  exact parseOne_build_returns (by omega)

/-- A ResendRequest is answered, whatever it asks for. -/
theorem handleResendRequest_returns {s : Session} (hb : s.Built) (hf : s.Fits)
    (start stop : SeqNum) : ∃ r, s.handleResendRequest start stop = .ok r := by
  obtain ⟨s', ws, h, -⟩ := handleResendRequest_answer (parse_history_returns hb hf)
  exact ⟨_, h⟩

theorem dispatch_returns_iff {s : Session} {m : Message} {seq : SeqNum} (hb : s.Built)
    (hf : s.Fits) :
    (∃ r, s.dispatch m seq = .ok r) ↔ (m.msgType = MsgType.resendRequest →
      ∀ t ∈ [Tag.beginSeqNo, Tag.endSeqNo], ∀ v, m.get t = some v → Convertible v) := by
  unfold dispatch
  dsimp only
  by_cases hmt : m.msgType = MsgType.resendRequest
  · have hrange : (∀ t ∈ [Tag.beginSeqNo, Tag.endSeqNo], ∀ v, m.get t = some v → Convertible v) ↔
        (∃ n, number m Tag.beginSeqNo = .ok n) ∧ ∃ n, number m Tag.endSeqNo = .ok n := by
      rw [number_returns_iff, number_returns_iff, List.forall_mem_cons, List.forall_mem_singleton]
    rw [hmt, if_neg (by decide), if_neg (by decide), if_pos rfl]
    simp only [forall_const]
    rw [hrange]
    rcases hstart : number m Tag.beginSeqNo with e | start
    · exact ⟨fun h => absurd h (not_returns_error e), fun h => absurd h.1 (not_returns_error e)⟩
    rcases hstop : number m Tag.endSeqNo with e | stop
    · exact ⟨fun h => absurd h (not_returns_error e), fun h => absurd h.2 (not_returns_error e)⟩
    refine ⟨fun _ => ⟨⟨start, rfl⟩, stop, rfl⟩, fun _ => ?_⟩
    obtain ⟨⟨s', ws⟩, hr⟩ := handleResendRequest_returns hb hf start stop
    exact ⟨_, by dsimp only; rw [hr]⟩
  · refine ⟨fun _ h => absurd h hmt, fun _ => ?_⟩
    rw [if_neg hmt]
    split_ifs <;> exact ⟨_, rfl⟩

theorem eachNumber_iff {s : Session} {m : Message} {P : Bytes → Prop} :
    s.EachNumber m P ↔ (∀ v, m.get Tag.msgSeqNum = some v → P v) ∧
      (s.TakesResend m → ∀ t ∈ [Tag.beginSeqNo, Tag.endSeqNo], ∀ v, m.get t = some v → P v) := by
  rw [EachNumber, numberTags, List.forall_mem_cons]
  refine and_congr_right fun _ => ?_
  split_ifs with ht
  · exact ⟨fun h _ => h, fun h => h ht⟩
  · exact ⟨fun _ h => absurd h ht, fun _ t h => (by cases h)⟩

/-- **A message is handled** exactly if its numbers can be converted. -/
theorem handleMessage_returns_iff {s : Session} {m : Message} (hb : s.Built) (hf : s.Fits) :
    (∃ r, s.handleMessage m = .ok r) ↔ s.EachNumber m Convertible := by
  rw [handleMessage, eachNumber_iff]
  have hseqs := @seq_returns_iff m
  rcases hseq : m.seq with e | seq
  · rw [hseq] at hseqs
    refine ⟨fun h => absurd h (not_returns_error e), fun h => ?_⟩
    exact absurd (hseqs.mpr h.1) (not_returns_error e)
  have hnumber := m.number_eq hseq
  have h34 := hseqs.mp ⟨seq, hseq⟩
  dsimp only
  by_cases hstate : s.state = .disconnected
  · rw [if_pos hstate]
    exact ⟨fun _ => ⟨h34, fun h => absurd hstate h.1⟩, fun _ => ⟨_, rfl⟩⟩
  rw [if_neg hstate]
  by_cases hgap : seq > s.inSeq + 1
  · rw [if_pos hgap]
    exact ⟨fun _ => ⟨h34, fun htakes => absurd htakes.2.2 (not_taken_of_gap hseq hgap)⟩,
      fun _ => ⟨_, rfl⟩⟩
  rw [if_neg hgap]
  by_cases hlow : seq < s.inSeq + 1 ∧ seq ≠ 0
  · rw [if_pos hlow]
    exact ⟨fun _ => ⟨h34, fun htakes => absurd htakes.2.2 (not_taken_of_low hseq hlow.1 hlow.2)⟩,
      fun _ => ⟨_, rfl⟩⟩
  rw [if_neg hlow]
  -- Neither ahead nor behind: only such a message is dispatched, so only its range is decoded.
  have htaken : m.number = s.inSeq + 1 ∨ m.number = 0 := by
    rw [hnumber]
    by_cases h0 : seq = 0
    · exact .inr h0
    · exact .inl (UInt64.le_antisymm (UInt64.not_lt.mp hgap)
        (UInt64.not_lt.mp fun hlt => hlow ⟨hlt, h0⟩))
  refine (dispatch_returns_iff (s := { s with inSeq := seq }) hb hf).trans ?_
  exact ⟨fun h => ⟨h34, fun htakes => h htakes.2.1⟩, fun h hmt => h.2 ⟨hstate, hmt, htaken⟩⟩

/-! ## What is refused -/

section Refused

variable {s s' s₁ : Session} {m : Message} {buf : Bytes} {step : SessionStep}

/-- Whether a message of the session's own is a refusal is told by its
type. -/
theorem refusal_iff {mt : Bytes} {rest : Body} (hsoh : s₁.soh = s.soh) (hmt : s.soh.byte ∉ mt)
    (htags : PlainTags (rest.map Prod.fst)) :
    (∃ w ∈ [build s.soh (s₁.wireBody ((Tag.msgType, mt) :: rest))],
      StartsWith s.soh MsgType.reject w ∨ StartsWith s.soh MsgType.logout w) ↔
      mt = MsgType.reject ∨ mt = MsgType.logout := by
  have hstarts : ∀ mt', StartsWith s.soh mt' (build s.soh (s₁.wireBody ((Tag.msgType, mt) :: rest)))
      ↔ mt = mt' := by
    intro mt'
    rw [← hsoh] at hmt ⊢
    exact startsWith_wire s₁ mt mt' rest hmt htags
  simp only [List.mem_singleton, exists_eq_left, hstarts]

/-- A round refuses by the type of the one message it sends. -/
theorem refuses_sent_iff {mt : Bytes} {rest : Body} (hsoh : s₁.soh = s.soh)
    (hseq : s'.outSeq = s.outSeq + 1) (hmt : s.soh.byte ∉ mt)
    (htags : PlainTags (rest.map Prod.fst)) :
    Refuses ⟨s, buf, ⟨[build s.soh (s₁.wireBody ((Tag.msgType, mt) :: rest))], [], false⟩, s'⟩ ↔
      mt = MsgType.reject ∨ mt = MsgType.logout := by
  rw [Refuses, ← refusal_iff hsoh hmt htags, or_iff_right Bool.false_ne_true]
  exact and_iff_right hseq

theorem Routes.refuses_iff {seq : SeqNum} (h : Routes { s.heard with inSeq := seq } m seq s' step) :
    Refuses ⟨s, buf, step, s'⟩ ↔ m.msgType = MsgType.logout ∨ m.msgType ∉ knownTypes := by
  have htypes : ∀ mt ∈ knownTypes, s.soh.byte ∉ mt := by cases s.soh <;> decide
  have hno : ∀ {mt : Bytes}, m.msgType = mt → mt ∈ knownTypes → mt ≠ MsgType.logout →
      ¬ (m.msgType = MsgType.logout ∨ m.msgType ∉ knownTypes) := by
    rintro _ rfl hmem hne (h | h)
    · exact hne h
    · exact h hmem
  -- nothing goes out, or only messages that are sent again
  have hquiet : step.disconnect = false → s'.outSeq = s.outSeq → ¬ Refuses ⟨s, buf, step, s'⟩ := by
    rintro hd hseq (h | ⟨h, -⟩)
    · rw [hd] at h
      cases h
    · rw [hseq] at h
      exact absurd (UInt64.left_eq_add.mp h) (by decide)
  cases h with
  | quiet ht =>
    refine iff_of_false (hquiet rfl rfl) ?_
    rcases of_decide_eq_true ht with ht | ht | ht
    · exact hno ht (by decide) (by decide)
    · exact hno ht (by decide) (by decide)
    · exact hno ht (by decide) (by decide)
  | testRequest ht =>
    refine (refuses_sent_iff rfl rfl (htypes _ (by decide)) ?_).trans ?_
    · exact (by decide : PlainTags [Tag.testReqID])
    · exact iff_of_false (by decide) (hno ht (by decide) (by decide))
  | resend ht _ _ hr =>
    obtain ⟨n, rfl⟩ := handleResendRequest_asked hr
    exact iff_of_false (hquiet rfl rfl) (hno ht (by decide) (by decide))
  | acknowledge ht _ => exact iff_of_true (.inl rfl) (.inl ht)
  | acknowledged ht _ => exact iff_of_true (.inl rfl) (.inl ht)
  | app ht =>
    refine iff_of_false (hquiet rfl rfl) ?_
    rcases of_decide_eq_true ht with ht | ht | ht
    · exact hno ht (by decide) (by decide)
    · exact hno ht (by decide) (by decide)
    · exact hno ht (by decide) (by decide)
  | unknown ht =>
    refine (refuses_sent_iff rfl rfl (htypes _ (by decide)) ?_).trans ?_
    · exact (by decide : PlainTags [Tag.refSeqNum, Tag.text])
    · exact iff_of_true (.inl rfl) (.inr ht)

/-- **Which messages are refused.** -/
theorem Receives.refuses_iff (h : Receives s.heard m s' step) :
    Refuses ⟨s, buf, step, s'⟩ ↔ s.Unwelcome m := by
  have htypes : ∀ mt ∈ [MsgType.logon, MsgType.resendRequest], s.soh.byte ∉ mt := by
    cases s.soh <;> decide
  have hlogon : PlainTags [108] := by decide
  have hrange : PlainTags [Tag.beginSeqNo, Tag.endSeqNo] := by decide
  rw [Unwelcome]
  cases h with
  | refused hoff ht =>
    rw [if_pos (show s.state = _ from hoff)]
    exact iff_of_true (.inl rfl) (.inl ht)
  | misdirected hoff ht hf =>
    rw [if_pos (show s.state = _ from hoff)]
    exact iff_of_true (.inl rfl) (.inr hf)
  | @admitted seq hseq hoff ht hf =>
    rw [if_pos (show s.state = _ from hoff)]
    have htype := @refusal_iff s (s.heard.accepting m seq) MsgType.logon
      [(108, decimalInt s.cfg.heartbeatSecs)] rfl (htypes _ (by decide)) hlogon
    refine iff_of_false ?_ ?_
    · rintro (h | ⟨-, h⟩)
      · cases h
      · exact absurd (htype.mp h) (by decide)
    · rintro (h | h)
      · exact h ht
      · exact absurd (hf.symm.trans h) (by decide)
  | @gap seq hseq hon hgap =>
    rw [if_neg (show s.state ≠ _ from hon)]
    have htype := @refuses_sent_iff s _ s.heard buf MsgType.resendRequest
      [(Tag.beginSeqNo, dec (s.inSeq + 1)), (Tag.endSeqNo, ascii "0")] rfl
      (show (s.heard.sent (resendBody (s.inSeq + 1))).outSeq = s.outSeq + 1 from rfl)
      (htypes _ (by decide)) hrange
    refine htype.trans (iff_of_false (by decide) ?_)
    rintro (⟨hlow, -⟩ | ⟨htaken, -⟩)
    · rw [m.number_eq hseq] at hlow
      exact UInt64.lt_asymm hgap hlow
    · exact not_taken_of_gap hseq hgap htaken
  | low hseq hon hlow h0 =>
    rw [if_neg (show s.state ≠ _ from hon), m.number_eq hseq]
    exact iff_of_true (.inl rfl) (.inl ⟨hlow, h0⟩)
  | @taken seq _ _ hseq hon htaken hd =>
    rw [if_neg (show s.state ≠ _ from hon)]
    have hnumber := m.number_eq hseq
    refine hd.refuses_iff.trans ⟨fun h => .inr ⟨hnumber ▸ htaken, h⟩, ?_⟩
    rintro (⟨hlow, h0⟩ | ⟨-, h⟩)
    · rw [hnumber] at hlow h0
      exact absurd (hnumber ▸ htaken) (not_taken_of_low hseq hlow h0)
    · exact h

end Refused

/-! ## The whole buffer -/

/-- **A buffer that is decoded or refused**: its length field does not
wrap, and where a message is at its front, the fields the session converts
can be converted, and are numerals unless the message is refused
anyway. -/
def Reads (s : Session) (buf : Bytes) : Prop :=
  ¬ Wraps s.soh buf ∧ ∀ r, parseOne s.soh buf = .ok r → r.err = .none →
    s.EachNumber r.msg Convertible ∧ (s.EachNumber r.msg Numeral ∨ s.Unwelcome r.msg)

/-- A message that is handled makes a round. -/
theorem next_of_message {s s' : Session} {buf : Bytes} {pr : ParseResult} {step : SessionStep}
    (hp : parseOne s.soh buf = .ok pr) (hnone : pr.err = .none)
    (hm : s.heard.handleMessage pr.msg = .ok (s', step)) :
    next s buf = .stop s' step ∨ ∃ n, next s buf = .take n s' step := by
  have hbuf : buf ≠ [] := by
    rintro rfl
    obtain rfl := Except.ok.inj hp
    cases hnone
  rw [next, if_neg hbuf, hp]
  dsimp only
  rw [hnone, if_neg (by decide), if_neg (by decide), hm]
  dsimp only
  split_ifs
  · exact .inl rfl
  · exact .inr ⟨_, rfl⟩

/-- No fault comes of a buffer exactly if it parses, and the message at
its front is handled. -/
theorem next_fails_iff {s : Session} {buf : Bytes} : (∀ e, next s buf ≠ .fail e) ↔
    ∃ pr, parseOne s.soh buf = .ok pr ∧
      (pr.err = .none → ∃ r, s.heard.handleMessage pr.msg = .ok r) := by
  by_cases hbuf : buf = []
  · subst hbuf
    exact ⟨fun _ => ⟨_, rfl, fun h => (by cases h)⟩, fun _ _ h => (by cases h)⟩
  rw [next, if_neg hbuf]
  rcases hp : parseOne s.soh buf with e | pr
  · refine ⟨fun h => absurd rfl (h e), ?_⟩
    rintro ⟨pr, h, -⟩
    cases h
  have hpr : (∃ pr', (.ok pr : Except Fault ParseResult) = .ok pr' ∧
      (pr'.err = .none → ∃ r, s.heard.handleMessage pr'.msg = .ok r)) ↔
      (pr.err = .none → ∃ r, s.heard.handleMessage pr.msg = .ok r) := by
    refine ⟨?_, fun h => ⟨pr, rfl, h⟩⟩
    rintro ⟨_, he, h⟩
    exact Except.ok.inj he ▸ h
  rw [hpr]
  dsimp only
  by_cases hinc : pr.err = .incomplete
  · rw [if_pos hinc]
    exact ⟨fun _ h => (by cases hinc.symm.trans h), fun _ _ h => (by cases h)⟩
  rw [if_neg hinc]
  by_cases herr : pr.err ≠ .none
  · rw [if_pos herr]
    exact ⟨fun _ h => absurd h herr, fun _ _ h => (by cases h)⟩
  rw [if_neg herr]
  rcases s.heard.handleMessage pr.msg with e | ⟨s', step⟩
  · exact ⟨fun h => absurd rfl (h e), fun h => absurd (h (not_not.mp herr)) (not_returns_error e)⟩
  · refine ⟨fun _ _ => ⟨_, rfl⟩, fun _ e => ?_⟩
    dsimp only
    split_ifs <;> exact fun h => by cases h

/-- **What a round needs**, for what it reads to be decoded or refused. -/
theorem proceeds_iff {s : Session} {buf : Bytes} (hb : s.Built) (hf : s.Fits)
    (hlen : buf.length < 2 ^ 63) :
    Proceeds (fun r => Garbled r → Refuses r) next s buf ↔ Reads s buf := by
  have hreturns : ∀ m, (∃ r, s.heard.handleMessage m = .ok r) ↔ s.EachNumber m Convertible :=
    fun m => @handleMessage_returns_iff s.heard m hb hf
  rw [Proceeds, Reads, ← parseOne_returns_iff hlen, next_fails_iff]
  constructor
  · rintro ⟨⟨pr, hp, hhandled⟩, hround⟩
    refine ⟨⟨pr, hp⟩, fun pr' hp' hnone => ?_⟩
    obtain rfl := Except.ok.inj (hp.symm.trans hp')
    obtain ⟨⟨s', step⟩, hm⟩ := hhandled hnone
    refine ⟨(hreturns _).mp ⟨_, hm⟩, or_iff_not_imp_left.mpr fun hgarbled => ?_⟩
    refine (handleMessage_receives hm).refuses_iff.mp
      (hround s' step (next_of_message hp hnone hm) fun m hmsg => ?_)
    obtain rfl := Option.some.inj ((message_eq_some hp hnone).symm.trans hmsg)
    exact hgarbled
  · rintro ⟨⟨pr, hp⟩, hread⟩
    refine ⟨⟨pr, hp, fun hnone => (hreturns _).mpr (hread pr hp hnone).1⟩,
      fun s' step hnext hgarbled => ?_⟩
    have hturns : Turns s buf s' step := by
      rcases hnext with h | ⟨_, h⟩
      · exact (turns_of_stop h).1
      · exact turns_of_take h
    rcases hturns with ⟨hp', herr⟩ | ⟨hp', hnone, hm⟩
    · exact .inl rfl
    · refine (handleMessage_receives hm).refuses_iff.mpr ((hread _ hp' hnone).2.resolve_left ?_)
      exact hgarbled _ (message_eq_some hp' hnone)

/-! ## Runs -/

theorem sent_built {s : Session} {body : Body} (h : s.Built) : (s.sent body).Built := by
  intro rec hrec
  rcases mem_history_sent hrec with hold | hnew
  · exact h rec hold
  · exact ⟨_, hnew⟩

theorem Evolves.built {X : Body → Prop} {s s' : Session} {n : ℕ} (he : Evolves X s n s')
    (h : s.Built) : s'.Built := by
  induction he with
  | refl => exact h
  | idle _ hs ih =>
    intro rec hrec
    rw [hs.history] at hrec
    rw [hs.soh]
    exact ih rec hrec
  | send _ _ ih => exact sent_built ih
  | clear _ _ => exact fun _ h => by cases h
  | adopt _ _ ih => exact ih

/-- Every call keeps the ring one of messages the session built. -/
theorem perform_built {s s' : Session} {c : Call} {outs : List SessionStep} (hb : s.Built)
    (h : s.perform c = .ok (s', outs)) : s'.Built := by
  by_cases hreset : c = .resetSeq
  · subst hreset
    obtain ⟨rfl, -⟩ := Prod.mk.inj (Except.ok.inj h)
    exact hb
  · obtain ⟨n, -, he⟩ := perform_evolves (X := fun _ => True) h hreset (fun _ _ => trivial)
      fun _ _ => trivial
    exact he.built hb

/-- **When input is decoded or refused.** In every session that calls
reach, `on_bytes` returns and every round of it that read what cannot be
decoded refuses it, exactly if every buffer its loop looks at is decoded
or refused. The sizes are those strings have. -/
theorem onBytes_total_iff (cfg : SessionConfig) (soh : Soh) (order : FieldOrder)
    (now : ℕ → Bytes) (clock : ℕ → Int) (calls : List Call) (s : Session)
    (outs : List SessionStep) (data : Bytes)
    (hrun : run perform (makeSession cfg soh order now clock) calls = .ok (s, outs))
    (hsize : (s.inBuf ++ data).length < 2 ^ 63)
    (hfits : Visits next (fun s _ => s.Fits) (s.inBuf ++ data).length s (s.inBuf ++ data)) :
    ((∃ r, s.onBytes data = .ok r) ∧ ∀ r ∈ s.turns data, Garbled r → Refuses r) ↔
      Visits next Reads (s.inBuf ++ data).length s (s.inBuf ++ data) := by
  have hbuilt : s.Built := run_preserves (fun _ _ _ _ => perform_built)
    (fun _ h => absurd h List.not_mem_nil) hrun
  have hshows := onBytes_shows s s.inBuf data
  rw [withBuf_inBuf] at hshows
  rw [← hshows.returns_iff, pumpAll, turns, pump_returns_iff]
  refine visits_congr (J := fun s buf => s.Built ∧ buf.length < 2 ^ 63)
    (fun s buf hJ hS => proceeds_iff hJ.1 hS hJ.2) (fun s buf n s' out hJ hv => ?_)
    ⟨hbuilt, hsize⟩ hfits
  obtain ⟨k, -, he⟩ := (turns_of_take hv).evolves (X := fun _ => True)
  refine ⟨he.built hJ.1, ?_⟩
  rw [List.length_drop]
  omega

/-- A Logon and a TestRequest in one read. -/
theorem onBytes_total_two_messages :
    ((∃ r, testSession.onBytes (logonBytes ++ testRequestBytes "2") = .ok r) ∧
      ∀ r ∈ testSession.turns (logonBytes ++ testRequestBytes "2"), Garbled r → Refuses r) ↔
      Visits next Reads (testSession.inBuf ++ (logonBytes ++ testRequestBytes "2")).length
        testSession (testSession.inBuf ++ (logonBytes ++ testRequestBytes "2")) :=
  onBytes_total_iff _ _ _ _ _ [] testSession [] _ rfl (by decide +kernel) (by decide +kernel)

/-- **A MsgSeqNum of letters raises**, in a session that is on; and one
that starts with the next number is taken for it, whatever follows: the
answer is a Heartbeat. -/
theorem letters_raise :
    ∃ s outs, run perform testSession [.onBytes logonBytes] = .ok (s, outs) ∧
      s.state = .loggedIn ∧ s.onBytes (testRequestBytes "abc") = .error .invalidArgument ∧
      ¬ Numeral (ascii "2junk") ∧
      ∃ s' step, s.onBytes (testRequestBytes "2junk") = .ok (s', step) ∧ s'.inSeq = 2 ∧
        step.disconnect = false ∧ step.out.length = 1 ∧
        ∀ w ∈ step.out, StartsWith s.soh MsgType.heartbeat w := by
  obtain ⟨s, outs, hrun, hcheck⟩ := @exists_of_run_check _ _ _ _ perform
    (fun r : Session × List SessionStep => decide (r.1.state = .loggedIn) &&
      raises .invalidArgument (r.1.onBytes (testRequestBytes "abc")) &&
      passes (fun q : Session × SessionStep => decide (q.1.inSeq = 2 ∧ q.2.disconnect = false ∧
        q.2.out.length = 1 ∧ ∀ w ∈ q.2.out, StartsWith r.1.soh MsgType.heartbeat w))
        (r.1.onBytes (testRequestBytes "2junk")))
    testSession [.onBytes logonBytes] (by decide +kernel)
  simp only [Bool.and_eq_true, decide_eq_true_eq] at hcheck
  obtain ⟨⟨hstate, herr⟩, hjunk⟩ := hcheck
  obtain ⟨⟨s', step⟩, hr, htaken⟩ := passes_iff.mp hjunk
  obtain ⟨hseq, hd, hone, hbeat⟩ := of_decide_eq_true htaken
  exact ⟨s, outs, hrun, hstate, raises_iff.mp herr, by decide, s', step, hr, hseq, hd, hone, hbeat⟩

end Session

end Fix

end OrderbookFix
