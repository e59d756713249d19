import OrderbookFix.Fix.Helpers.Reader
/-!
# What calls do to the ring

Whatever a call does, it reaches the outbound side of the session in few
ways: a message is sent, a Logon clears the ring, a peer's CompID is
adopted. A call is a chain of such moves, with a bound on the messages
sent, so an invariant of the ring is checked on the moves alone.
-/

namespace OrderbookFix

namespace Fix

/-- The tags of the standard header, and that of a GapFill. -/
def standardTags : List Int :=
  [Tag.beginString, Tag.bodyLength, Tag.checkSum, Tag.msgType, Tag.senderCompID,
    Tag.targetCompID, Tag.msgSeqNum, Tag.sendingTime, Tag.gapFillFlag]

/-- Tags of a message's own fields. -/
def PlainTags (tags : List Int) : Prop :=
  tags.Nodup ∧ ∀ t ∈ tags, 0 ≤ t ∧ t < 2 ^ 31 ∧ t ∉ standardTags

instance (tags : List Int) : Decidable (PlainTags tags) := inferInstanceAs (Decidable (_ ∧ _))

/-- **The body of an ordinary message**: MsgType first, then fields of
their own, and no value with the separator. -/
def Plain (soh : UInt8) (body : Body) : Prop :=
  ∃ mt rest, body = (Tag.msgType, mt) :: rest ∧ PlainTags (rest.map Prod.fst) ∧
    ∀ v ∈ mt :: rest.map Prod.snd, soh ∉ v

namespace Session

/-- Two sessions that are the same to their peer's ResendRequests. -/
structure SameRing (s s' : Session) : Prop where
  cfg : s'.cfg = s.cfg
  soh : s'.soh = s.soh
  now : s'.providers.now = s.providers.now
  outSeq : s'.outSeq = s.outSeq
  history : s'.history = s.history

/-- **The bodies a session builds on its own account.** What it copies
into them comes from messages that were parsed. -/
inductive Own (soh : Soh) : Body → Prop
  | heartbeat : Own soh [(Tag.msgType, MsgType.heartbeat)]
  | answer {m : Message} (hm : Clean soh.byte m.fields) : Own soh (heartbeatBody m)
  | testRequest (n : SeqNum) :
      Own soh [(Tag.msgType, MsgType.testRequest), (Tag.testReqID, ascii "tr-" ++ dec n)]
  | resend (start : SeqNum) : Own soh (resendBody start)
  | reject {m : Message} (seq : SeqNum) (hm : Clean soh.byte m.fields) : Own soh (rejectBody m seq)
  | logon (heartbeatSecs : Int) :
      Own soh [(Tag.msgType, MsgType.logon), (108, decimalInt heartbeatSecs)]
  | logout {text : Bytes} (ht : soh.byte ∉ text) : Own soh (logoutBody text)

/-- **A chain of moves** that sends `n` messages. `X` are the bodies that
come from outside. -/
inductive Evolves (X : Body → Prop) (s : Session) : ℕ → Session → Prop
  | refl : Evolves X s 0 s
  | idle {n : ℕ} {s₁ s₂ : Session} (h : Evolves X s n s₁) (hs : SameRing s₁ s₂) : Evolves X s n s₂
  | send {n : ℕ} {s₁ : Session} (h : Evolves X s n s₁) {body : Body}
      (hb : Own s₁.soh body ∨ X body) : Evolves X s (n + 1) (s₁.sent body)
  | clear {n : ℕ} {s₁ : Session} (h : Evolves X s n s₁) :
      Evolves X s n { s₁ with outSeq := 0, history := [] }
  | adopt {n : ℕ} {s₁ : Session} (h : Evolves X s n s₁) {target : Bytes}
      (ht : s₁.soh.byte ∉ target) :
      Evolves X s n { s₁ with cfg := { s₁.cfg with targetCompId := target } }

/-! ## Bodies of the session's own -/

section Bodies

variable {soh : Soh} {m : Message}

theorem notMem_dec (n : SeqNum) : soh.byte ∉ dec n := by
  intro h
  have := isDigit_of_mem_decimal h
  rw [isDigit_soh] at this
  cases this

theorem notMem_decimalInt (z : Int) : soh.byte ∉ decimalInt z := by
  have hdec : soh.byte ∉ decimal z.natAbs := by
    intro h
    have := isDigit_of_mem_decimal h
    rw [isDigit_soh] at this
    cases this
  rw [decimalInt]
  split_ifs
  · intro h
    rcases List.mem_cons.mp h with h | h
    · cases soh <;> exact absurd h (by decide)
    · exact hdec h
  · exact hdec

theorem notMem_get (hm : Clean soh.byte m.fields) (t : Int) : soh.byte ∉ (m.get t).getD [] := by
  rcases hv : m.get t with _ | v
  · exact List.not_mem_nil
  · exact hm t v hv

/-- The session's own bodies are ordinary. -/
theorem Own.plain {body : Body} (h : Own soh body) : Plain soh.byte body := by
  have hlit : ∀ v ∈ [MsgType.heartbeat, MsgType.testRequest, MsgType.resendRequest,
      MsgType.reject, MsgType.logon, MsgType.logout, ascii "tr-", ascii "0",
      ascii "unsupported MsgType="], soh.byte ∉ v := by
    cases soh <;> decide
  have hnil : ∀ v ∈ ([] : List Bytes), soh.byte ∉ v := fun _ h => by cases h
  simp only [List.forall_mem_cons] at hlit
  obtain ⟨hbeat, htest, hresend, hrej, hlogon, hlogout, htr, hzero, htext, -⟩ := hlit
  cases h with
  | heartbeat =>
    refine ⟨_, _, rfl, (by decide : PlainTags []), ?_⟩
    exact List.forall_mem_cons.mpr ⟨hbeat, hnil⟩
  | answer hm =>
    refine ⟨_, _, rfl, (by decide : PlainTags [Tag.testReqID]), ?_⟩
    simp only [List.map_cons, List.map_nil, List.forall_mem_cons]
    exact ⟨hbeat, notMem_get hm Tag.testReqID, hnil⟩
  | testRequest n =>
    refine ⟨_, _, rfl, (by decide : PlainTags [Tag.testReqID]), ?_⟩
    simp only [List.map_cons, List.map_nil, List.forall_mem_cons]
    exact ⟨htest, List.not_mem_append htr (notMem_dec n), hnil⟩
  | resend start =>
    refine ⟨_, _, rfl, (by decide : PlainTags [Tag.beginSeqNo, Tag.endSeqNo]), ?_⟩
    simp only [List.map_cons, List.map_nil, List.forall_mem_cons]
    exact ⟨hresend, notMem_dec start, hzero, hnil⟩
  | reject seq hm =>
    refine ⟨_, _, rfl, (by decide : PlainTags [Tag.refSeqNum, Tag.text]), ?_⟩
    simp only [List.map_cons, List.map_nil, List.forall_mem_cons]
    exact ⟨hrej, notMem_dec seq, List.not_mem_append htext (notMem_get hm Tag.msgType), hnil⟩
  | logon heartbeatSecs =>
    refine ⟨_, _, rfl, (by decide : PlainTags [108]), ?_⟩
    simp only [List.map_cons, List.map_nil, List.forall_mem_cons]
    exact ⟨hlogon, notMem_decimalInt heartbeatSecs, hnil⟩
  | logout ht =>
    refine ⟨_, _, rfl, (by decide : PlainTags [Tag.text]), ?_⟩
    simp only [List.map_cons, List.map_nil, List.forall_mem_cons]
    exact ⟨hlogout, ht, hnil⟩

end Bodies

/-! ## Calls -/

section Calls

variable {X : Body → Prop} {s s' s₁ s₂ : Session} {m : Message} {step : SessionStep} {n k : ℕ}

theorem Evolves.trans (h : Evolves X s n s₁) (h' : Evolves X s₁ k s₂) :
    Evolves X s (n + k) s₂ := by
  induction h' with
  | refl => exact h
  | idle _ hs ih => exact ih.idle hs
  | send _ hb ih => exact ih.send hb
  | clear _ ih => exact ih.clear
  | adopt _ ht ih => exact ih.adopt ht

theorem Evolves.soh_eq (h : Evolves X s n s') : s'.soh = s.soh := by
  induction h with
  | refl => rfl
  | idle _ hs ih => exact hs.soh.trans ih
  | send _ _ ih => exact ih
  | clear _ ih => exact ih
  | adopt _ _ ih => exact ih

/-- One move that leaves the ring alone. -/
theorem SameRing.evolves (h : SameRing s s') : Evolves X s 0 s' := Evolves.refl.idle h

/-- One message sent. -/
theorem sent_evolves {body : Body} (h : SameRing s s₁) (hb : Own s₁.soh body ∨ X body) :
    Evolves X s 1 (s₁.sent body) := h.evolves.send hb

/-- A Logout of our own. -/
theorem leaving_evolves {text : Bytes} (ht : s.soh.byte ∉ text) :
    Evolves X s 1 (s.leaving.sent (logoutBody text)) :=
  sent_evolves ⟨rfl, rfl, rfl, rfl, rfl⟩ (.inl (.logout ht))

theorem Dispatches.evolves {seq : SeqNum} (h : Dispatches s m seq s' step)
    (hm : Clean s.soh.byte m.fields) : ∃ n ≤ 1, Evolves X s n s' := by
  rcases h with _ | ⟨body, hb⟩ | ⟨n, ws⟩ | _ | _ | _
  · exact ⟨0, by omega, .refl⟩
  · refine ⟨1, by omega, sent_evolves ⟨rfl, rfl, rfl, rfl, rfl⟩ (.inl ?_)⟩
    rcases hb with rfl | rfl
    · exact .answer hm
    · exact .reject seq hm
  · exact ⟨0, by omega, SameRing.evolves ⟨rfl, rfl, rfl, rfl, rfl⟩⟩
  · refine ⟨1, by omega, .idle (leaving_evolves ?_) ⟨rfl, rfl, rfl, rfl, rfl⟩⟩
    cases s.soh <;> decide
  · exact ⟨0, by omega, SameRing.evolves ⟨rfl, rfl, rfl, rfl, rfl⟩⟩
  · exact ⟨0, by omega, .refl⟩

theorem Handles.evolves {seq : SeqNum} (h : Handles s m seq s' step)
    (hm : Clean s.soh.byte m.fields) : ∃ n ≤ 1, Evolves X s n s' := by
  rcases h with hgap | ⟨hlow, h0⟩ | ⟨htaken, hd⟩
  · exact ⟨1, by omega, sent_evolves ⟨rfl, rfl, rfl, rfl, rfl⟩ (.inl (.resend _))⟩
  · refine ⟨1, by omega, leaving_evolves ?_⟩
    cases s.soh <;> decide
  · obtain ⟨n, hn, he⟩ := hd.evolves hm
    have hin : SameRing s { s with inSeq := seq } := ⟨rfl, rfl, rfl, rfl, rfl⟩
    exact ⟨0 + n, by omega, hin.evolves.trans he⟩

theorem loggingOn_evolves : Evolves X s 0 s.loggingOn := by
  unfold loggingOn
  cases s.cfg.resetOnLogon with
  | true => exact .idle (.clear .refl) ⟨rfl, rfl, rfl, rfl, rfl⟩
  | false => exact SameRing.evolves ⟨rfl, rfl, rfl, rfl, rfl⟩

theorem accepting_evolves {seq : SeqNum} (hm : Clean s.soh.byte m.fields) :
    Evolves X s 0 (s.accepting m seq) := by
  unfold accepting
  rcases hv : m.get Tag.senderCompID with _ | v
  · exact loggingOn_evolves.idle ⟨rfl, rfl, rfl, rfl, rfl⟩
  · exact .idle (loggingOn_evolves.adopt (hm _ v hv)) ⟨rfl, rfl, rfl, rfl, rfl⟩

/-- **A parsed message sends at most one.** -/
theorem handleMessage_evolves (h : s.handleMessage m = .ok (s', step))
    (hm : Clean s.soh.byte m.fields) : ∃ n ≤ 1, Evolves X s n s' := by
  by_cases hstate : s.state = .disconnected
  · cases handleMessage_receives h with
    | refused hoff ht => exact ⟨0, by omega, .refl⟩
    | misdirected hoff ht hf => exact ⟨0, by omega, loggingOn_evolves⟩
    | admitted hseq hoff ht hf =>
      exact ⟨1, by omega, (accepting_evolves hm).send (.inl (.logon _))⟩
    | gap hseq hon h => exact absurd hstate hon
    | low hseq hon h h0 => exact absurd hstate hon
    | taken hseq hon h hd => exact absurd hstate hon
  · obtain ⟨seq, -, hh⟩ := handleMessage_cases hstate h
    exact hh.evolves hm

/-- A round of the reader sends at most one message. -/
theorem Turns.evolves {buf : Bytes} (h : Turns s buf s' step) : ∃ n ≤ 1, Evolves X s n s' := by
  have hheard : SameRing s s.heard := ⟨rfl, rfl, rfl, rfl, rfl⟩
  rcases h with ⟨hp, herr⟩ | ⟨hp, hnone, hm⟩
  · unfold sendLogout
    rw [buildMessage_eq]
    refine ⟨1, by omega, leaving_evolves ?_⟩
    cases s.soh <;> decide
  · obtain ⟨-, -, hclean⟩ := parseOne_none hp hnone
    obtain ⟨n, hn, he⟩ := handleMessage_evolves (X := X) hm hclean
    exact ⟨0 + n, by omega, hheard.evolves.trans he⟩

/-- **`on_bytes` sends at most one message for a byte.** -/
theorem onBytes_evolves {data : Bytes} (h : s.onBytes data = .ok (s', step)) :
    ∃ n ≤ s.inBuf.length + data.length, Evolves X s n s' := by
  have hround : ∀ (rs : List Turn) (s₁ : Session) (buf : Bytes) (s₂ : Session)
      (step : SessionStep), (∃ n ≤ rs.length, Evolves X s n s₁) → Turns s₁ buf s₂ step →
      ∃ n ≤ (rs ++ [(⟨s₁, buf, step, s₂⟩ : Turn)]).length, Evolves X s n s₂ := by
    rintro rs s₁ buf s₂ step ⟨n, hn, he⟩ hturn
    obtain ⟨n', hn', he'⟩ := hturn.evolves (X := X)
    exact ⟨n + n', by rw [List.length_append, List.length_singleton]; omega, he.trans he'⟩
  have hsame : ∀ (rs : List Turn) (s₁ : Session) (b : Bytes),
      (∃ n ≤ rs.length, Evolves X s n s₁) → ∃ n ≤ rs.length, Evolves X s n (s₁.withBuf b) := by
    rintro rs s₁ b ⟨n, hn, he⟩
    exact ⟨n, hn, he.idle ⟨rfl, rfl, rfl, rfl, rfl⟩⟩
  obtain ⟨-, hcase⟩ := onBytes_inv (J := fun rs s₁ _ => ∃ n ≤ rs.length, Evolves X s n s₁)
    (K := fun rs s₁ => ∃ n ≤ rs.length, Evolves X s n s₁)
    (fun rs s₁ b _ => hsame rs s₁ b) hsame
    (fun rs s₁ buf n s₂ step hj hn => hround rs s₁ buf s₂ step hj (turns_of_take hn))
    (fun rs s₁ buf s₂ step hj hn => hround rs s₁ buf s₂ step hj (turns_of_stop hn).1)
    ⟨0, Nat.le_refl _, .refl⟩ h
  have hlen := s.length_turns_le data
  rcases hcase with ⟨-, n, hn, he⟩ | ⟨-, n, hn, he⟩
  · exact ⟨n, Nat.le_trans hn hlen, he⟩
  · exact ⟨n, Nat.le_trans hn hlen, he⟩

theorem tick_evolves {now : Int} {step : SessionStep} (h : s.tick now = (s', step)) :
    ∃ n ≤ 1, Evolves X s n s' := by
  rcases tick_cases h with _ | hon | hon | hon
  · exact ⟨0, by omega, .refl⟩
  · have htest : Evolves X s 1 (s.sent s.testRequestBody) :=
      Evolves.refl.send (.inl (.testRequest _))
    exact ⟨1, by omega, htest.idle ⟨rfl, rfl, rfl, rfl, rfl⟩⟩
  · refine ⟨1, by omega, .idle (leaving_evolves ?_) ⟨rfl, rfl, rfl, rfl, rfl⟩⟩
    cases s.soh <;> decide
  · exact ⟨1, by omega, sent_evolves ⟨rfl, rfl, rfl, rfl, rfl⟩ (.inl .heartbeat)⟩

theorem perform_onBytes {data : Bytes} {outs : List SessionStep}
    (h : s.perform (.onBytes data) = .ok (s', outs)) :
    ∃ step, s.onBytes data = .ok (s', step) ∧ outs = [step] := by
  cases perform_cases h with
  | onBytes hb => exact ⟨_, hb, rfl⟩

/-- How many messages a call may send. -/
def room (s : Session) : Call → ℕ
  | .onBytes data => s.inBuf.length + data.length
  | _ => 1

/-- **Every call but `reset_seq` is a chain of moves.** -/
theorem perform_evolves {c : Call} {outs : List SessionStep}
    (h : s.perform c = .ok (s', outs)) (hreset : c ≠ .resetSeq)
    (hreport : ∀ body, c = .sendExecutionReport body →
      X ((Tag.msgType, MsgType.executionReport) :: body))
    (hlogout : ∀ text, c = .sendLogout text → X (logoutBody text)) :
    ∃ n ≤ s.room c, Evolves X s n s' := by
  cases perform_cases h with
  | initiateLogon =>
    exact ⟨1, Nat.le_refl _, sent_evolves ⟨rfl, rfl, rfl, rfl, rfl⟩ (.inl (.logon _))⟩
  | onBytes hb => exact onBytes_evolves hb
  | executionReport body =>
    exact ⟨1, Nat.le_refl _, sent_evolves ⟨rfl, rfl, rfl, rfl, rfl⟩ (.inr (hreport body rfl))⟩
  | heartbeat =>
    exact ⟨1, Nat.le_refl _, sent_evolves ⟨rfl, rfl, rfl, rfl, rfl⟩ (.inl .heartbeat)⟩
  | logout text =>
    exact ⟨1, Nat.le_refl _, sent_evolves ⟨rfl, rfl, rfl, rfl, rfl⟩ (.inr (hlogout text rfl))⟩
  | resetSeq => exact absurd rfl hreset
  | tick ht => exact tick_evolves ht

end Calls

end Session

end Fix

end OrderbookFix
