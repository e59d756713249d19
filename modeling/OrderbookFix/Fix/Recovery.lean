import OrderbookFix.Fix.Helpers.Takeable
/-!
# Recovery from a gap

A session that has missed messages asks for all of them, and takes the
answer as it takes anything: a replay for the message it repeats, and a
GapFill for one message of its own number. The NewSeqNo of a GapFill is
not looked at. So messages the peer no longer holds are made up for where
there is at most one of them; where there are more, every replay is past a
gap again, and the session goes on asking.
-/

namespace OrderbookFix

namespace Fix

/-- The field that marks a message sent once more. -/
def possDupField (soh : Soh) : Bytes := soh.byte :: field soh.byte (Tag.possDupFlag, ascii "Y")

/-- **A ResendRequest** that is not itself sent once more. -/
def IsNewRequest (soh : Soh) (w : WireOut) : Prop :=
  IsType soh MsgType.resendRequest w ∧ ¬ possDupField soh <:+: w

instance (soh : Soh) (w : WireOut) : Decidable (IsNewRequest soh w) :=
  inferInstanceAs (Decidable (_ ∧ _))

namespace Session

/-! ## Taking a message -/

section Take

variable {s s' : Session} {m : Message} {seq : SeqNum} {step : SessionStep}

theorem not_isNewRequest_sent {mt : Bytes} {rest : Body} (htags : PlainTags (rest.map Prod.fst))
    (hmt : s.soh.byte ∉ mt) (hne : mt ≠ MsgType.resendRequest) :
    ¬ IsNewRequest s.soh (build s.soh (s.wireBody ((Tag.msgType, mt) :: rest))) := by
  intro hnew
  have htype := hnew.1
  rw [wireBody_eq htags] at htype
  exact hne ((isType_build (by decide) htype).2 hmt)

theorem possDup_infix_buildReplay (rec : OutboundRecord) :
    possDupField s.soh <:+: (s.buildReplay rec m).2 := by
  rw [buildReplay_eq, replayBody, List.append_cons]
  exact field_infix_build s.soh _ [] _ _ _

/-- An answer to a ResendRequest has none of the session's own. -/
theorem not_isNewRequest_answer {start stop : SeqNum} {ws : List WireOut}
    (h : s.handleResendRequest start stop = .ok (s', ws)) :
    ∀ w ∈ ws, ¬ IsNewRequest s.soh w := by
  intro w hw hnew
  rcases mem_handleResendRequest h hw with ⟨newSeqNo, rfl⟩ | ⟨rec, -, pr, -, -, n, rfl⟩
  · have htype := (isType_build (by decide) hnew.1).2 (by cases s.soh <;> decide)
    exact absurd htype (by decide)
  · exact hnew.2 (@possDup_infix_buildReplay (s.asked n) pr.msg rec)

/-- **What taking a message leaves.** -/
structure Took (s s' : Session) (step : SessionStep) : Prop where
  soh : s'.soh = s.soh
  state : s'.state = s.state
  inSeq : s'.inSeq = s.inSeq
  stays : step.disconnect = false
  asks : ∀ w ∈ step.out, ¬ IsNewRequest s.soh w

/-- Every message but a Logout is taken and asks for nothing. -/
theorem Routes.took (h : Routes s m seq s' step) (ht : m.msgType ≠ MsgType.logout) :
    Took s s' step := by
  have hbeat : s.soh.byte ∉ MsgType.heartbeat ∧ s.soh.byte ∉ MsgType.reject := by
    cases s.soh <;> decide
  cases h with
  | quiet _ => exact ⟨rfl, rfl, rfl, rfl, fun _ hw => by cases hw⟩
  | testRequest _ =>
    refine ⟨rfl, rfl, rfl, rfl, fun w hw => ?_⟩
    rw [List.mem_singleton.mp hw]
    exact not_isNewRequest_sent (by decide : PlainTags [Tag.testReqID]) hbeat.1 (by decide)
  | resend _ _ _ hr =>
    have hasks := not_isNewRequest_answer hr
    obtain ⟨n, rfl⟩ := handleResendRequest_asked hr
    exact ⟨rfl, rfl, rfl, rfl, hasks⟩
  | acknowledge hlogout _ => exact absurd hlogout ht
  | acknowledged hlogout _ => exact absurd hlogout ht
  | app _ => exact ⟨rfl, rfl, rfl, rfl, fun _ hw => by cases hw⟩
  | unknown _ =>
    refine ⟨rfl, rfl, rfl, rfl, fun w hw => ?_⟩
    rw [List.mem_singleton.mp hw]
    exact not_isNewRequest_sent (by decide : PlainTags [Tag.refSeqNum, Tag.text]) hbeat.2
      (by decide)

/-- **The next message is taken.** -/
theorem Takeable.next {w : WireOut} (h : Takeable s.soh (s.inSeq + 1) w)
    (hon : s.state ≠ .disconnected) (hb : s.Built) (hf : s.Fits) :
    ∃ body s' step, w = build s.soh body ∧ Buildable s.soh.byte body ∧
      s.heard.handleMessage (readBack s.soh body) = .ok (s', step) ∧
      Took { s with inSeq := s.inSeq + 1 } s' step ∧ s'.Built := by
  obtain ⟨body, hw, hbody, hseq, htype, hrange⟩ := h
  have hclean : Clean s.soh.byte (readBack s.soh body).fields := fun t v hv =>
    parsedFields_values hbody (AList.mem_lookup_iff.mp hv)
  obtain ⟨⟨s', step⟩, hd⟩ :=
    (@dispatch_returns_iff { s.heard with inSeq := s.inSeq + 1 } (readBack s.soh body)
      (s.inSeq + 1) hb hf).mpr fun _ t ht v hv => hrange t ht v (mem_of_get hbody
        ((by decide : ∀ t ∈ [Tag.beginSeqNo, Tag.endSeqNo],
          t ∉ [Tag.checkSum, Tag.beginString, Tag.bodyLength]) t ht) hv)
  have hroutes := dispatch_routes hd
  obtain ⟨n, -, he⟩ := hroutes.dispatches.evolves (X := fun _ => True) hclean
  have htook := hroutes.took htype
  refine ⟨body, s', step, hw, hbody, ?_, ⟨htook.soh, htook.state, htook.inSeq, htook.stays,
    htook.asks⟩, he.built hb⟩
  exact (@handleMessage_next s.heard _ hon (seq_of_mem hbody hseq)).trans hd

end Take

/-! ## Consuming an answer -/

section Consume

variable {s : Session}

/-- **A stretch from the next number on is taken whole.** -/
theorem Stretch.consumes {count : ℕ} {ws : List WireOut}
    (h : Stretch s.soh (s.inSeq.toNat + 1) count ws) (hlast : s.inSeq.toNat + count < 2 ^ 64)
    (hon : s.state ≠ .disconnected) (hb : s.Built) (hlen : ws.flatten.length < 2 ^ 63) {fuel : ℕ}
    (hfuel : ws.flatten.length ≤ fuel)
    (hfits : Visits Session.next (fun s _ => s.Fits) fuel s ws.flatten) :
    ∃ steps s', Consumes s ws steps s' ∧ s'.inSeq.toNat = s.inSeq.toNat + count ∧
      ∀ step ∈ steps, ∀ w ∈ step.out, ¬ IsNewRequest s.soh w := by
  obtain ⟨ns, hall, hnums⟩ := h
  generalize hsoh : s.soh = soh at hall
  induction hall generalizing s count fuel with
  | nil =>
    have hcount : count = 0 := (List.range'_eq_nil_iff.mp hnums.symm)
    subst hcount
    exact ⟨[], s, .nil s, rfl, fun _ h => by cases h⟩
  | @cons n w ns ws hw hall ih =>
    subst hsoh
    obtain ⟨count, rfl⟩ : ∃ c, count = c + 1 := by
      rcases count with _ | c
      · cases hnums
      · exact ⟨c, rfl⟩
    rw [List.map_cons, List.range'_succ] at hnums
    obtain ⟨hn, htail⟩ := List.cons.inj hnums
    have hsucc : (s.inSeq + 1).toNat = s.inSeq.toNat + 1 := toNat_succ (by omega)
    obtain rfl : n = s.inSeq + 1 := UInt64.toNat_inj.mp (hn.trans hsucc.symm)
    -- the message is there, so the loop looks at it
    obtain ⟨fuel, rfl⟩ : ∃ k, fuel = k + 1 := by
      obtain ⟨body, rfl, -⟩ := hw
      have := length_build s.soh body
      rw [List.flatten_cons, List.length_append] at hfuel
      exact ⟨fuel - 1, by omega⟩
    obtain ⟨body, s₁, step, rfl, hbody, hh, htook, hb₁⟩ := hw.next hon hb hfits.1
    rw [List.flatten_cons] at hlen hfuel hfits
    have hfits₁ := hfits.2 _ _ _ (next_build hbody hlen hh htook.stays)
    rw [List.drop_left] at hfits₁
    rw [List.length_append] at hlen hfuel
    have hpos := length_build s.soh body
    have hin : s₁.inSeq.toNat = s.inSeq.toNat + 1 := by rw [htook.inSeq]; exact hsucc
    have hsoh₁ : s₁.soh = s.soh := htook.soh
    obtain ⟨steps, s', hc, hin', hasks⟩ := @ih s₁ count (by omega)
      (by rw [htook.state]; exact hon) hb₁ (by omega) fuel (by omega) hfits₁ (by rw [hin, htail])
      hsoh₁
    refine ⟨step :: steps, s', .cons hbody hh htook.stays hc, by omega, ?_⟩
    exact List.forall_mem_cons.mpr ⟨htook.asks, hasks⟩

/-- **Past a gap nothing is taken.** -/
theorem consumes_above {ns : List SeqNum} {ws : List WireOut}
    (h : List.Forall₂ (Takeable s.soh) ns ws) (hns : ∀ n ∈ ns, s.inSeq + 1 < n)
    (hon : s.state ≠ .disconnected) :
    ∃ steps s', Consumes s ws steps s' ∧ s'.inSeq = s.inSeq := by
  generalize hsoh : s.soh = soh at h
  induction h generalizing s with
  | nil => exact ⟨[], s, .nil s, rfl⟩
  | @cons n w ns ws hw hall ih =>
    subst hsoh
    obtain ⟨hn, hns⟩ := List.forall_mem_cons.mp hns
    obtain ⟨body, rfl, hbody, hseq, -⟩ := hw
    have hh := @handleMessage_gap s.heard _ _ hon (seq_of_mem hbody hseq) hn
    obtain ⟨steps, s', hc, hin⟩ := @ih (s.heard.sent (resendBody (s.inSeq + 1))) hns hon rfl
    exact ⟨_ :: steps, s', .cons hbody hh rfl hc, hin⟩

/-- **What becomes of an answer.** `oldest` is the first number the peer
still holds, `out` the last it has sent: the answer is taken whole where
the GapFill stands for no more than its own number. -/
theorem consumes_answer {out oldest : ℕ} {ws : List WireOut} (hout : s.inSeq.toNat + 2 ≤ out)
    (hbound : out < 2 ^ 64)
    (hall : oldest ≤ s.inSeq.toNat + 1 →
      Stretch s.soh (s.inSeq.toNat + 1) (out - s.inSeq.toNat) ws)
    (hsome : s.inSeq.toNat + 1 < oldest → ∃ w ws', ws = w :: ws' ∧
      Takeable s.soh (s.inSeq + 1) w ∧ Stretch s.soh oldest (out + 1 - oldest) ws')
    (hon : s.state ≠ .disconnected) (hb : s.Built) (hlen : ws.flatten.length < 2 ^ 63)
    (hfits : Visits Session.next (fun s _ => s.Fits) ws.flatten.length s ws.flatten) :
    ∃ steps s', Consumes s ws steps s' ∧
      ((s'.inSeq.toNat = out ∧ ∀ step ∈ steps, ∀ w ∈ step.out, ¬ IsNewRequest s.soh w) ↔
        oldest ≤ s.inSeq.toNat + 2) := by
  have hsucc : (s.inSeq + 1).toNat = s.inSeq.toNat + 1 := toNat_succ (by omega)
  by_cases hheld : oldest ≤ s.inSeq.toNat + 1
  · obtain ⟨steps, s', hc, hin, hasks⟩ :=
      (hall hheld).consumes (by omega) hon hb hlen (Nat.le_refl _) hfits
    exact ⟨steps, s', hc, fun _ => by omega, fun _ => ⟨by omega, hasks⟩⟩
  obtain ⟨w, ws', rfl, hw, ns, htakes, hnums⟩ := hsome (by omega)
  by_cases hone : oldest = s.inSeq.toNat + 2
  · -- the GapFill has the one number that is lost
    subst hone
    have hstretch : Stretch s.soh (s.inSeq.toNat + 1) (out - s.inSeq.toNat) (w :: ws') := by
      refine ⟨(s.inSeq + 1) :: ns, .cons hw htakes, ?_⟩
      have hcount : out - s.inSeq.toNat = out + 1 - (s.inSeq.toNat + 2) + 1 := by omega
      rw [List.map_cons, hsucc, hnums, hcount, List.range'_succ]
    obtain ⟨steps, s', hc, hin, hasks⟩ :=
      hstretch.consumes (by omega) hon hb hlen (Nat.le_refl _) hfits
    exact ⟨steps, s', hc, fun _ => by omega, fun _ => ⟨by omega, hasks⟩⟩
  · have hfit : s.Fits := by
      obtain ⟨body, rfl, -⟩ := hw
      have hpos := length_build s.soh body
      obtain ⟨k, hk⟩ : ∃ k, (build s.soh body :: ws').flatten.length = k + 1 := by
        rw [List.flatten_cons, List.length_append]
        exact ⟨(build s.soh body).length + ws'.flatten.length - 1, by omega⟩
      rw [hk] at hfits
      exact hfits.1
    obtain ⟨body, s₁, step, rfl, hbody, hh, htook, -⟩ := hw.next hon hb hfit
    have hsoh₁ : s₁.soh = s.soh := htook.soh
    have hin₁ : s₁.inSeq.toNat = s.inSeq.toNat + 1 := by rw [htook.inSeq]; exact hsucc
    obtain ⟨steps, s', hc, hin⟩ := @consumes_above s₁ ns ws' (hsoh₁ ▸ htakes)
      (fun n hn => by
        have hmem := List.mem_map_of_mem (f := UInt64.toNat) hn
        rw [hnums, List.mem_range'_1] at hmem
        refine UInt64.lt_iff_toNat_lt.mpr ?_
        rw [toNat_succ (by omega)]
        omega)
      (by rw [htook.state]; exact hon)
    refine ⟨step :: steps, s', .cons hbody hh htook.stays hc, fun h => ?_, fun h => ?_⟩
    · have := h.1
      rw [hin] at this
      omega
    · omega

end Consume

/-! ## Two sessions -/

/-- The ResendRequest of a session that finds a gap. -/
def gapRequest (s : Session) : WireOut := build s.soh (s.wireBody (resendBody (s.inSeq + 1)))

/-- **The answer to the request of a gap.** -/
theorem onBytes_gapRequest {a b : Session} (ha : Sound b.soh a) (hb : Sound b.soh b)
    (honb : b.state ≠ .disconnected) (hbuf : b.inBuf = []) (hnext : b.inSeq = a.outSeq)
    (hlen : a.gapRequest.length < 2 ^ 63) (hfit : b.Fits)
    (hgap : a.inSeq.toNat + 1 ≤ b.outSeq.toNat)
    (hlogout : ∀ rec ∈ b.history, a.inSeq < rec.seq → ¬ IsLogout b.soh rec.bytes) :
    ∃ b' ws, b.onBytes a.gapRequest = .ok (b', { out := ws }) ∧ b'.outSeq = b.outSeq ∧
      (b.oldestRetained.toNat ≤ a.inSeq.toNat + 1 →
        Stretch b.soh (a.inSeq.toNat + 1) (b.outSeq.toNat - a.inSeq.toNat) ws) ∧
      (a.inSeq.toNat + 1 < b.oldestRetained.toNat → ∃ w ws', ws = w :: ws' ∧
        Takeable b.soh (a.inSeq + 1) w ∧
        Stretch b.soh b.oldestRetained.toNat
          (b.outSeq.toNat + 1 - b.oldestRetained.toNat) ws') := by
  have hroom := hb.room
  have hsucc : (a.inSeq + 1).toNat = a.inSeq.toNat + 1 := toNat_succ (by omega)
  have hsoh := ha.soh_eq
  obtain ⟨hbody, hseq, hfields⟩ := wireBody_spec ha.ring (Own.resend (a.inSeq + 1)).plain
  rw [hsoh] at hbody
  have hzero : (Tag.endSeqNo, dec 0) ∈ a.wireBody (resendBody (a.inSeq + 1)) :=
    hfields _ (by rw [resendBody, (by decide : dec 0 = ascii "0")]; simp)
  -- the request is counted before it is answered
  have hcounted : Sound b.soh { b.heard with inSeq := b.inSeq + 1 } :=
    hb.of_sameRing ⟨rfl, rfl, rfl, rfl, rfl⟩
  obtain ⟨b', ws, hres, hall, hsome⟩ := @handleResendRequest_stretch
    { b.heard with inSeq := b.inSeq + 1 } hcounted hfit (a.inSeq + 1) (succ_ne_zero (by omega))
    (UInt64.le_iff_toNat_le.mpr (by rw [hsucc]; exact hgap)) (fun rec hrec hle => by
      refine hlogout rec hrec (UInt64.lt_iff_toNat_lt.mpr ?_)
      have hle' := UInt64.le_iff_toNat_le.mp hle
      omega)
  have hh : b.heard.handleMessage (readBack b.soh (a.wireBody (resendBody (a.inSeq + 1)))) =
      .ok (b', { out := ws }) := by
    refine (@handleMessage_next b.heard _ honb ?_).trans (dispatch_resend ?_ ?_ ?_ hres)
    · have hnumber := seq_of_mem hbody hseq
      rw [← hnext] at hnumber
      exact hnumber
    · exact msgType_of_mem hbody (hfields _ (List.mem_cons_self ..))
    · exact number_of_mem hbody (hfields _ (.tail _ (List.mem_cons_self ..)))
    · exact number_of_mem hbody hzero
  have hout : b'.outSeq = b.outSeq := by
    obtain ⟨n, rfl⟩ := handleResendRequest_asked hres
    rfl
  rw [hsucc] at hall hsome
  rw [gapRequest, hsoh] at hlen ⊢
  refine ⟨b'.withBuf [], ws, onBytes_build hbuf hbody hlen hh rfl, hout, fun hheld => ?_, hsome⟩
  have hstretch := hall hheld
  rwa [Nat.add_sub_add_right] at hstretch

/-- **Recovery from a gap.** `a₀` finds that it has missed messages of
`b` and asks for them. Once the answer is consumed, in whatever pieces it
comes, `in_seq` is where `b` was and nothing more was asked for, exactly
if at most one of the missed messages is no longer in the ring of `b`. -/
theorem gap_recovered_iff (soh : Soh) (a₀ a₁ a b : Session) (m : Message) (n : SeqNum)
    (step₀ : SessionStep) (ha₀ : Reached soh a₀) (hon₀ : a₀.state = .loggedIn)
    (hm : m.seq = .ok n) (hgap : a₀.inSeq.toNat + 1 < n.toNat)
    (hdetect : a₀.handleMessage m = .ok (a₁, step₀))
    (hb : Reached soh b) (honb : b.state = .loggedIn) (hbufb : b.inBuf = [])
    (hnext : b.inSeq = a₀.outSeq) (hn : n ≤ b.outSeq)
    (ha : Reached soh a) (hona : a.state = .loggedIn) (hbufa : a.inBuf = [])
    (hin : a.inSeq = a₀.inSeq)
    (hlogout : ∀ rec ∈ b.history, a.inSeq < rec.seq → ¬ IsLogout soh rec.bytes)
    (hrequest : a₀.gapRequest.length < 2 ^ 63) (hfit : b.Fits) :
    step₀.out = [a₀.gapRequest] ∧
      ∃ b' answer, b.onBytes a₀.gapRequest = .ok (b', answer) ∧ b'.outSeq = b.outSeq ∧
        (answer.out.flatten.length < 2 ^ 63 →
          Visits Session.next (fun s _ => s.Fits) answer.out.flatten.length a answer.out.flatten →
          ∀ chunks, chunks.flatten = answer.out.flatten →
            ∃ a' step, a.receive chunks = .ok (a', step) ∧
              ((a'.inSeq = b.outSeq ∧ ∀ w ∈ step.out, ¬ IsNewRequest soh w) ↔
                b.oldestRetained.toNat ≤ a.inSeq.toNat + 2)) := by
  have hsound₀ := ha₀.sound
  have hsound := ha.sound
  have hsoundb := hb.sound
  have hroom := hsoundb.room
  have hn' := UInt64.le_iff_toNat_le.mp hn
  have hsucc : (a₀.inSeq + 1).toNat = a₀.inSeq.toNat + 1 := toNat_succ (by omega)
  refine ⟨?_, ?_⟩
  · have hfound := handleMessage_gap (by rw [hon₀]; decide) hm
      (UInt64.lt_iff_toNat_lt.mpr (by rw [hsucc]; exact hgap))
    rw [hfound] at hdetect
    obtain ⟨-, rfl⟩ := Prod.mk.inj (Except.ok.inj hdetect)
    rfl
  · obtain rfl := hsoundb.soh_eq
    rw [hin] at hlogout
    obtain ⟨b', ws, hanswer, hout, hall, hsome⟩ := onBytes_gapRequest hsound₀ hsoundb
      (by rw [honb]; decide) hbufb hnext hrequest hfit (by omega) hlogout
    refine ⟨b', _, hanswer, hout, fun hlen hfits chunks hcut => ?_⟩
    rw [← hin, ← hsound.soh_eq] at hall hsome
    -- `a` counts a GapFill as one number, so it falls behind when it stands for more.
    obtain ⟨steps, a', hc, hiff⟩ := consumes_answer (by rw [hin]; omega) (by omega) hall hsome
      (by rw [hona]; decide) hsound.built hlen hfits
    refine ⟨_, _, hc.receive hbufa hlen hcut, ?_⟩
    rw [← hiff, SessionStep.out_mergeAll, ← UInt64.toNat_inj, hsound.soh_eq]
    refine and_congr Iff.rfl ?_
    simp only [List.mem_flatMap, forall_exists_index, and_imp]
    exact ⟨fun h step hstep w hw => h w step hstep hw, fun h w step hstep hw => h step hstep w hw⟩

/-! ## A gap of three messages -/

/-- The session of the tests, with a ring of a size. -/
def ringOf (size : ℕ) : Session :=
  makeSession { testSession.cfg with outboundHistorySize := size } .text .stored
    testSession.providers.now testSession.providers.clock

/-- A Logon, and the message with number 4 after it. -/
def missing : List Call := [.onBytes logonBytes, .onBytes (testRequestBytes "4")]

/-- A Logon, and three messages sent besides the answer. -/
def heartbeats : List Call := [.onBytes logonBytes, .sendHeartbeat, .sendHeartbeat, .sendHeartbeat]

theorem reached_ringOf {size : ℕ} {calls : List Call} {s : Session} {outs : List SessionStep}
    (hcalls : ∀ c ∈ calls, Orderly .text c)
    (hroom : Guarded perform (fun s c => s.outSeq.toNat + s.room c < 2 ^ 64 - 1) (ringOf size) calls)
    (hrun : run perform (ringOf size) calls = .ok (s, outs)) : Reached .text s :=
  ⟨_, _, _, _, calls, outs, (by decide : Soh.text.byte ∉ ascii "OBFIX"),
    (by decide : Soh.text.byte ∉ ascii "CLIENT"),
    fun _ => (by decide : Soh.text.byte ∉ ascii "20260513-00:00:00.000"), hcalls, hroom, hrun⟩

/-- Two sessions of such calls: one that has seen the Logon only, the
same once it has seen number 4, and one that has sent that. -/
theorem exists_of_missed {size : ℕ} {p : Session → Session → Session → Bool}
    (h : passes (fun r₀ => passes (fun r => passes (fun r' => p r₀.1 r.1 r'.1)
      (run perform (ringOf size) heartbeats)) (run perform (ringOf size) missing))
      (run perform (ringOf size) [.onBytes logonBytes]) = true) :
    ∃ a₀ outs₀ a outs b outs',
      run perform (ringOf size) [.onBytes logonBytes] = .ok (a₀, outs₀) ∧
      run perform (ringOf size) missing = .ok (a, outs) ∧
      run perform (ringOf size) heartbeats = .ok (b, outs') ∧ p a₀ a b = true := by
  obtain ⟨⟨a₀, outs₀⟩, hrun₀, h⟩ := passes_iff.mp h
  obtain ⟨⟨a, outs⟩, hrun, h⟩ := passes_iff.mp h
  obtain ⟨⟨b, outs'⟩, hrun', h⟩ := passes_iff.mp h
  exact ⟨a₀, outs₀, a, outs, b, outs', hrun₀, hrun, hrun', h⟩

/-- **A ring of two**: the GapFill has number 2, and 3 and 4 follow. -/
theorem gap_recovered_ring_of_two :
    ∃ a₀ outs₀ a outs b outs' b' answer a' step,
      run perform (ringOf 2) [.onBytes logonBytes] = .ok (a₀, outs₀) ∧
      run perform (ringOf 2) missing = .ok (a, outs) ∧
      run perform (ringOf 2) heartbeats = .ok (b, outs') ∧
      b.onBytes a₀.gapRequest = .ok (b', answer) ∧
      a.receive [answer.out.flatten] = .ok (a', step) ∧ a'.inSeq = b.outSeq ∧
      ∀ w ∈ step.out, ¬ IsNewRequest .text w := by
  obtain ⟨a₀, outs₀, a, outs, b, outs', hrun₀, hrun, hrun', hcheck⟩ := @exists_of_missed 2
    (fun a₀ a b => decide ((a₀.state = .loggedIn ∧ a₀.inSeq = 1 ∧ a₀.outSeq = 1 ∧
        a₀.gapRequest.length < 2 ^ 63) ∧ (a.state = .loggedIn ∧ a.inBuf = [] ∧ a.inSeq = 1) ∧
      (b.state = .loggedIn ∧ b.inBuf = [] ∧ b.inSeq = 1 ∧ b.outSeq = 4 ∧ b.oldestRetained = 3 ∧
        b.Fits ∧ ∀ rec ∈ b.history, ¬ IsLogout .text rec.bytes)) &&
      passes (fun r : Session × SessionStep => decide (r.2.out.flatten.length < 2 ^ 63 ∧
        Visits Session.next (fun s _ => s.Fits) r.2.out.flatten.length a r.2.out.flatten))
        (b.onBytes a₀.gapRequest)) (by decide +kernel)
  obtain ⟨hfacts, hsizes⟩ := Bool.and_eq_true_iff.mp hcheck
  obtain ⟨⟨hon₀, hin₀, hout₀, hlen₀⟩, ⟨hon, hbuf, hin⟩, honb, hbufb, hinb, houtb, hold, hfit,
    hlogout⟩ := of_decide_eq_true hfacts
  have hgap := @handleMessage_gap a₀
    ⟨addFields ∅ [(Tag.msgType, MsgType.testRequest), (Tag.msgSeqNum, ascii "4")]⟩ 4
    (by rw [hon₀]; decide) (by decide) (by rw [hin₀]; decide)
  obtain ⟨-, b', answer, hanswer, -, htaken⟩ := gap_recovered_iff .text a₀ _ a b _ 4 _
    (reached_ringOf (by simp [Orderly, Allowed, Call.report]) (by decide +kernel) hrun₀) hon₀
    (by decide) (by rw [hin₀]; decide) hgap
    (reached_ringOf (by simp [heartbeats, Orderly, Allowed, Call.report]) (by decide +kernel)
      hrun') honb hbufb (by rw [hinb, hout₀]) (by rw [houtb]; decide)
    (reached_ringOf (by simp [missing, Orderly, Allowed, Call.report]) (by decide +kernel) hrun)
    hon hbuf (by rw [hin, hin₀]) (fun rec hrec _ => hlogout rec hrec) hlen₀ hfit
  rw [hanswer] at hsizes
  obtain ⟨hlen, hfits⟩ := of_decide_eq_true hsizes
  obtain ⟨a', step, hreceive, hiff⟩ := htaken hlen hfits [answer.out.flatten] (by simp)
  obtain ⟨hseq, hasks⟩ := hiff.mpr (by rw [hold, hin]; decide)
  exact ⟨a₀, outs₀, a, outs, b, outs', b', answer, a', step, hrun₀, hrun, hrun', hanswer, hreceive,
    hseq, hasks⟩

/-- **A ring of one**: the GapFill stands for 2 and 3 but counts for 2,
and the replay of 4 is past a gap once more. -/
theorem gap_left_ring_of_one :
    ∃ a₀ outs₀ a outs b outs' b' answer a' step,
      run perform (ringOf 1) [.onBytes logonBytes] = .ok (a₀, outs₀) ∧
      run perform (ringOf 1) missing = .ok (a, outs) ∧
      run perform (ringOf 1) heartbeats = .ok (b, outs') ∧
      (a.state = .loggedIn ∧ b.state = .loggedIn ∧ b.inSeq = a₀.outSeq ∧
        ∀ rec ∈ b.history, ¬ IsLogout .text rec.bytes) ∧
      b.onBytes a₀.gapRequest = .ok (b', answer) ∧
      a.receive [answer.out.flatten] = .ok (a', step) ∧ a'.inSeq = 2 ∧ b.outSeq = 4 ∧
      ∃ w ∈ step.out, IsNewRequest .text w := by
  obtain ⟨a₀, outs₀, a, outs, b, outs', hrun₀, hrun, hrun', hcheck⟩ := @exists_of_missed 1
    (fun a₀ a b => decide ((a.state = .loggedIn ∧ b.state = .loggedIn ∧ b.inSeq = a₀.outSeq ∧
        ∀ rec ∈ b.history, ¬ IsLogout .text rec.bytes) ∧ b.outSeq = 4) &&
      passes (fun r : Session × SessionStep =>
        passes (fun q : Session × SessionStep => decide (q.1.inSeq = 2 ∧
          ∃ w ∈ q.2.out, IsNewRequest .text w)) (a.receive [r.2.out.flatten]))
        (b.onBytes a₀.gapRequest)) (by decide +kernel)
  obtain ⟨hfacts, hanswer⟩ := Bool.and_eq_true_iff.mp hcheck
  obtain ⟨hstates, hout⟩ := of_decide_eq_true hfacts
  obtain ⟨⟨b', answer⟩, hanswer, hreceive⟩ := passes_iff.mp hanswer
  obtain ⟨⟨a', step⟩, hreceive, hq⟩ := passes_iff.mp hreceive
  obtain ⟨hin, hasks⟩ := of_decide_eq_true hq
  exact ⟨a₀, outs₀, a, outs, b, outs', b', answer, a', step, hrun₀, hrun, hrun', hstates, hanswer,
    hreceive, hin, hout, hasks⟩

end Session

end Fix

end OrderbookFix
