import OrderbookFix.Fix.Helpers.Answer
import OrderbookFix.Fix.Helpers.Written
import OrderbookFix.Fix.Resend
/-!
# Replays are faithful

What a session keeps parses back to the fields it was built from, as long
as nothing it writes holds the separator; so the replay of it, which goes
through a parse, a filter and the serializer, has those fields again. Its
number may have been given twice, after `reset_seq`, and then the walk
over the ring may stop early; what it does replay is faithful all the
same.
-/

namespace OrderbookFix

namespace Fix

/-- The fields a replay has of its own. -/
def replayTags : List Int :=
  [Tag.beginString, Tag.bodyLength, Tag.checkSum, Tag.possDupFlag, Tag.sendingTime,
    Tag.origSendingTime]

/-- **A message that repeats another**: it has PossDupFlag and the other's
SendingTime, and the fields of the other otherwise. -/
structure Repeats (orig copy : Message) : Prop where
  dup : copy.get Tag.possDupFlag = some (ascii "Y")
  time : ∃ t, orig.get Tag.sendingTime = some t ∧ copy.get Tag.origSendingTime = some t
  fields : ∀ t ∉ replayTags, copy.get t = orig.get t

/-- The bytes of a message whose body starts with its MsgType. -/
def StartsWith (soh : Soh) (mt w : Bytes) : Prop :=
  (writtenFields soh.byte w)[2]? = some ⟨ascii "35", mt⟩

instance (soh : Soh) (mt w : Bytes) : Decidable (StartsWith soh mt w) :=
  inferInstanceAs (Decidable (_ = _))

/-- **A faithful replay** of a message kept: both parse, start their bodies
with one MsgType, and the one repeats the other. -/
def FaithfulReplay (soh : Soh) (rec : OutboundRecord) (w : WireOut) : Prop :=
  ∃ orig copy mt, parseOne soh rec.bytes = .ok orig ∧ orig.err = .none ∧
    parseOne soh w = .ok copy ∧ copy.err = .none ∧ copy.consumed = w.length ∧
    orig.msg.get Tag.msgType = some mt ∧ StartsWith soh mt rec.bytes ∧ StartsWith soh mt w ∧
    Repeats orig.msg copy.msg

namespace Session

/-- **A message kept with its type first**, and its time. -/
def Retained (soh : Soh) (rec : OutboundRecord) : Prop :=
  ∃ mt rest, rec.bytes = build soh ((Tag.msgType, mt) :: rest) ∧
    Buildable soh.byte ((Tag.msgType, mt) :: rest) ∧ (Tag.sendingTime, rec.sendingTime) ∈ rest

/-- **A session that writes no separator and keeps what it wrote.** -/
structure Keeping (s : Session) : Prop extends Unbroken s where
  retained : ∀ rec ∈ s.history, Retained s.soh rec

/-! ## One replay -/

section Replay

variable {s : Session} {rec : OutboundRecord} {mt : Bytes} {rest : Body}

/-- **A message built with its type first starts with it**, and with no
other, whatever the fields behind it are. -/
theorem startsWith_build_iff {soh : Soh} {mt' : Bytes} (hmt : soh.byte ∉ mt) :
    StartsWith soh mt' (build soh ((Tag.msgType, mt) :: rest)) ↔ mt = mt' := by
  have h35 : decimalInt Tag.msgType = ascii "35" := by decide
  set len := decimal (fieldBytes soh.byte ((Tag.msgType, mt) :: rest)).length
  have hlen : soh.byte ∉ len := by
    intro h
    have hdigit := isDigit_of_mem_decimal h
    rw [isDigit_soh] at hdigit
    cases hdigit
  have hbegin : soh.byte ∉ ascii "FIX.4.4" := by cases soh <;> decide
  have hok : ∀ w ∈ writtenBody [(Tag.beginString, ascii "FIX.4.4"), (Tag.bodyLength, len),
      (Tag.msgType, mt)], w.Ok soh.byte := by
    simp only [writtenBody, List.map_cons, List.map_nil, List.forall_mem_cons]
    exact ⟨written_ok (by decide) hbegin, written_ok (by decide) hlen,
      written_ok (by decide) hmt, fun _ h => absurd h List.not_mem_nil⟩
  have hsplit : framed soh.byte ((Tag.msgType, mt) :: rest) =
    [(Tag.beginString, ascii "FIX.4.4"), (Tag.bodyLength, len), (Tag.msgType, mt)] ++ rest := rfl
  rw [StartsWith, build_eq, hsplit, fieldBytes, List.flatMap_append, List.append_assoc,
    ← fieldBytes, ← writtenBytes_writtenBody, writtenFields_append hok, ← h35]
  constructor
  · intro h
    exact congrArg Written.value (Option.some.inj h)
  · rintro rfl
    rfl

theorem startsWith_build {soh : Soh} (hb : Buildable soh.byte ((Tag.msgType, mt) :: rest)) :
    StartsWith soh mt (build soh ((Tag.msgType, mt) :: rest)) :=
  (startsWith_build_iff (hb.values _ (List.mem_cons_self ..))).mpr rfl

/-- A replay starts with the type of the original. -/
theorem replayBody_eq_cons (hb : Buildable s.soh.byte ((Tag.msgType, mt) :: rest)) :
    ∃ more, s.replayBody rec ⟨parsedFields s.soh.byte ((Tag.msgType, mt) :: rest)⟩ =
      (Tag.msgType, mt) :: more := by
  rw [replayBody, get_of_mem hb (List.mem_cons_self ..)]
  exact ⟨_, rfl⟩

/-- A replay has the fields of the original, but for those of its own. -/
theorem get_replay {body : Body}
    (hr : Buildable s.soh.byte (s.replayBody rec ⟨parsedFields s.soh.byte body⟩)) {t : Int}
    (ht : t ∉ replayTags) :
    (⟨parsedFields s.soh.byte (s.replayBody rec ⟨parsedFields s.soh.byte body⟩)⟩ : Message).get t =
      (⟨parsedFields s.soh.byte body⟩ : Message).get t := by
  have hframe : t ∉ [Tag.checkSum, Tag.beginString, Tag.bodyLength] := fun hmem =>
    ht ((by decide : ∀ t ∈ [Tag.checkSum, Tag.beginString, Tag.bodyLength], t ∈ replayTags) t hmem)
  refine Option.ext fun v => ⟨fun hv => ?_, fun hv => ?_⟩
  · -- what the replay has is copied, or one of the three fields added
    rcases mem_replayBody (mem_of_get hr hframe hv) with ⟨-, hentry⟩ | ⟨hentry, -⟩ | hown
    · exact AList.mem_lookup_iff.mpr hentry
    · exact AList.mem_lookup_iff.mpr hentry
    · exact absurd ((by decide : ∀ t ∈ [Tag.sendingTime, Tag.origSendingTime, Tag.possDupFlag],
        t ∈ replayTags) t (List.mem_map_of_mem (f := Prod.fst) hown)) ht
  · refine get_of_mem hr ?_
    by_cases hmt : t = Tag.msgType
    · subst hmt
      rw [replayBody, hv]
      exact List.mem_cons_self ..
    · refine List.mem_append_left _ (List.mem_append_right _ (mem_copied.mpr
        ⟨AList.mem_lookup_iff.mp hv, ?_⟩))
      simp only [replayTags, List.mem_cons, List.not_mem_nil, or_false, not_or] at ht
      simp [skipped, hmt, ht]

/-- **The replay of a message kept is faithful.** -/
theorem faithful_replayOf (hu : s.Unbroken) (hk : Retained s.soh rec)
    (hfit : rec.bytes.length < 2 ^ 64) {w : WireOut} (hw : s.ReplayOf rec w)
    (hlen : w.length < 2 ^ 64) : FaithfulReplay s.soh rec w := by
  obtain ⟨mt, rest, hbytes, hb, htime⟩ := hk
  obtain ⟨pr, n, hp, herr, rfl⟩ := hw
  have horig := parseOne_whole hb (by rwa [← hbytes])
  rw [← hbytes, hp] at horig
  obtain rfl := Except.ok.inj horig
  have hmem : (Tag.sendingTime, rec.sendingTime) ∈ (Tag.msgType, mt) :: rest :=
    List.mem_cons_of_mem _ htime
  have hr : Buildable s.soh.byte ((s.asked n).replayBody rec
      ⟨parsedFields s.soh.byte ((Tag.msgType, mt) :: rest)⟩) :=
    replayBody_buildable (s := s.asked n) hb hu.now (hb.values _ hmem)
  obtain ⟨more, hmore⟩ : ∃ more, (s.asked n).replayBody rec
      ⟨parsedFields s.soh.byte ((Tag.msgType, mt) :: rest)⟩ = (Tag.msgType, mt) :: more :=
    @replayBody_eq_cons (s.asked n) rec mt rest hb
  -- Both messages parse whole: fields are compared as the bodies they were built from.
  rw [buildReplay_eq] at hlen ⊢
  refine ⟨_, _, mt, hp, rfl, parseOne_whole hr hlen, rfl, rfl, ?_, ?_, ?_, ?_⟩
  · exact get_of_mem hb (List.mem_cons_self ..)
  · rw [hbytes]
    exact startsWith_build hb
  · change StartsWith s.soh mt (build s.soh ((s.asked n).replayBody rec
      ⟨parsedFields s.soh.byte ((Tag.msgType, mt) :: rest)⟩))
    rw [hmore] at hr ⊢
    exact startsWith_build hr
  · refine ⟨get_of_mem hr ?_, ⟨rec.sendingTime, get_of_mem hb hmem, get_of_mem hr ?_⟩,
      fun t ht => get_replay (s := s.asked n) hr ht⟩
    · exact List.mem_append_right _ (by simp)
    · exact List.mem_append_right _ (by simp)

end Replay

/-! ## Runs -/

section Runs

variable {s s' : Session}

/-- What a session keeps does not depend on its numbers. -/
theorem Keeping.of_eq (hk : s.Keeping) (hcfg : s'.cfg = s.cfg) (hsoh : s'.soh = s.soh)
    (hnow : s'.providers.now = s.providers.now) (hhistory : s'.history = s.history) :
    s'.Keeping where
  sender := by rw [hsoh, hcfg]; exact hk.sender
  target := by rw [hsoh, hcfg]; exact hk.target
  now n := by rw [hsoh, hnow]; exact hk.now n
  retained rec hrec := by
    rw [hhistory] at hrec
    rw [hsoh]
    exact hk.retained rec hrec

theorem Keeping.sent (hk : s.Keeping) {body : Body} (hb : Plain s.soh.byte body) :
    (s.sent body).Keeping where
  sender := hk.sender
  target := hk.target
  now := hk.now
  retained rec hrec := by
    obtain ⟨mt, rest, rfl, htags, hvalues⟩ := hb
    rcases mem_history_headed htags hrec with hold | rfl
    · exact hk.retained rec hold
    · exact ⟨mt, _, rfl, headed_buildable hk.toUnbroken htags hvalues, by simp [headedRecord]⟩

/-- **What is kept, under a chain of moves.** -/
theorem Evolves.keeping {X : Body → Prop} {n : ℕ} (he : Evolves X s n s') (hk : s.Keeping)
    (hX : ∀ body, X body → Plain s.soh.byte body) : s'.Keeping := by
  induction he with
  | refl => exact hk
  | idle _ hs ih => exact ih.of_eq hs.cfg hs.soh hs.now hs.history
  | send h hb ih => exact ih.sent (hb.elim Own.plain fun hx => h.soh_eq ▸ hX _ hx)
  | clear _ ih => exact ⟨⟨ih.sender, ih.target, ih.now⟩, fun _ hrec => by cases hrec⟩
  | adopt _ ht ih => exact ⟨⟨ih.sender, ht, ih.now⟩, ih.retained⟩

/-- A call that writes no separator keeps what is kept. -/
theorem perform_keeping {c : Call} {outs : List SessionStep} (hk : s.Keeping)
    (hc : Allowed s.soh c) (h : s.perform c = .ok (s', outs)) :
    s'.Keeping ∧ s'.soh = s.soh := by
  by_cases hreset : c = .resetSeq
  · subst hreset
    obtain ⟨rfl, -⟩ := Prod.mk.inj (Except.ok.inj h)
    exact ⟨hk.of_eq rfl rfl rfl rfl, rfl⟩
  · obtain ⟨n, -, he⟩ := hc.evolves hreset h
    exact ⟨he.keeping hk fun _ => id, he.soh_eq⟩

/-- **What is kept after a run.** -/
theorem run_keeping {calls : List Call} {outs : List SessionStep} (hk : s.Keeping)
    (hcalls : ∀ c ∈ calls, Allowed s.soh c) (hrun : run perform s calls = .ok (s', outs)) :
    s'.Keeping ∧ s'.soh = s.soh := by
  refine run_inv_returns (P := Allowed s.soh) (J := fun _ _ s₁ => s₁.Keeping ∧ s₁.soh = s.soh)
    (fun _ _ s₁ c s₂ out hJ hc hp => ?_) ⟨hk, rfl⟩ hcalls hrun
  obtain ⟨hkeep, hsoh⟩ := perform_keeping hJ.1 (hJ.2 ▸ hc) hp
  exact ⟨hkeep, hsoh.trans hJ.2⟩

end Runs

/-- A message kept parses. -/
theorem Retained.parses {soh : Soh} {rec : OutboundRecord} (hk : Retained soh rec)
    (hfit : rec.bytes.length < 2 ^ 64) : ∃ pr, parseOne soh rec.bytes = .ok pr ∧ pr.err = .none := by
  obtain ⟨mt, rest, hbytes, hb, -⟩ := hk
  exact parses_of_built hb hbytes hfit

/-- **Replays are faithful**, in every session that calls reach and for
every range: each message due is replayed, and the replay is faithful.
Where the numbers of the ring ascend, the messages due are those kept of
the range. The strings fit strings. -/
theorem replay_faithful (cfg : SessionConfig) (soh : Soh) (order : FieldOrder)
    (now : ℕ → Bytes) (clock : ℕ → Int) (calls : List Call) (s : Session)
    (outs : List SessionStep) (b e : SeqNum)
    (hsender : soh.byte ∉ cfg.senderCompId) (htarget : soh.byte ∉ cfg.targetCompId)
    (hnow : ∀ n, soh.byte ∉ now n) (hcalls : ∀ c ∈ calls, Allowed soh c)
    (hrun : run perform (makeSession cfg soh order now clock) calls = .ok (s, outs))
    (hfit : ∀ rec ∈ s.history, rec.bytes.length < 2 ^ 64) :
    ∃ s' ws, s.handleResendRequest b e = .ok (s', s.gapBytes (s.gapDue b e) ++ ws) ∧
      (s.replaysDue b e).Sublist s.history ∧
      (¬ s.Unasked b e → s.Ascending → s.replaysDue b e = s.history.filter fun rec =>
        b.toNat ≤ rec.seq.toNat ∧ rec.seq.toNat ≤ (s.lastWanted e).toNat) ∧
      ((∀ w ∈ ws, w.length < 2 ^ 64) → List.Forall₂ (FaithfulReplay soh) (s.replaysDue b e) ws) := by
  obtain ⟨hkeep, hsoh⟩ := run_keeping (s := makeSession cfg soh order now clock)
    ⟨⟨hsender, htarget, hnow⟩, fun _ h => by cases h⟩ hcalls hrun
  obtain ⟨s', ws, h, hws⟩ := @handleResendRequest_due s b e fun rec hrec =>
    (hkeep.retained rec hrec).parses (hfit rec hrec)
  refine ⟨s', ws, h, replaysDue_sublist, fun hasked hasc => replaysDue_eq_filter hasc hasked,
    fun hlens => forall₂_imp_mem hws fun rec hrec w hw hof => ?_⟩
  have hmem := replaysDue_sublist.subset hrec
  rw [← show s.soh = soh from hsoh]
  exact faithful_replayOf hkeep.toUnbroken (hkeep.retained rec hmem) (hfit rec hmem) hof
    (hlens w hw)

/-- A Logon, a report and a Heartbeat asked for again. -/
theorem replay_faithful_three_messages :
    ∃ s outs s' ws,
      run perform testSession
        [.onBytes logonBytes, .sendExecutionReport (Net.execReportForAck ⟨7, ⟨ascii "X"⟩⟩ 7),
          .sendHeartbeat] = .ok (s, outs) ∧
      s.handleResendRequest 1 0 = .ok (s', ws) ∧ s.history.length = 3 ∧
      List.Forall₂ (FaithfulReplay .text) s.history ws := by
  obtain ⟨s, outs, hrun, hcheck⟩ := @exists_of_run_check _ _ _ _ perform
    (fun r => decide ((∀ rec ∈ r.1.history, rec.bytes.length < 2 ^ 64) ∧
      r.1.gapDue 1 0 = none ∧ r.1.replaysDue 1 0 = r.1.history ∧ r.1.history.length = 3 ∧
      passes (fun q : Session × List WireOut => q.2.all fun w => decide (w.length < 2 ^ 64))
        (r.1.handleResendRequest 1 0) = true))
    testSession
    [.onBytes logonBytes, .sendExecutionReport (Net.execReportForAck ⟨7, ⟨ascii "X"⟩⟩ 7),
      .sendHeartbeat] (by decide +kernel)
  obtain ⟨hfit, hgap, hdue, hthree, hlens⟩ := of_decide_eq_true hcheck
  obtain ⟨s', ws, h, -, -, hfaithful⟩ := replay_faithful _ _ _ _ _ _ s outs 1 0
    (by decide) (by decide)
    (fun _ => (by decide : Soh.text.byte ∉ ascii "20260513-00:00:00.000"))
    (by decide +kernel) hrun hfit
  rw [hgap] at h
  rw [hdue] at hfaithful
  change s.handleResendRequest 1 0 = .ok (s', ws) at h
  rw [h] at hlens
  exact ⟨s, outs, s', ws, hrun, h, hthree, hfaithful fun w hw =>
    of_decide_eq_true (List.all_eq_true.mp hlens w hw)⟩

/-- **A Logout whose text has the separator is not replayed**: it is kept,
and it is due for its own number, but it does not parse. -/
theorem separator_in_logout_unreplayed :
    ∃ s outs, run perform testSession [.onBytes logonBytes, .sendLogout (ascii "bye|now")] =
        .ok (s, outs) ∧ (s.replaysDue 2 2).map (fun rec => rec.seq) = [2] ∧
      (s.handleResendRequest 2 2).map (fun r => r.2) = .ok [] := by
  obtain ⟨s, outs, hrun, hcheck⟩ := @exists_of_run_check _ _ _ _ perform
    (fun r => decide ((r.1.replaysDue 2 2).map (fun rec => rec.seq) = [2]) &&
      passes (fun q : Session × List WireOut => decide (q.2 = [])) (r.1.handleResendRequest 2 2))
    testSession [.onBytes logonBytes, .sendLogout (ascii "bye|now")] (by decide +kernel)
  obtain ⟨hdue, hanswer⟩ := Bool.and_eq_true_iff.mp hcheck
  obtain ⟨q, hq, hnone⟩ := passes_iff.mp hanswer
  refine ⟨s, outs, hrun, of_decide_eq_true hdue, ?_⟩
  rw [hq]
  exact congrArg Except.ok (of_decide_eq_true hnone)

end Session

end Fix

end OrderbookFix
