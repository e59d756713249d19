import OrderbookFix.Fix.Farewell
import OrderbookFix.Fix.Resend
import OrderbookFix.Fix.Totality
/-!
# Answers a peer can take

What stands in the ring of a session that calls reach can be handled by a
peer: it has MsgType first, its number, and numerals where a range is
read. So can the replays of it, and the GapFill for what the ring no
longer holds. The answer to a request for all from a number on is
described by the numbers of its messages.
-/

namespace OrderbookFix

namespace Fix

namespace Session

/-- Fields whose range, if any, can be read. -/
def Ranged (body : Body) : Prop :=
  ∀ t ∈ [Tag.beginSeqNo, Tag.endSeqNo], ∀ v, (t, v) ∈ body → Convertible v

/-- **A message of a number that can be taken**: it parses, is no Logout
and has no range that cannot be read. -/
def Takeable (soh : Soh) (n : SeqNum) (w : WireOut) : Prop :=
  ∃ body, w = build soh body ∧ Buildable soh.byte body ∧ (Tag.msgSeqNum, dec n) ∈ body ∧
    (readBack soh body).msgType ≠ MsgType.logout ∧ Ranged body

/-- A message kept that can be taken once it is replayed. -/
def Legible (soh : Soh) (rec : OutboundRecord) : Prop :=
  ∃ mt rest, rec.bytes = build soh ((Tag.msgType, mt) :: rest) ∧
    Buildable soh.byte ((Tag.msgType, mt) :: rest) ∧
    (Tag.msgSeqNum, dec rec.seq) ∈ (Tag.msgType, mt) :: rest ∧
    Ranged ((Tag.msgType, mt) :: rest)

/-! ## The ring -/

section Ring

variable {soh : Soh} {body : Body}

theorem convertible_dec (n : SeqNum) : Convertible (dec n) :=
  stoull_returns_iff.mp ⟨n, stoull_dec n⟩

/-- A body without the fields of a range. -/
theorem ranged_of_tags
    (h : ∀ t ∈ [Tag.beginSeqNo, Tag.endSeqNo], t ∉ body.map Prod.fst) : Ranged body := by
  intro t ht v hmem
  exact absurd (List.mem_map_of_mem (f := Prod.fst) hmem) (h t ht)

theorem ranged_report (h : Ranged body) :
    Ranged ((Tag.msgType, MsgType.executionReport) :: body) := by
  intro t ht v hmem
  rcases List.mem_cons.mp hmem with he | hmem
  · rw [(Prod.mk.inj he).1] at ht
    exact absurd ht (by decide)
  · exact h t ht v hmem

theorem Own.ranged (h : Own soh body) : Ranged body := by
  have hrange : ∀ tags : List Int, tags = body.map Prod.fst →
      (∀ t ∈ [Tag.beginSeqNo, Tag.endSeqNo], t ∉ tags) → Ranged body := by
    intro tags he ht
    rw [he] at ht
    exact ranged_of_tags ht
  cases h with
  | heartbeat => exact hrange [Tag.msgType] rfl (by decide)
  | answer hm => exact hrange [Tag.msgType, Tag.testReqID] rfl (by decide)
  | testRequest n => exact hrange [Tag.msgType, Tag.testReqID] rfl (by decide)
  | resend start =>
    intro t ht v hmem
    rcases List.mem_cons.mp hmem with he | hmem
    · rw [(Prod.mk.inj he).1] at ht
      exact absurd ht (by decide)
    rcases List.mem_cons.mp hmem with he | hmem
    · rw [(Prod.mk.inj he).2]
      exact convertible_dec start
    · rw [(Prod.mk.inj (List.mem_singleton.mp hmem)).2]
      decide
  | reject seq hm => exact hrange [Tag.msgType, Tag.refSeqNum, Tag.text] rfl (by decide)
  | logon heartbeatSecs => exact hrange [Tag.msgType, 108] rfl (by decide)
  | logout ht => exact hrange [Tag.msgType, Tag.text] rfl (by decide)

variable {s s' : Session} {mt : Bytes} {rest : Body}

theorem legible_headed (hr : s.Ring) (htags : PlainTags (rest.map Prod.fst))
    (hvalues : ∀ v ∈ mt :: rest.map Prod.snd, s.soh.byte ∉ v) (hrange : Ranged rest) :
    Legible s.soh (s.headedRecord mt rest) := by
  refine ⟨mt, _, rfl, headed_buildable hr.unbroken htags hvalues, by simp [headedRecord], ?_⟩
  intro t ht v hmem
  rcases @tag_headed s mt rest _ hmem with hhead | hmem
  · exact absurd hhead ((by decide : ∀ t ∈ [Tag.beginSeqNo, Tag.endSeqNo], t ∉ headTags) t ht)
  · exact hrange t ht v hmem

theorem legible_sent (hr : s.Ring) (hb : Plain s.soh.byte body) (hrange : Ranged body)
    (h : ∀ rec ∈ s.history, Legible s.soh rec) :
    ∀ rec ∈ (s.sent body).history, Legible s.soh rec := by
  obtain ⟨mt, rest, rfl, htags, hvalues⟩ := hb
  intro rec hrec
  rcases mem_history_headed htags hrec with hold | rfl
  · exact h rec hold
  · exact legible_headed hr htags hvalues fun t ht v hmem =>
      hrange t ht v (List.mem_cons_of_mem _ hmem)

/-- **The ring stays legible** under a chain of moves. -/
theorem Evolves.legible {n : ℕ}
    (he : Evolves (fun body => Plain s.soh.byte body ∧ Ranged body) s n s') (hr : s.Ring)
    (hseq : s.outSeq.toNat + n < 2 ^ 64) (h : ∀ rec ∈ s.history, Legible s.soh rec) :
    ∀ rec ∈ s'.history, Legible s'.soh rec := by
  induction he with
  | refl => exact h
  | idle _ hs ih =>
    intro rec hrec
    rw [hs.history] at hrec
    rw [hs.soh]
    exact ih hseq rec hrec
  | send hprev hb ih =>
    obtain ⟨hring, hle⟩ := hprev.ring hr (fun _ => And.left) (by omega)
    have hsoh := hprev.soh_eq
    have hplain := hb.elim Own.plain fun hx => hsoh ▸ hx.1
    exact legible_sent hring hplain (hb.elim Own.ranged And.right) (ih (by omega))
  | clear _ _ => exact fun _ hrec => by cases hrec
  | adopt _ _ ih => exact ih hseq

end Ring

/-- **The calls whose messages a peer can take**: nothing is reset, nothing
holds the separator, and a range in a report can be read. -/
def Orderly (soh : Soh) (c : Call) : Prop :=
  c ≠ .resetSeq ∧ Allowed soh c ∧ ∀ body ∈ c.report, Ranged body

/-- **A session that calls reach**: nothing configured or sent holds the
separator, and the numbers do not wrap. -/
def Reached (soh : Soh) (s : Session) : Prop :=
  ∃ cfg order now clock calls outs, soh.byte ∉ cfg.senderCompId ∧ soh.byte ∉ cfg.targetCompId ∧
    (∀ n, soh.byte ∉ now n) ∧ (∀ c ∈ calls, Orderly soh c) ∧
    Guarded perform (fun s c => s.outSeq.toNat + s.room c < 2 ^ 64 - 1)
      (makeSession cfg soh order now clock) calls ∧
    run perform (makeSession cfg soh order now clock) calls = .ok (s, outs)

/-- What holds of a session that calls reach. -/
structure Sound (soh : Soh) (s : Session) : Prop where
  ring : s.Ring
  soh_eq : s.soh = soh
  room : s.outSeq.toNat < 2 ^ 64 - 1
  legible : ∀ rec ∈ s.history, Legible s.soh rec

theorem Sound.built {soh : Soh} {s : Session} (h : Sound soh s) : s.Built := by
  intro rec hrec
  obtain ⟨mt, rest, hbytes, -⟩ := h.legible rec hrec
  exact ⟨_, hbytes⟩

theorem Sound.of_sameRing {soh : Soh} {s s' : Session} (h : Sound soh s) (hs : SameRing s s') :
    Sound soh s' where
  ring := h.ring.of_sameRing hs
  soh_eq := hs.soh.trans h.soh_eq
  room := by rw [hs.outSeq]; exact h.room
  legible rec hrec := by
    rw [hs.history] at hrec
    rw [hs.soh]
    exact h.legible rec hrec

theorem Reached.sound {soh : Soh} {s : Session} (h : Reached soh s) : Sound soh s := by
  obtain ⟨cfg, order, now, clock, calls, outs, hsender, htarget, hnow, hcalls, hroom, hrun⟩ := h
  refine (hroom.and_forall hcalls).preserves (J := Sound soh)
    (fun s₁ c s₂ outs hJ hok hp => ?_) ?_ hrun
  · obtain ⟨hreset, hc, hranged⟩ : Orderly s₁.soh c := hJ.soh_eq ▸ hok.2
    obtain ⟨hring, hsoh, hlt⟩ := perform_ring hJ.ring ⟨hreset, hc⟩ hok.1 hp
    obtain ⟨n, hn, he⟩ := perform_evolves (X := fun body => Plain s₁.soh.byte body ∧ Ranged body)
      hp hreset
      (fun body hb => by
        subst hb
        exact ⟨plain_report hc, ranged_report (hranged body rfl)⟩)
      fun text hb => by
        subst hb
        exact ⟨(Own.logout hc).plain, (Own.logout hc).ranged⟩
    exact ⟨hring, hsoh.trans hJ.soh_eq, hlt,
      he.legible hJ.ring (Nat.lt_of_le_of_lt (Nat.add_le_add_left hn _) (by have := hok.1; omega))
        hJ.legible⟩
  · exact ⟨makeSession_ring hsender htarget hnow, rfl,
      (by decide : (0 : SeqNum).toNat < 2 ^ 64 - 1), fun _ hrec => (by cases hrec)⟩

/-! ## The answer -/

section Answer

variable {s s' : Session} {rec : OutboundRecord} {w : WireOut}

/-- A replay of a message that can be taken can be taken. -/
theorem ReplayOf.takeable (h : ReplayOf s rec w) (hl : Legible s.soh rec)
    (htime : s.soh.byte ∉ rec.sendingTime) (hnow : ∀ n, s.soh.byte ∉ s.providers.now n)
    (hlen : rec.bytes.length < 2 ^ 64) (hlogout : ¬ IsLogout s.soh rec.bytes) :
    Takeable s.soh rec.seq w := by
  obtain ⟨pr, n, hp, -, rfl⟩ := h
  obtain ⟨mt, rest, hbytes, hb, hseq, hrange⟩ := hl
  rw [hbytes] at hp hlen hlogout
  obtain rfl := Except.ok.inj (hp.symm.trans (parseOne_whole hb hlen))
  set body := (Tag.msgType, mt) :: rest
  have hb' : Buildable s.soh.byte ((s.asked n).replayBody rec (readBack s.soh body)) :=
    @replayBody_buildable (s.asked n) rec _ hb hnow htime
  refine ⟨(s.asked n).replayBody rec (readBack s.soh body), rfl, hb',
    @seq_mem_replayBody (s.asked n) rec _ _ hb hseq, ?_, ?_⟩
  · have htype : (readBack s.soh body).get Tag.msgType = some mt :=
      get_of_mem hb (List.mem_cons_self ..)
    have hmem : (Tag.msgType, mt) ∈ (s.asked n).replayBody rec (readBack s.soh body) := by
      rw [replayBody, htype]
      exact List.mem_append_left _ (List.mem_cons_self ..)
    rw [msgType_of_mem hb' hmem]
    rintro rfl
    exact hlogout (isType_of_build (hb.values _ (List.mem_cons_self ..)))
  · intro t ht v hmem
    have hentry : ⟨t, v⟩ ∈ (parsedFields s.soh.byte body).entries := by
      rcases mem_replayBody hmem with ⟨-, hentry⟩ | ⟨hentry, -⟩ | hlast
      · exact hentry
      · exact hentry
      · exact absurd (List.mem_map_of_mem (f := Prod.fst) hlast)
          ((by decide : ∀ t ∈ [Tag.beginSeqNo, Tag.endSeqNo],
            t ∉ [Tag.sendingTime, Tag.origSendingTime, Tag.possDupFlag]) t ht)
    refine hrange t ht v (mem_of_get hb ?_ (AList.mem_lookup_iff.mpr hentry))
    exact (by decide : ∀ t ∈ [Tag.beginSeqNo, Tag.endSeqNo],
      t ∉ [Tag.checkSum, Tag.beginString, Tag.bodyLength]) t ht

theorem takeable_gapFill (hr : s.Ring) (start newSeqNo : SeqNum) :
    Takeable s.soh start (s.buildGapFill start newSeqNo).2 := by
  have hb := gapFillBody_buildable hr start newSeqNo
  refine ⟨s.gapFillBody start newSeqNo, rfl, hb, by simp [gapFillBody], ?_, ranged_of_tags ?_⟩
  · rw [msgType_of_mem hb (List.mem_cons_self ..)]
    decide
  · exact (by decide : ∀ t ∈ [Tag.beginSeqNo, Tag.endSeqNo], t ∉ [Tag.msgType, Tag.senderCompID,
      Tag.targetCompID, Tag.msgSeqNum, Tag.sendingTime, Tag.gapFillFlag, Tag.possDupFlag,
      Tag.newSeqNo])

/-- **Messages of the numbers** of a range, in order. -/
def Stretch (soh : Soh) (start count : ℕ) (ws : List WireOut) : Prop :=
  ∃ ns : List SeqNum, List.Forall₂ (Takeable soh) ns ws ∧
    ns.map UInt64.toNat = List.range' start count

/-- The replays of the messages due can be taken. -/
theorem replays_stretch (hs : Sound s.soh s) (hfit : s.Fits) {start : SeqNum} {ws : List WireOut}
    (hasked : ¬ s.Unasked start 0)
    (hlogout : ∀ rec ∈ s.history, start ≤ rec.seq → ¬ IsLogout s.soh rec.bytes)
    (hws : List.Forall₂ (ReplayOf s) (s.replaysDue start 0) ws) :
    Stretch s.soh (max s.oldestRetained.toNat start.toNat)
      (s.outSeq.toNat + 1 - max s.oldestRetained.toNat start.toNat) ws := by
  have hr := hs.ring
  have hroom := hs.room
  refine ⟨(s.replaysDue start 0).map fun rec => rec.seq,
    List.forall₂_map_left_iff.mpr (forall₂_imp_mem hws fun rec hrec w _ hof => ?_), ?_⟩
  · have hmem := replaysDue_sublist.subset hrec
    rw [replaysDue_eq_filter hr.ascending hasked] at hrec
    have hle := UInt64.le_iff_toNat_le.mpr (of_decide_eq_true (List.mem_filter.mp hrec).2).1
    have hlen := hfit rec hmem
    exact hof.takeable (hs.legible rec hmem) (hr.kept rec hmem).time hr.now (by omega)
      (hlogout rec hmem hle)
  · have hseqs := hr.seqs_due (by omega) hasked
    rw [lastWanted, if_pos rfl, Nat.min_self] at hseqs
    rw [List.map_map]
    exact hseqs

/-- **The answer to a request for all from a number on**: where the ring
holds that, the messages of its number and those after; otherwise a
GapFill of that number, and the messages the ring holds. -/
theorem handleResendRequest_stretch (hs : Sound s.soh s) (hfit : s.Fits) {start : SeqNum}
    (hpos : start ≠ 0) (hstart : start ≤ s.outSeq)
    (hlogout : ∀ rec ∈ s.history, start ≤ rec.seq → ¬ IsLogout s.soh rec.bytes) :
    ∃ s' ws, s.handleResendRequest start 0 = .ok (s', ws) ∧
      (s.oldestRetained.toNat ≤ start.toNat →
        Stretch s.soh start.toNat (s.outSeq.toNat + 1 - start.toNat) ws) ∧
      (start.toNat < s.oldestRetained.toNat → ∃ w ws', ws = w :: ws' ∧ Takeable s.soh start w ∧
        Stretch s.soh s.oldestRetained.toNat
          (s.outSeq.toNat + 1 - s.oldestRetained.toNat) ws') := by
  have hr := hs.ring
  have hasked : ¬ s.Unasked start 0 := by
    rw [Unasked, lastWanted, if_pos rfl]
    rintro (h | h | h)
    · exact hpos h
    · exact UInt64.not_lt.mpr hstart h
    · exact UInt64.not_lt.mpr hstart h
  obtain ⟨s', ws, h, hws⟩ := @handleResendRequest_due s start 0 fun rec hrec =>
    (hr.kept rec hrec).parses (Nat.lt_trans (hfit rec hrec) (by decide))
  have hstretch := replays_stretch hs hfit hasked hlogout hws
  rw [gapDue, if_neg hasked] at h
  by_cases hgap : start < s.oldestRetained
  · have hgap' := UInt64.lt_iff_toNat_lt.mp hgap
    rw [if_pos hgap] at h
    rw [Nat.max_eq_left (Nat.le_of_lt hgap')] at hstretch
    exact ⟨s', _, h, fun hle => absurd hle (by omega),
      fun _ => ⟨_, ws, rfl, takeable_gapFill hr start _, hstretch⟩⟩
  · have hgap' := UInt64.le_iff_toNat_le.mp (UInt64.not_lt.mp hgap)
    rw [if_neg hgap] at h
    rw [Nat.max_eq_right hgap'] at hstretch
    exact ⟨s', ws, h, fun _ => hstretch, fun hlt => absurd hlt (by omega)⟩

end Answer

end Session

end Fix

end OrderbookFix
