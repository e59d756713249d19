import OrderbookFix.Fix.Helpers.Replies
/-!
# What a ResendRequest is answered with

The answer for a range is a GapFill, where the range starts before the
ring does, and the replays of the messages the walk over the ring comes
to. Both are read off the session and the range; what the messages of
the ring hold decides only which of them are passed over.
-/

namespace OrderbookFix

namespace Fix

namespace Session

variable {s : Session} {start stop : SeqNum}

/-- A range that is not answered. -/
def Unasked (s : Session) (start stop : SeqNum) : Prop :=
  start = 0 ∨ start > s.lastWanted stop ∨ start > s.outSeq

instance : Decidable (s.Unasked start stop) := inferInstanceAs (Decidable (_ ∨ _))

/-- **The GapFill that is due**: its number, and its NewSeqNo. -/
def gapDue (s : Session) (start stop : SeqNum) : Option (SeqNum × SeqNum) :=
  if s.Unasked start stop then none
  else if start < s.oldestRetained then
    some (start, min s.oldestRetained (s.lastWanted stop + 1))
  else none

/-- **The messages that are due**, whether or not they parse. -/
def replaysDue (s : Session) (start stop : SeqNum) : List OutboundRecord :=
  if s.Unasked start stop then []
  else if start < s.oldestRetained then
    if min s.oldestRetained (s.lastWanted stop + 1) > s.lastWanted stop then []
    else inRange (min s.oldestRetained (s.lastWanted stop + 1)) (s.lastWanted stop) s.history
  else inRange start (s.lastWanted stop) s.history

/-- The messages that are replayed. -/
def replayed (s : Session) (start stop : SeqNum) : List OutboundRecord :=
  (s.replaysDue start stop).filter (readable s.soh)

/-- The bytes of a GapFill that is due. -/
def gapBytes (s : Session) (gap : Option (SeqNum × SeqNum)) : List WireOut :=
  gap.toList.map fun g => (s.buildGapFill g.1 g.2).2

/-- **What a ResendRequest is answered with**: the GapFill that is due,
and the replays of the messages due that parse. -/
theorem handleResendRequest_replays {s' : Session} {ws : List WireOut}
    (h : s.handleResendRequest start stop = .ok (s', ws)) :
    ∃ ws', ws = s.gapBytes (s.gapDue start stop) ++ ws' ∧
      List.Forall₂ (ReplayOf s) (s.replayed start stop) ws' := by
  rw [handleResendRequest_eq] at h
  dsimp only at h
  rw [gapDue, replayed, replaysDue]
  by_cases hnone : s.Unasked start stop
  · have hcode : start = 0 ∨ start > s.lastWanted stop ∨ start > s.outSeq := hnone
    rw [if_pos hcode] at h
    obtain ⟨-, rfl⟩ := Prod.mk.inj (Except.ok.inj h)
    rw [if_pos hnone, if_pos hnone]
    exact ⟨[], rfl, .nil⟩
  have hcode : ¬ (start = 0 ∨ start > s.lastWanted stop ∨ start > s.outSeq) := hnone
  rw [if_neg hcode] at h
  rw [if_neg hnone, if_neg hnone]
  by_cases hold : start < s.oldestRetained
  · rw [if_pos hold] at h
    rw [if_pos hold, if_pos hold]
    -- The GapFill covers the whole range, or the replay goes on where it ends.
    by_cases hall : min s.oldestRetained (s.lastWanted stop + 1) > s.lastWanted stop
    · rw [if_pos hall] at h
      obtain ⟨-, rfl⟩ := Prod.mk.inj (Except.ok.inj h)
      rw [if_pos hall]
      exact ⟨[], rfl, .nil⟩
    · rw [if_neg hall] at h
      rw [if_neg hall]
      rcases hreplay : replay _ _ _ (s.buildGapFill start _).1 with e | ⟨s₁, ws₁⟩
      · rw [hreplay] at h
        cases h
      · rw [hreplay] at h
        obtain ⟨-, rfl⟩ := Prod.mk.inj (Except.ok.inj h)
        have hws := replay_replays hreplay
        exact ⟨ws₁, rfl, hws⟩
  · rw [if_neg hold] at h
    rw [if_neg hold, if_neg hold]
    exact ⟨ws, rfl, replay_replays h⟩

/-- It is answered with nothing exactly if nothing is due. -/
theorem handleResendRequest_eq_nil_iff {s' : Session} {ws : List WireOut}
    (h : s.handleResendRequest start stop = .ok (s', ws)) :
    ws = [] ↔ s.gapDue start stop = none ∧ s.replayed start stop = [] := by
  obtain ⟨ws', rfl, hws⟩ := handleResendRequest_replays h
  rw [List.append_eq_nil_iff, gapBytes, List.map_eq_nil_iff, Option.toList_eq_nil_iff]
  refine and_congr_right fun _ => ⟨?_, ?_⟩
  · rintro rfl
    exact List.forall₂_nil_right_iff.mp hws
  · intro hnil
    rw [hnil] at hws
    exact List.forall₂_nil_left_iff.mp hws

/-- **The answer to a ResendRequest** is given where parsing the messages
of the ring returns. -/
theorem handleResendRequest_answer
    (hparse : ∀ rec ∈ s.history, ∃ pr, parseOne s.soh rec.bytes = .ok pr) :
    ∃ s' ws, s.handleResendRequest start stop =
        .ok (s', s.gapBytes (s.gapDue start stop) ++ ws) ∧
      List.Forall₂ (ReplayOf s) (s.replayed start stop) ws := by
  have hreturns : ∃ r, s.handleResendRequest start stop = .ok r := by
    rw [handleResendRequest_eq]
    dsimp only
    split_ifs
    · exact ⟨_, rfl⟩
    · exact ⟨_, rfl⟩
    · obtain ⟨s', ws, hreplay⟩ := @replay_returns
        (min s.oldestRetained (s.lastWanted stop + 1)) (s.lastWanted stop) s.history
        (s.buildGapFill start (min s.oldestRetained (s.lastWanted stop + 1))).1 hparse
      rw [hreplay]
      exact ⟨_, rfl⟩
    · obtain ⟨s', ws, hreplay⟩ := @replay_returns start (s.lastWanted stop) s.history s hparse
      exact ⟨_, hreplay⟩
  obtain ⟨⟨s', ws⟩, hr⟩ := hreturns
  obtain ⟨ws', rfl, hws⟩ := handleResendRequest_replays hr
  exact ⟨s', ws', hr, hws⟩

theorem replaysDue_sublist : (s.replaysDue start stop).Sublist s.history := by
  rw [replaysDue]
  split_ifs
  · exact List.nil_sublist _
  · exact List.nil_sublist _
  · exact inRange_sublist ..
  · exact inRange_sublist ..

/-- **The answer where every message of the ring parses**: the GapFill
that is due, and one replay for each message due. -/
theorem handleResendRequest_due
    (hparse : ∀ rec ∈ s.history, ∃ pr, parseOne s.soh rec.bytes = .ok pr ∧ pr.err = .none) :
    ∃ s' ws, s.handleResendRequest start stop =
        .ok (s', s.gapBytes (s.gapDue start stop) ++ ws) ∧
      List.Forall₂ (ReplayOf s) (s.replaysDue start stop) ws := by
  obtain ⟨s', ws, h, hws⟩ := @handleResendRequest_answer s start stop fun rec hrec =>
    (hparse rec hrec).imp fun _ hp => hp.1
  rw [replayed, filter_readable fun rec hrec => hparse rec (replaysDue_sublist.subset hrec)] at hws
  exact ⟨s', ws, h, hws⟩

/-- One past the range, in 64 bits. -/
theorem toNat_newSeqNo (s : Session) (stop : SeqNum) :
    (min s.oldestRetained (s.lastWanted stop + 1)).toNat =
      min s.oldestRetained.toNat (((s.lastWanted stop).toNat + 1) % 2 ^ 64) := by
  rw [UInt64.toNat_min, UInt64.toNat_add]
  rfl

/-- Numbers that ascend along the ring. -/
def Ascending (s : Session) : Prop := (s.history.map fun rec => rec.seq.toNat).Pairwise (· < ·)

/-- No number of an ascending ring is below its first. -/
theorem Ascending.oldest_le (h : s.Ascending) {rec : OutboundRecord} (hrec : rec ∈ s.history) :
    s.oldestRetained.toNat ≤ rec.seq.toNat := by
  rw [Ascending] at h
  rw [oldestRetained]
  rcases hh : s.history with _ | ⟨first, rest⟩
  · rw [hh] at hrec
    cases hrec
  rw [hh] at hrec h
  rcases List.mem_cons.mp hrec with rfl | hrest
  · exact Nat.le_refl _
  · exact Nat.le_of_lt ((List.pairwise_cons.mp h).1 _
      (List.mem_map_of_mem (f := fun rec : OutboundRecord => rec.seq.toNat) hrest))

/-- **The messages due are those of the range**, where the numbers of the
ring ascend. -/
theorem replaysDue_eq_filter (hasc : s.Ascending) (hasked : ¬ s.Unasked start stop) :
    s.replaysDue start stop = s.history.filter fun rec =>
      start.toNat ≤ rec.seq.toNat ∧ rec.seq.toNat ≤ (s.lastWanted stop).toNat := by
  rw [replaysDue, if_neg hasked, inRange_eq_filter hasc, inRange_eq_filter hasc]
  split_ifs with hold hpast
  · -- the GapFill goes past the range, so the ring starts after it
    have hlast := (s.lastWanted stop).toNat_lt
    have hpast := UInt64.lt_iff_toNat_lt.mp hpast
    rw [toNat_newSeqNo] at hpast
    refine (List.filter_eq_nil_iff.mpr fun rec hrec => ?_).symm
    have := hasc.oldest_le hrec
    rw [decide_eq_true_eq]
    omega
  · have hold := UInt64.lt_iff_toNat_lt.mp hold
    have hnew := s.toNat_newSeqNo stop
    refine List.filter_congr fun rec hrec => decide_eq_decide.mpr ?_
    have := hasc.oldest_le hrec
    omega
  · rfl

end Session

end Fix

end OrderbookFix
