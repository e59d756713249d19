import OrderbookFix.Fix.Totality
/-!
# GapFills move forward

A GapFill is due where the range asked for starts before the ring. Its
NewSeqNo is the smaller of the ring's first number and one past the
range, reckoned in 64 bits: a range up to `2^64 - 1` sends the peer back
to zero. After `reset_seq` the ring may start past all that was sent
since, and the GapFill may skip numbers that are still to come.
-/

namespace OrderbookFix

namespace Fix

namespace Session

/-- **An answer that moves forward**: a GapFill past its own number, and
not past the next to be sent; and no replay from before the range. -/
structure Forward (s : Session) (start : SeqNum) (gap : Option (SeqNum × SeqNum))
    (recs : List OutboundRecord) : Prop where
  gap : ∀ g ∈ gap, g.1.toNat < g.2.toNat ∧ g.2.toNat ≤ s.outSeq.toNat + 1
  replays : ∀ rec ∈ recs, start.toNat ≤ rec.seq.toNat

/-- **The ranges whose answers move forward**: those for which no GapFill
is due, and those that end before `2^64 - 1`, unless both they and the
ring go on past the next number to be sent. -/
def Answerable (s : Session) (start stop : SeqNum) : Prop :=
  s.Unasked start stop ∨ s.oldestRetained.toNat ≤ start.toNat ∨
    ((s.lastWanted stop).toNat ≠ 2 ^ 64 - 1 ∧
      (s.oldestRetained.toNat ≤ s.outSeq.toNat + 1 ∨
        (s.lastWanted stop).toNat ≤ s.outSeq.toNat))

instance (s : Session) (start stop : SeqNum) : Decidable (s.Answerable start stop) :=
  inferInstanceAs (Decidable (_ ∨ _))

section Answer

variable {s : Session} {start stop : SeqNum}

/-- What is due moves forward exactly where the range allows it. -/
theorem forward_due_iff :
    s.Forward start (s.gapDue start stop) (s.replayed start stop) ↔ s.Answerable start stop := by
  have hnew := s.toNat_newSeqNo stop
  have hlast := (s.lastWanted stop).toNat_lt
  rw [gapDue, replayed, replaysDue]
  by_cases hnone : s.Unasked start stop
  · rw [if_pos hnone, if_pos hnone]
    exact ⟨fun _ => .inl hnone, fun _ => ⟨by simp, by simp⟩⟩
  rw [if_neg hnone, if_neg hnone]
  by_cases hold : start < s.oldestRetained
  · have hold' := UInt64.lt_iff_toNat_lt.mp hold
    rw [if_pos hold, if_pos hold]
    constructor
    · intro h
      obtain ⟨hlt, hle⟩ := h.gap _ rfl
      dsimp only at hlt hle
      -- past its own number, so one past the range did not wrap
      refine .inr (.inr ⟨?_, ?_⟩) <;> omega
    · rintro (h | h | ⟨hend, hroom⟩)
      · exact absurd h hnone
      · omega
      have hmod : ((s.lastWanted stop).toNat + 1) % 2 ^ 64 = (s.lastWanted stop).toNat + 1 :=
        Nat.mod_eq_of_lt (by omega)
      have hstart : start.toNat ≤ (s.lastWanted stop).toNat := by
        have := UInt64.not_lt.mp fun hgt => hnone (.inr (.inl hgt))
        exact UInt64.le_iff_toNat_le.mp this
      rw [hmod] at hnew
      refine ⟨fun g hg => ?_, fun rec hrec => ?_⟩
      · obtain rfl := Option.some.inj hg
        dsimp only
        omega
      · split_ifs at hrec
        · cases hrec
        · have := UInt64.le_iff_toNat_le.mp (le_of_mem_inRange (List.mem_filter.mp hrec).1)
          omega
  · have hold' := UInt64.le_iff_toNat_le.mp (UInt64.not_lt.mp hold)
    rw [if_neg hold, if_neg hold]
    refine ⟨fun _ => .inr (.inl hold'), fun _ => ⟨by simp, fun rec hrec => ?_⟩⟩
    exact UInt64.le_iff_toNat_le.mp (le_of_mem_inRange (List.mem_filter.mp hrec).1)

end Answer

/-- **GapFills move forward**, in every session that calls reach and for
every range: the answer is the GapFill that is due, if any, and the
replays of messages kept, and it moves forward exactly where the range
allows it. -/
theorem gapFill_forward_iff (cfg : SessionConfig) (soh : Soh) (order : FieldOrder)
    (now : ℕ → Bytes) (clock : ℕ → Int) (calls : List Call) (s : Session)
    (outs : List SessionStep) (b e : SeqNum)
    (hrun : run perform (makeSession cfg soh order now clock) calls = .ok (s, outs))
    (hfits : s.Fits) :
    ∃ s' ws, s.handleResendRequest b e = .ok (s', s.gapBytes (s.gapDue b e) ++ ws) ∧
      List.Forall₂ (ReplayOf s) (s.replayed b e) ws ∧
      (s.Forward b (s.gapDue b e) (s.replayed b e) ↔ s.Answerable b e) := by
  have hbuilt : s.Built := run_preserves (fun _ _ _ _ => perform_built)
    (fun _ h => absurd h List.not_mem_nil) hrun
  obtain ⟨s', ws, h, hws⟩ := @handleResendRequest_answer s b e (parse_history_returns hbuilt hfits)
  exact ⟨s', ws, h, hws, forward_due_iff⟩

/-- A ring of one after a Logon and a Heartbeat: the GapFill for the
first goes on to the second. -/
theorem gapFill_forward_ring_of_one :
    ∃ s outs s' ws,
      run perform (makeSession { testSession.cfg with outboundHistorySize := 1 } .text .stored
        testSession.providers.now testSession.providers.clock)
        [.onBytes logonBytes, .sendHeartbeat] = .ok (s, outs) ∧
      s.handleResendRequest 1 0 = .ok (s', s.gapBytes (some (1, 2)) ++ ws) ∧
      s.Forward 1 (some (1, 2)) (s.replayed 1 0) := by
  obtain ⟨s, outs, hrun, hcheck⟩ := @exists_of_run_check _ _ _ _ perform
    (fun r => decide (r.1.Fits ∧ r.1.Answerable 1 0 ∧ r.1.gapDue 1 0 = some (1, 2)))
    (makeSession { testSession.cfg with outboundHistorySize := 1 } .text .stored
      testSession.providers.now testSession.providers.clock)
    [.onBytes logonBytes, .sendHeartbeat] (by decide +kernel)
  obtain ⟨hfits, hanswerable, hgap⟩ := of_decide_eq_true hcheck
  obtain ⟨s', ws, h, -, hiff⟩ := gapFill_forward_iff _ _ _ _ _ _ s outs 1 0 hrun hfits
  rw [hgap] at h hiff
  exact ⟨s, outs, s', ws, hrun, h, hiff.mpr hanswerable⟩

/-- **A range up to `2^64 - 1` sends the peer back**: with no ring, the
Logon asked for is answered by a GapFill from 1 to 0. -/
theorem endless_range_back_to_zero :
    ∃ s outs,
      run perform (makeSession { testSession.cfg with outboundHistorySize := 0 } .text .stored
        testSession.providers.now testSession.providers.clock) [.onBytes logonBytes] =
          .ok (s, outs) ∧
      s.outSeq = 1 ∧
      (s.handleResendRequest 1 18446744073709551615).map (fun r => r.2.map (readReply .text)) =
        .ok [some (.gapFill 1 0)] := by
  obtain ⟨s, outs, hrun, hcheck⟩ := @exists_of_run_check _ _ _ _ perform
    (fun r => decide (r.1.outSeq = 1) &&
      passes (fun q : Session × List WireOut =>
        decide (q.2.map (readReply .text) = [some (.gapFill 1 0)]))
        (r.1.handleResendRequest 1 18446744073709551615))
    (makeSession { testSession.cfg with outboundHistorySize := 0 } .text .stored
      testSession.providers.now testSession.providers.clock) [.onBytes logonBytes]
    (by decide +kernel)
  obtain ⟨hseq, hanswer⟩ := Bool.and_eq_true_iff.mp hcheck
  obtain ⟨q, hq, hread⟩ := passes_iff.mp hanswer
  refine ⟨s, outs, hrun, of_decide_eq_true hseq, ?_⟩
  rw [hq]
  exact congrArg Except.ok (of_decide_eq_true hread)

end Session

end Fix

end OrderbookFix
