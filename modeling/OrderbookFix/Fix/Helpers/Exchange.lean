import OrderbookFix.Fix.Chunking
import OrderbookFix.Fix.Helpers.Replies
/-!
# Messages between two sessions

A message of one session, read by another: the reader takes it whole,
whatever follows it, and waits on any part of it. Messages that are
handled one after another are a stream that may be cut anywhere.
-/

namespace OrderbookFix

namespace Fix

namespace Session

open SessionStep

/-! ## Reading one message -/

section Read

variable {s s' : Session} {body : Body} {step : SessionStep}

/-- The message a built body is read as. -/
abbrev readBack (soh : Soh) (body : Body) : Message := ⟨parsedFields soh.byte body⟩

/-- **The reader takes a built message.** -/
theorem next_build {rest : Bytes} (hb : Buildable s.soh.byte body)
    (hlen : (build s.soh body ++ rest).length < 2 ^ 63)
    (hh : s.heard.handleMessage (readBack s.soh body) = .ok (s', step))
    (hd : step.disconnect = false) :
    next s (build s.soh body ++ rest) = .take (build s.soh body).length s' step := by
  have hpos := length_build s.soh body
  have hne : build s.soh body ++ rest ≠ [] := by
    intro hnil
    rw [(List.append_eq_nil_iff.mp hnil).1, List.length_nil] at hpos
    omega
  rw [next, if_neg hne, parseOne_build hb rest (by omega)]
  dsimp only
  rw [if_neg (fun h => by cases h), if_neg (fun h => h rfl), hh]
  dsimp only
  rw [hd]
  exact if_neg Bool.false_ne_true

/-- A built message alone in the buffer. -/
theorem next_whole (hb : Buildable s.soh.byte body) (hlen : (build s.soh body).length < 2 ^ 63)
    (hh : s.heard.handleMessage (readBack s.soh body) = .ok (s', step))
    (hd : step.disconnect = false) :
    next s (build s.soh body) = .take (build s.soh body).length s' step := by
  rw [← List.append_nil (build s.soh body)] at hlen
  have hn := next_build hb hlen hh hd
  rwa [List.append_nil] at hn

/-- **A message in pieces.** The bytes that complete it hand it to the
session; those before are kept. -/
theorem onBytes_piece {w buf chan : Bytes} (hw : buf ++ chan = w) (hlen : w.length < 2 ^ 63)
    (hn : next s w = .take w.length s' step) (n : ℕ) :
    (s.withBuf buf).onBytes (chan.take n) =
      if chan.drop n = [] then .ok (s'.withBuf [], step)
      else .ok (s.withBuf (buf ++ chan.take n), {}) := by
  have hshows := onBytes_shows s buf (chan.take n)
  by_cases hrest : chan.drop n = []
  · rw [if_pos hrest]
    have hall : buf ++ chan.take n = w := by
      rw [← hw, ← List.take_append_drop n chan, hrest, List.append_nil, List.take_take,
        Nat.min_self]
    have hn' : next s (w ++ []) = .take w.length s' step := by rw [List.append_nil]; exact hn
    have hitem := pumpAll_item steady_next hn'
    rw [List.append_nil] at hitem
    rw [hall, hitem] at hshows
    generalize hc : (s.withBuf buf).onBytes (chan.take n) = c at hshows
    cases hshows with
    | more _ _ _ hd =>
      exact congrArg (fun step => Except.ok (s'.withBuf [], step)) (merge_empty step)
  · rw [if_neg hrest]
    have hsplit : (buf ++ chan.take n) ++ chan.drop n = w := by
      rw [List.append_assoc, List.take_append_drop, hw]
    rw [← hsplit] at hn hlen
    have hwait := wait_of_item steady_next hn hlen hrest
    rw [pumpAll_eq steady_next, hwait] at hshows
    generalize hc : (s.withBuf buf).onBytes (chan.take n) = c at hshows
    cases hshows with
    | more _ _ _ hd => rfl

/-- **A message in one piece.** -/
theorem onBytes_build (hbuf : s.inBuf = []) (hb : Buildable s.soh.byte body)
    (hlen : (build s.soh body).length < 2 ^ 63)
    (hh : s.heard.handleMessage (readBack s.soh body) = .ok (s', step))
    (hd : step.disconnect = false) :
    s.onBytes (build s.soh body) = .ok (s'.withBuf [], step) := by
  have hs : s.withBuf [] = s := by rw [← hbuf]; rfl
  have hpiece := onBytes_piece (List.nil_append _) hlen (next_whole hb hlen hh hd)
    (build s.soh body).length
  rwa [List.take_length, List.drop_length, if_pos rfl, hs] at hpiece

/-- The one round of such a call. -/
theorem turns_whole {w : Bytes} (hbuf : s.inBuf = []) (hw : w ≠ [])
    (hn : next s w = .take w.length s' step) : s.turns w = [⟨s, w, step, s'⟩] := by
  have hnil : ∀ fuel, rounds next fuel s' [] = [] := by
    intro fuel
    cases fuel with
    | zero => rfl
    | succ fuel => rw [rounds]; rfl
  obtain ⟨c, w, rfl⟩ := List.exists_cons_of_ne_nil hw
  rw [turns, hbuf, List.nil_append, List.length_cons, rounds, hn]
  dsimp only
  rw [List.drop_length, hnil]

end Read

/-! ## Reading many -/

/-- **Messages handled one after another.** -/
inductive Consumes : Session → List WireOut → List SessionStep → Session → Prop
  | nil (s : Session) : Consumes s [] [] s
  | cons {s s₁ s' : Session} {body : Body} {ws : List WireOut} {step : SessionStep}
      {steps : List SessionStep} (hb : Buildable s.soh.byte body)
      (hh : s.heard.handleMessage (readBack s.soh body) = .ok (s₁, step))
      (hd : step.disconnect = false) (hrest : Consumes s₁ ws steps s') :
      Consumes s (build s.soh body :: ws) (step :: steps) s'

theorem Consumes.pumpAll_eq {s s' : Session} {ws : List WireOut} {steps : List SessionStep}
    (h : Consumes s ws steps s') (hlen : ws.flatten.length < 2 ^ 63) :
    pumpAll next s ws.flatten = .ok (.more s' [] steps) := by
  induction h with
  | nil s => rfl
  | cons hb hh hd hrest ih =>
    rw [List.flatten_cons] at hlen ⊢
    rw [pumpAll_item steady_next (next_build hb hlen hh hd),
      ih (by rw [List.length_append] at hlen; omega)]
    rfl

/-- **A stream of messages, cut anywhere.** -/
theorem Consumes.receive {s s' : Session} {ws : List WireOut} {steps : List SessionStep}
    (h : Consumes s ws steps s') (hbuf : s.inBuf = []) (hlen : ws.flatten.length < 2 ^ 63)
    {chunks : List Bytes} (hcut : chunks.flatten = ws.flatten) :
    s.receive chunks = .ok (s'.withBuf [], mergeAll steps) := by
  have hs : s.withBuf [] = s := by rw [← hbuf]; rfl
  have hshows := receive_shows s [] chunks
  rw [feed_eq_pumpAll steady_next rfl (by rw [List.nil_append, hcut]; exact hlen),
    List.nil_append, hcut, h.pumpAll_eq hlen, hs] at hshows
  generalize hc : s.receive chunks = c at hshows
  cases hshows with
  | more _ _ _ hd => rfl

/-! ## Handling one message -/

section Handle

variable {s : Session} {m : Message} {seq : SeqNum}

/-- A Logon to a session that is off. -/
theorem handleMessage_logon_eq (hoff : s.state = .disconnected) (hseq : m.seq = .ok seq)
    (ht : m.msgType = MsgType.logon) (hto : m.get Tag.targetCompID = some s.cfg.senderCompId) :
    s.handleMessage m =
      .ok ((s.accepting m seq).sent s.logonBody,
        { out := [build s.soh ((s.accepting m seq).wireBody s.logonBody)] }) := by
  rw [handleMessage, hseq]
  dsimp only
  rw [if_pos hoff, admitLogon_eq, if_neg (not_not.mpr ht), hto, if_neg]
  simp

/-- A message past a gap. -/
theorem handleMessage_gap (hon : s.state ≠ .disconnected) (hseq : m.seq = .ok seq)
    (hgap : s.inSeq + 1 < seq) :
    s.handleMessage m = .ok (s.sent (resendBody (s.inSeq + 1)),
      { out := [build s.soh (s.wireBody (resendBody (s.inSeq + 1)))] }) := by
  rw [handleMessage, hseq]
  dsimp only
  rw [if_neg hon, if_pos hgap, buildResendRequest, buildMessage_eq]
  rfl

/-- A message in sequence. -/
theorem handleMessage_next (hon : s.state ≠ .disconnected) (hseq : m.seq = .ok (s.inSeq + 1)) :
    s.handleMessage m = { s with inSeq := s.inSeq + 1 }.dispatch m (s.inSeq + 1) := by
  rw [handleMessage, hseq]
  dsimp only
  rw [if_neg hon, if_neg (UInt64.lt_irrefl _), if_neg fun h => UInt64.lt_irrefl _ h.1]

/-- A Logon is no message for a session that is on. -/
theorem dispatch_logon (ht : m.msgType = MsgType.logon) :
    s.dispatch m seq = .ok (s.sent (rejectBody m seq),
      { out := [build s.soh (s.wireBody (rejectBody m seq))] }) := by
  have hreject : s.buildReject seq (ascii "unsupported MsgType=" ++ m.msgType) =
      (s.sent (rejectBody m seq), build s.soh (s.wireBody (rejectBody m seq))) :=
    buildMessage_eq s _
  rw [dispatch]
  dsimp only
  rw [hreject, ht, if_neg (by decide), if_neg (by decide), if_neg (by decide),
    if_neg (by decide), if_neg (by decide), if_neg (by decide)]

theorem dispatch_resend {start stop : SeqNum} {s' : Session} {ws : List WireOut}
    (ht : m.msgType = MsgType.resendRequest) (hstart : number m Tag.beginSeqNo = .ok start)
    (hstop : number m Tag.endSeqNo = .ok stop)
    (hr : s.handleResendRequest start stop = .ok (s', ws)) :
    s.dispatch m seq = .ok (s', { out := ws }) := by
  rw [dispatch]
  dsimp only
  rw [ht, if_neg (by decide), if_neg (by decide), if_pos rfl, hstart, hstop]
  dsimp only
  rw [hr]

theorem dispatch_reject (ht : m.msgType = MsgType.reject) : s.dispatch m seq = .ok (s, {}) := by
  rw [dispatch]
  dsimp only
  rw [ht, if_neg (by decide), if_neg (by decide), if_neg (by decide), if_neg (by decide),
    if_pos (by decide)]

end Handle

end Session

end Fix

end OrderbookFix
