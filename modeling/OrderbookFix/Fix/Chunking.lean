import OrderbookFix.Fix.Helpers.Reader
/-!
# Chunks of the inbound stream

The transport hands the session whatever bytes a read returns. What the
session sends, what it hands out and the state it ends in depend on the
bytes of the stream, not on where the reads cut it.
-/

namespace OrderbookFix

namespace Fix

namespace Session

open SessionStep

/-- **Successive calls of `on_bytes`.** The caller stops at the first step
that disconnects. -/
def receive (s : Session) : List Bytes → Except Fault (Session × SessionStep)
  | [] => .ok (s, {})
  | chunk :: chunks =>
    match s.onBytes chunk with
    | .error e => .error e
    | .ok (s, step) =>
      if step.disconnect then .ok (s, step)
      else
        match s.receive chunks with
        | .error e => .error e
        | .ok (s, rest) => .ok (s, step.merge rest)

/-- What is seen of a session from outside. -/
structure Observed where
  out : List WireOut
  app : List AppMessage
  disconnect : Bool
  state : SessionState
  inSeq : SeqNum
  outSeq : SeqNum
  history : List OutboundRecord
  deriving DecidableEq

def observe (r : Session × SessionStep) : Observed where
  out := r.2.out
  app := r.2.app
  disconnect := r.2.disconnect
  state := r.1.state
  inSeq := r.1.inSeq
  outSeq := r.1.outSeq
  history := r.1.history

/-- The calls show what a reader makes of the stream in chunks. -/
theorem receive_shows (s : Session) (left : Bytes) (chunks : List Bytes) :
    Shows {} (feed next s left chunks) ((s.withBuf left).receive chunks) := by
  induction chunks generalizing s left with
  | nil => exact Shows.nil {} s left
  | cons chunk chunks ih =>
    rw [feed, receive]
    have hcall := onBytes_shows s left chunk
    revert hcall
    generalize pumpAll next s (left ++ chunk) = r
    generalize (s.withBuf left).onBytes chunk = c
    intro hcall
    rcases hcall with e | ⟨s₁, left₁, steps, hd⟩ | ⟨s₁, left₁, steps, hd⟩
    · exact .error e
    · dsimp only
      rw [empty_merge, if_neg (by rw [hd]; exact Bool.false_ne_true)]
      have hrest := ih s₁ left₁
      revert hrest
      generalize feed next s₁ left₁ chunks = r'
      generalize (s₁.withBuf left₁).receive chunks = c'
      intro hrest
      rcases hrest with e | ⟨s₂, left₂, steps₂, hd₂⟩ | ⟨s₂, left₂, steps₂, hd₂⟩
      · exact .error e
      · dsimp only [Except.map, Outcome.prepend]
        rw [empty_merge, ← mergeAll_append, ← empty_merge (mergeAll _)]
        exact .more s₂ left₂ _ (by rw [mergeAll_append, merge, hd, hd₂]; rfl)
      · dsimp only [Except.map, Outcome.prepend]
        rw [empty_merge, ← mergeAll_append, ← empty_merge (mergeAll _)]
        exact .done s₂ left₂ _ (by rw [mergeAll_append, merge, hd, hd₂]; rfl)
    · dsimp only
      rw [empty_merge, if_pos hd, ← empty_merge (mergeAll _)]
      exact .done s₁ left₁ steps hd

/-- Calls that show the same look the same. -/
theorem Shows.observe_eq {r : Except Fault (Outcome Session UInt8 SessionStep)}
    {c c' : Except Fault (Session × SessionStep)} (h : Shows {} r c) (h' : Shows {} r c') :
    c.map observe = c'.map observe := by
  rcases h with e | ⟨s, left, steps, hd⟩ | ⟨s, left, steps, hd⟩
  · rcases h' with _ | _ | _
    rfl
  · rcases h' with _ | _ | _
    rfl
  · rcases h' with _ | _ | _
    rfl

/-- **Chunking independence.** Two ways to cut a stream look the same
from outside, whatever the time sources answer and even where a call
raises. The stream fits a string. -/
theorem receive_chunks (s : Session) (chunks chunks' : List Bytes) (hbuf : s.inBuf = [])
    (hsize : chunks.flatten.length < 2 ^ 63) (hcut : chunks.flatten = chunks'.flatten) :
    (s.receive chunks).map observe = (s.receive chunks').map observe := by
  have hs : s.withBuf [] = s := by rw [← hbuf]; rfl
  have h := receive_shows s [] chunks
  have h' := receive_shows s [] chunks'
  rw [feed_eq_pumpAll steady_next rfl (by rwa [List.nil_append]), hs] at h
  rw [feed_eq_pumpAll steady_next rfl (by rwa [List.nil_append, ← hcut]), hs, ← hcut] at h'
  exact h.observe_eq h'

/-- A Logon and a TestRequest, read at once and cut inside their fields. -/
theorem receive_chunks_inside_fields :
    (testSession.receive [logonBytes ++ testRequestBytes "2"]).map observe =
        (testSession.receive [logonBytes.take 13, logonBytes.drop 13 ++ (testRequestBytes "2").take 21,
          (testRequestBytes "2").drop 21]).map observe ∧
      ((testSession.receive [logonBytes ++ testRequestBytes "2"]).map
        fun r => (r.2.out.length, r.1.outSeq)).toOption = some (2, 2) :=
  ⟨receive_chunks _ _ _ rfl (by decide +kernel) (by decide +kernel), by decide +kernel⟩

end Session

end Fix

end OrderbookFix
