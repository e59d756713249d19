import OrderbookFix.Fix.Helpers.Frame
/-!
# Framing

A buffer gets past the framing exactly if it starts with a frame: the
length field counts the body, and the checksum sums what stands before
it. The parser keeps its length field in 64 bits, so it also takes one
that is too large by a multiple of the word size, and it reads outside
the buffer where the sum of a position and the length wraps.
-/

namespace OrderbookFix

namespace Fix

open Bytes

/-- **A buffer that starts with a frame.** -/
def Framed (soh : Soh) (buf : Bytes) : Prop :=
  ∃ f : Frame, ∃ rest, buf = f.bytes soh.byte ++ rest ∧ f.Holds soh.byte (· = ·)

/-- **A length field too large by a multiple of the word size**, in a
frame that holds otherwise. -/
def Overlong (soh : Soh) (buf : Bytes) : Prop :=
  ∃ f : Frame, ∃ rest, buf = f.bytes soh.byte ++ rest ∧
    f.Holds soh.byte fun n len => ∃ k, n = len + (k + 1) * 2 ^ 64

/-- The verdict of the framing on a buffer is about frames. -/
def FramingCorrect (soh : Soh) (buf : Bytes) : Prop :=
  ∃ r, parseOne soh buf = .ok r ∧ (¬ r.err.Framing ↔ Framed soh buf)

/-- Two frames at the front of one buffer have one length field. -/
theorem Frame.len_inj {soh : Soh} {f g : Frame} {rest rest' : Bytes} (hf : Digits f.len)
    (hg : Digits g.len) (h : f.bytes soh.byte ++ rest = g.bytes soh.byte ++ rest') :
    f.len = g.len := by
  simp only [Frame.bytes, Frame.front, opening, List.append_assoc, List.cons_append,
    List.append_cancel_left_eq, List.cons.injEq, true_and] at h
  exact (append_cons_inj (hf.notMem (isDigit_soh soh)) (hg.notMem (isDigit_soh soh)) h).1

/-- What the parser takes for the length is the length, or too large. -/
theorem framed_or_overlong {soh : Soh} {buf : Bytes} {r : ParseResult}
    (hbuf : buf.length < 2 ^ 63) (h : parseOne soh buf = .ok r) (hr : ¬ r.err.Framing) :
    Framed soh buf ∨ Overlong soh buf := by
  obtain ⟨f, rest, heq, hf, -⟩ := exists_frame hbuf h hr
  have hmod := hf.length
  rw [Frame.Wrapped] at hmod
  have hdiv := Nat.mod_add_div (digitsValue f.len) (2 ^ 64)
  rw [hmod] at hdiv
  rcases Nat.eq_zero_or_pos (digitsValue f.len / 2 ^ 64) with hz | hpos
  · refine .inl ⟨f, rest, heq, hf.imp fun _ => ?_⟩
    rw [hz] at hdiv
    omega
  · refine .inr ⟨f, rest, heq, hf.imp fun _ => ⟨digitsValue f.len / 2 ^ 64 - 1, ?_⟩⟩
    rw [Nat.sub_add_cancel hpos, Nat.mul_comm]
    exact hdiv.symm

theorem Framed.parseOne {soh : Soh} {buf : Bytes} (hbuf : buf.length < 2 ^ 63)
    (h : Framed soh buf) : ∃ r, parseOne soh buf = .ok r ∧ ¬ r.err.Framing := by
  obtain ⟨f, rest, rfl, hf⟩ := h
  have hbody := f.length_body_le soh.byte rest
  exact ⟨_, parseOne_of_holds (by omega) (hf.wrapped (by omega)), parseFields_not_framing⟩

theorem Overlong.parseOne {soh : Soh} {buf : Bytes} (hbuf : buf.length < 2 ^ 63)
    (h : Overlong soh buf) : ∃ r, parseOne soh buf = .ok r ∧ ¬ r.err.Framing := by
  obtain ⟨f, rest, rfl, hf⟩ := h
  have hbody := f.length_body_le soh.byte rest
  have hwrapped : f.Holds soh.byte Frame.Wrapped := by
    refine hf.imp fun ⟨k, hk⟩ => ?_
    rw [Frame.Wrapped, hk]
    omega
  exact ⟨_, parseOne_of_holds (by omega) hwrapped, parseFields_not_framing⟩

/-- The length field is one number, so a frame is not also too long. -/
theorem Overlong.not_framed {soh : Soh} {buf : Bytes} (hbuf : buf.length < 2 ^ 63)
    (h : Overlong soh buf) : ¬ Framed soh buf := by
  rintro ⟨g, rest', hg, hgood⟩
  obtain ⟨f, rest, hf, hlong⟩ := h
  have hlen := Frame.len_inj hlong.len hgood.len (hf.symm.trans hg)
  obtain ⟨k, hk⟩ := hlong.length
  have hbody := hgood.length
  have hsize := g.length_body_le soh.byte rest'
  rw [hg] at hbuf
  rw [hlen] at hk
  omega

theorem Overlong.not_correct {soh : Soh} {buf : Bytes} (hbuf : buf.length < 2 ^ 63)
    (h : Overlong soh buf) : ¬ FramingCorrect soh buf := by
  rintro ⟨r, hr, hiff⟩
  obtain ⟨r', hr', hpast⟩ := h.parseOne hbuf
  obtain rfl := Except.ok.inj (hr.symm.trans hr')
  exact h.not_framed hbuf (hiff.mp hpast)

/-- **The framing accepts frames and nothing else**, where the length
field is neither one of those whose sum with the position wraps nor too
large by a multiple of the word size. -/
theorem framing_correct_iff {soh : Soh} {buf : Bytes} (hbuf : buf.length < 2 ^ 63) :
    FramingCorrect soh buf ↔ ¬ LengthWraps soh buf ∧ ¬ Overlong soh buf := by
  rw [← wraps_iff, ← parseOne_returns_iff hbuf]
  constructor
  · rintro ⟨r, hr, hiff⟩
    exact ⟨⟨r, hr⟩, fun hlong => hlong.not_correct hbuf ⟨r, hr, hiff⟩⟩
  · rintro ⟨⟨r, hr⟩, hlong⟩
    refine ⟨r, hr, fun hpast => ?_, fun hframed => ?_⟩
    · exact (framed_or_overlong hbuf hr hpast).resolve_right hlong
    · obtain ⟨r', hr', hpast⟩ := hframed.parseOne hbuf
      obtain rfl := Except.ok.inj (hr.symm.trans hr')
      exact hpast

/-- A Heartbeat whose length field says five. -/
theorem framing_correct_heartbeat :
    Framed .text (ascii "8=FIX.4.4|9=5|35=0|10=020|") ∧
      FramingCorrect .text (ascii "8=FIX.4.4|9=5|35=0|10=020|") := by
  have hbuf : (ascii "8=FIX.4.4|9=5|35=0|10=020|").length < 2 ^ 63 := by decide
  have hframed : Framed .text (ascii "8=FIX.4.4|9=5|35=0|10=020|") :=
    ⟨⟨ascii "5", ascii "35=0|", ascii "020"⟩, [], by decide, by decide, by decide,
      ⟨rfl, (by decide : Digits (ascii "020")).2⟩, by decide⟩
  refine ⟨hframed, (framing_correct_iff hbuf).mpr ⟨?_, fun h => h.not_framed hbuf hframed⟩⟩
  rw [← wraps_iff, ← parseOne_returns_iff hbuf]
  obtain ⟨r, hr, -⟩ := hframed.parseOne hbuf
  exact ⟨r, hr⟩

/-- A Heartbeat of five bytes whose length field says `2^64 + 5`: the
parser takes it. -/
theorem overlong_heartbeat_accepted :
    ¬ FramingCorrect .text (ascii "8=FIX.4.4|9=18446744073709551621|35=0|10=243|") := by
  refine Overlong.not_correct (by decide)
    ⟨⟨ascii "18446744073709551621", ascii "35=0|", ascii "243"⟩, [], ?_, ?_⟩
  · decide
  · exact ⟨by decide, ⟨0, by decide⟩, ⟨rfl, (by decide : Digits (ascii "243")).2⟩, by decide⟩

end Fix

end OrderbookFix
