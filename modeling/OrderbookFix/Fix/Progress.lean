import OrderbookFix.Fix.Helpers.Frame
import OrderbookFix.Fix.Helpers.Reader
/-!
# Verdicts that stand and a loop that ends

What the parser says of a buffer it says of every longer one, unless it
asks for more; so a message is found incomplete until its last byte is
there. A message it takes has at least the 21 bytes of an empty one, even
where the length field wraps, so the loop of `on_bytes` goes on with a
shorter buffer each time and ends.
-/

namespace OrderbookFix

namespace Fix

open Bytes

/-! ## Longer and shorter buffers -/

section Verdicts

variable {r : ParseResult}

theorem eq_failed_of_ok {e : ParseError}
    (h : (.ok (.failed e) : Except Fault ParseResult) = .ok r) : r = .failed r.err := by
  rw [← Except.ok.inj h]
  rfl

theorem parseTrailer_framing {soh : UInt8} {buf : Bytes} {bodyEnd : ℕ}
    (h : parseTrailer soh buf bodyEnd = .ok r) (hr : r.err.Framing) : r = .failed r.err := by
  simp only [parseTrailer, bind, Except.bind, pure, Except.pure] at h
  split at h
  · cases h
  split_ifs at h
  · exact eq_failed_of_ok h
  split at h
  · cases h
  split_ifs at h
  · exact eq_failed_of_ok h
  split at h
  · cases h
  split_ifs at h
  · exact eq_failed_of_ok h
  split at h
  · exact eq_failed_of_ok h
  split at h
  · cases h
  split_ifs at h
  · exact eq_failed_of_ok h
  · exact eq_failed_of_ok h
  · rw [← Except.ok.inj h] at hr
    exact absurd hr parseFields_not_framing

/-- A verdict on the frame comes with nothing else. -/
theorem parseOne_framing {soh : Soh} {buf : Bytes} (h : parseOne soh buf = .ok r)
    (hr : r.err.Framing) : r = .failed r.err := by
  rw [parseOne] at h
  split_ifs at h
  · exact eq_failed_of_ok h
  · exact eq_failed_of_ok h
  · exact eq_failed_of_ok h
  · exact eq_failed_of_ok h
  rw [parseFrame] at h
  split at h
  · exact eq_failed_of_ok h
  split at h
  · exact eq_failed_of_ok h
  dsimp only at h
  split_ifs at h
  · exact eq_failed_of_ok h
  · exact parseTrailer_framing h hr

end Verdicts

theorem parseOne_incomplete {soh : Soh} {buf : Bytes} {r : ParseResult}
    (h : parseOne soh buf = .ok r) (hr : r.err = .incomplete) : r = .failed .incomplete := by
  have heq := parseOne_framing h (.inl hr)
  rwa [hr] at heq

/-- **Verdicts are stable.** Whatever the parser says of a buffer other
than that it is incomplete, a read outside it included, it says of every
extension; and a message cut short anywhere is incomplete. -/
theorem verdict_stable (soh : Soh) (b : Bytes) (hb : b.length < 2 ^ 63) :
    (∀ x, (b ++ x).length < 2 ^ 63 → (∀ r, parseOne soh b = .ok r → r.err ≠ .incomplete) →
      parseOne soh (b ++ x) = parseOne soh b) ∧
    ∀ r, parseOne soh b = .ok r → r.err = .none → r.consumed = b.length →
      ∀ n < b.length, parseOne soh (b.take n) = .ok (.failed .incomplete) := by
  refine ⟨fun x hlen h => parseOne_append hlen h, fun r hr hnone hall n hn => ?_⟩
  by_cases hinc : ∃ r', parseOne soh (b.take n) = .ok r' ∧ r'.err = .incomplete
  · obtain ⟨r', hr', hinc⟩ := hinc
    rw [hr', parseOne_incomplete hr' hinc]
  -- otherwise the part is taken as the message is, which has bytes it has not
  have hsame := @parseOne_append soh (b.take n) (b.drop n) (by rwa [List.take_append_drop])
    fun r' hr' he => hinc ⟨r', hr', he⟩
  rw [List.take_append_drop, hr] at hsame
  obtain ⟨-, hle, -⟩ := parseOne_none hsame.symm hnone
  rw [List.length_take] at hle
  omega

/-- A Heartbeat, with bytes behind it and cut short. -/
theorem verdict_stable_heartbeat :
    parseOne .text (ascii "8=FIX.4.4|9=5|35=0|10=020|8=F") =
        parseOne .text (ascii "8=FIX.4.4|9=5|35=0|10=020|") ∧
      parseOne .text (ascii "8=FIX.4.4|9=5|35=0|10=02") = .ok (.failed .incomplete) := by
  obtain ⟨hlong, hshort⟩ := verdict_stable .text (ascii "8=FIX.4.4|9=5|35=0|10=020|") (by decide)
  obtain ⟨r, hr, hcheck⟩ := (passes_iff
    (p := fun r : ParseResult => decide (r.err = .none ∧ r.consumed = 26))
    (r := parseOne .text (ascii "8=FIX.4.4|9=5|35=0|10=020|"))).mp (by decide +kernel)
  obtain ⟨hnone, hall⟩ := of_decide_eq_true hcheck
  refine ⟨hlong (ascii "8=F") (by decide) fun r' hr' => ?_, hshort r hr hnone hall 24 (by decide)⟩
  rw [← Except.ok.inj (hr.symm.trans hr'), hnone]
  decide

/-! ## Where the walk over the fields ends -/

/-- The walk over the fields, with the position it stands at when it
ends. -/
def walkTo (soh : UInt8) (buf : Bytes) (bodyEnd : ℕ) :
    ℕ → ℕ → Fields → (ParseError × Fields) × ℕ
  | 0, i, fields => ((.none, fields), i)
  | fuel + 1, i, fields =>
    if i < bodyEnd then
      match findFrom 0x3d i buf with
      | none => ((.malformedField, fields), i)
      | some eq =>
        if bodyEnd ≤ eq then ((.malformedField, fields), i)
        else
          match parseUint (substr buf i (eq - i)) with
          | none => ((.malformedField, fields), i)
          | some tag =>
            match findFrom soh (eq + 1) buf with
            | none => ((.malformedField, fields), i)
            | some sohAt =>
              if bodyEnd < sohAt then ((.malformedField, fields), i)
              else if toInt32 tag ∈ fields then ((.duplicateField, fields), i)
              else
                walkTo soh buf bodyEnd fuel (sohAt + 1)
                  (fields.insert (toInt32 tag) (substr buf (eq + 1) (sohAt - (eq + 1))))
    else ((.none, fields), i)

section Walk

variable {soh : UInt8} {buf : Bytes} {bodyEnd fuel i : ℕ} {fields : Fields}

/-- It is the walk of the parser. -/
theorem walkTo_fst :
    (walkTo soh buf bodyEnd fuel i fields).1 = walkFields soh buf bodyEnd fuel i fields := by
  induction fuel generalizing i fields with
  | zero => rfl
  | succ fuel ih =>
    rw [walkTo, walkFields]
    split_ifs with hi
    · rcases findFrom 0x3d i buf with _ | eq
      · rfl
      dsimp only
      split_ifs with hbe
      · rfl
      rcases parseUint (substr buf i (eq - i)) with _ | tag
      · rfl
      dsimp only
      rcases findFrom soh (eq + 1) buf with _ | sohAt
      · rfl
      dsimp only
      split_ifs with hpast hdup
      · rfl
      · rfl
      · exact ih
    · rfl

/-- One step of a walk that ends well. -/
theorem exists_step_of_walkTo (hlt : i < bodyEnd)
    (h : (walkTo soh buf bodyEnd (fuel + 1) i fields).1.1 = .none) :
    ∃ sohAt fields', i < sohAt ∧ sohAt ≤ bodyEnd ∧ buf[sohAt]? = some soh ∧
      walkTo soh buf bodyEnd (fuel + 1) i fields =
        walkTo soh buf bodyEnd fuel (sohAt + 1) fields' := by
  rw [walkTo, if_pos hlt] at h ⊢
  rcases heq : findFrom 0x3d i buf with _ | eq
  · rw [heq] at h
    cases h
  rw [heq] at h
  dsimp only at h ⊢
  by_cases hbe : bodyEnd ≤ eq
  · rw [if_pos hbe] at h
    cases h
  rw [if_neg hbe] at h ⊢
  rcases htag : parseUint (substr buf i (eq - i)) with _ | tag
  · rw [htag] at h
    cases h
  rw [htag] at h
  dsimp only at h ⊢
  rcases hsoh : findFrom soh (eq + 1) buf with _ | sohAt
  · rw [hsoh] at h
    cases h
  rw [hsoh] at h
  dsimp only at h ⊢
  by_cases hpast : bodyEnd < sohAt
  · rw [if_pos hpast] at h
    cases h
  rw [if_neg hpast] at h ⊢
  by_cases hdup : toInt32 tag ∈ fields
  · rw [if_pos hdup] at h
    cases h
  have hie := (findFrom_spec heq).1
  obtain ⟨hes, hat⟩ := findFrom_spec hsoh
  exact ⟨sohAt, _, by omega, by omega, hat, if_neg hdup⟩

/-- **The walk ends at the trailer.** No byte of it is a separator, so
the last field ends right before it. -/
theorem walkTo_end (hend : buf[bodyEnd]? ≠ some soh) (hi : i ≤ bodyEnd)
    (hfuel : bodyEnd - i ≤ fuel) (h : (walkTo soh buf bodyEnd fuel i fields).1.1 = .none) :
    (walkTo soh buf bodyEnd fuel i fields).2 = bodyEnd := by
  induction fuel generalizing i fields with
  | zero =>
    change i = bodyEnd
    omega
  | succ fuel ih =>
    by_cases hlt : i < bodyEnd
    · obtain ⟨sohAt, fields', his, hle, hat, hstep⟩ := exists_step_of_walkTo hlt h
      rw [hstep] at h ⊢
      have hne : sohAt ≠ bodyEnd := fun hc => hend (hc ▸ hat)
      exact ih (by omega) (by omega) h
    · rw [walkTo, if_neg hlt]
      change i = bodyEnd
      omega

end Walk

/-- **What is taken is a whole message**: it has the bytes of an empty
one and is in the buffer, and its fields end where its trailer starts. -/
structure TakesWhole (soh : Soh) (buf : Bytes) (r : ParseResult) : Prop where
  least : 21 ≤ r.consumed
  inside : r.consumed ≤ buf.length
  ends : ∃ bodyEnd, r.consumed = bodyEnd + 7 ∧ substr buf bodyEnd 3 = ascii "10=" ∧
    (walkTo soh.byte buf bodyEnd bodyEnd 0 ∅).2 = bodyEnd

theorem parseOne_takesWhole {soh : Soh} {buf : Bytes} {r : ParseResult}
    (h : parseOne soh buf = .ok r) (hr : r.err = .none) : TakesWhole soh buf r := by
  obtain ⟨e, n, h12, hsoh, hhead, hn, htrail⟩ :=
    parseOne_eq_ok h (by rw [hr]; exact not_framing_none)
  obtain ⟨hne, hdigits, -⟩ := parseUint_eq_some_iff.mp hn
  obtain ⟨cs, hin, hdrop, -, -, hres⟩ :=
    parseTrailer_eq_ok htrail (by rw [hr]; exact not_framing_none)
  set bodyEnd := (e + 1 + n.toNat) % 2 ^ 64
  have hat : ∀ i c, (buf.drop bodyEnd)[i]? = some c → buf[bodyEnd + i]? = some c := by
    intro i c hc
    rwa [List.getElem?_drop] at hc
  have hlt : e < bodyEnd := lt_of_trailer h12 hsoh hhead hdigits
    (hat 0 _ (by rw [hdrop]; rfl)) (hat 1 _ (by rw [hdrop]; rfl)) (hat 2 _ (by rw [hdrop]; rfl))
  have hdigit : 13 ≤ e := by
    by_contra hc
    obtain rfl : e = 12 := by omega
    exact hne (by rw [Nat.sub_self, substr, List.take_zero])
  have hfields : (parseFields soh.byte buf bodyEnd cs.toUInt32).err = .none := hres ▸ hr
  have hconsumed : r.consumed = bodyEnd + 7 := by
    rw [hres]
    exact (parseFields_none hfields).1
  refine ⟨by omega, by omega, bodyEnd, hconsumed, ?_, ?_⟩
  · rw [substr, hdrop]
    rfl
  · refine walkTo_end ?_ (Nat.zero_le _) (Nat.le_refl _) ?_
    · have hone : buf[bodyEnd]? = some 0x31 := hat 0 0x31 (by rw [hdrop]; rfl)
      rw [hone]
      cases soh <;> decide
    · rw [walkTo_fst]
      rw [parseFields] at hfields
      rcases hw : walkFields soh.byte buf bodyEnd bodyEnd 0 ∅ with ⟨err, fields⟩
      rw [hw] at hfields
      cases err with
      | none => rfl
      | _ => exact hfields

/-! ## The loop without a bound -/

namespace Session

/-- **One round of the loop of `on_bytes`**, and whether it goes on. -/
def iterate (s : Session) (total : SessionStep) : Except Fault (Bool × Session × SessionStep) :=
  if s.inBuf = [] then .ok (false, s, total)
  else
    match parseOne s.soh s.inBuf with
    | .error e => .error e
    | .ok pr =>
      if pr.err = .incomplete then .ok (false, s, total)
      else if pr.err ≠ .none then
        let (s, w) := s.sendLogout (ascii "malformed message")
        .ok (false, { s with inBuf := [] },
          { total with out := total.out ++ [w], disconnect := true })
      else
        let s := { s with inBuf := s.inBuf.drop pr.consumed }
        let (s, t) := s.steadyNow
        let s := { s with lastInbound := t, testRequestOutstanding := false }
        match s.handleMessage pr.msg with
        | .error e => .error e
        | .ok (s, step) =>
          let total := { total with out := total.out ++ step.out, app := total.app ++ step.app }
          if step.disconnect then .ok (false, s, { total with disconnect := true })
          else .ok (true, s, total)

/-- **The loop run to its end**, however many rounds that takes. -/
inductive Loop : Session → SessionStep → Except Fault (Session × SessionStep) → Prop
  | raise {s : Session} {total : SessionStep} {e : Fault} (h : iterate s total = .error e) :
      Loop s total (.error e)
  | leave {s : Session} {total : SessionStep} {r : Session × SessionStep}
      (h : iterate s total = .ok (false, r)) : Loop s total (.ok r)
  | again {s s' : Session} {total total' : SessionStep} {r : Except Fault (Session × SessionStep)}
      (h : iterate s total = .ok (true, s', total')) (h' : Loop s' total' r) : Loop s total r

section Loop

variable {s s' : Session} {total total' : SessionStep}

theorem drain_succ (fuel : ℕ) :
    drain (fuel + 1) s total =
      match iterate s total with
      | .error e => .error e
      | .ok (true, s', total') => drain fuel s' total'
      | .ok (false, r) => .ok r := by
  rw [drain, iterate]
  by_cases hbuf : s.inBuf = []
  · rw [if_pos hbuf, if_pos hbuf]
  rw [if_neg hbuf, if_neg hbuf]
  rcases parseOne s.soh s.inBuf with e | pr
  · rfl
  dsimp only
  by_cases hinc : pr.err = .incomplete
  · rw [if_pos hinc, if_pos hinc]
  rw [if_neg hinc, if_neg hinc]
  by_cases herr : pr.err ≠ .none
  · rw [if_pos herr, if_pos herr]
  rw [if_neg herr, if_neg herr]
  rcases Session.handleMessage _ pr.msg with e | ⟨s₂, step⟩
  · rfl
  dsimp only
  cases step.disconnect <;> rfl

/-- Handling a message does not touch the buffer. -/
theorem inBuf_handleMessage {m : Message} {step : SessionStep}
    (h : s.handleMessage m = .ok (s', step)) : s'.inBuf = s.inBuf := by
  have hm := handleMessage_withBuf s s.inBuf m
  rw [withBuf_inBuf, h] at hm
  exact congrArg (fun r : Session × SessionStep => r.1.inBuf) (Except.ok.inj hm)

/-- **Every round that goes on shortens the buffer.** -/
theorem iterate_shortens (h : iterate s total = .ok (true, s', total')) :
    s'.inBuf.length < s.inBuf.length := by
  rw [iterate] at h
  by_cases hbuf : s.inBuf = []
  · rw [if_pos hbuf] at h
    cases h
  rw [if_neg hbuf] at h
  rcases hp : parseOne s.soh s.inBuf with e | pr
  · rw [hp] at h
    cases h
  rw [hp] at h
  dsimp only at h
  by_cases hinc : pr.err = .incomplete
  · rw [if_pos hinc] at h
    cases h
  rw [if_neg hinc] at h
  by_cases herr : pr.err ≠ .none
  · rw [if_pos herr] at h
    cases h
  rw [if_neg herr] at h
  split at h
  · cases h
  rename_i s₁ step hm
  split_ifs at h with hd
  · cases h
  obtain ⟨rfl, -⟩ := Prod.mk.inj (Prod.mk.inj (Except.ok.inj h)).2
  obtain ⟨hpos, hle, -⟩ := parseOne_none hp (not_not.mp herr)
  rw [inBuf_handleMessage hm]
  change (s.inBuf.drop pr.consumed).length < s.inBuf.length
  rw [List.length_drop]
  omega

theorem loop_drain {fuel : ℕ} (hfuel : s.inBuf.length ≤ fuel) :
    Loop s total (drain fuel s total) := by
  induction fuel generalizing s total with
  | zero =>
    have hbuf : s.inBuf = [] := List.eq_nil_of_length_eq_zero (by omega)
    exact .leave (by rw [iterate, if_pos hbuf])
  | succ fuel ih =>
    rw [drain_succ]
    rcases hi : iterate s total with e | ⟨_ | _, s', total'⟩
    · exact .raise hi
    · exact .leave hi
    · have hlt := iterate_shortens hi
      exact .again hi (ih (by omega))

theorem Loop.unique {r r' : Except Fault (Session × SessionStep)} (h : Loop s total r)
    (h' : Loop s total r') : r = r' := by
  induction h with
  | raise hi =>
    cases h' with
    | raise hi' => exact congrArg _ (Except.error.inj (hi.symm.trans hi'))
    | leave hi' => cases hi.symm.trans hi'
    | again hi' _ => cases hi.symm.trans hi'
  | leave hi =>
    cases h' with
    | raise hi' => cases hi.symm.trans hi'
    | leave hi' => exact congrArg _ (Prod.mk.inj (Except.ok.inj (hi.symm.trans hi'))).2
    | again hi' _ => cases hi.symm.trans hi'
  | again hi _ ih =>
    cases h' with
    | raise hi' => cases hi.symm.trans hi'
    | leave hi' => cases hi.symm.trans hi'
    | again hi' hloop =>
      obtain ⟨rfl, rfl⟩ := Prod.mk.inj (Prod.mk.inj (Except.ok.inj (hi.symm.trans hi'))).2
      exact ih hloop

end Loop

/-- **The receive loop makes progress.** A message that is taken has at
least 21 bytes, all of them in the buffer, and its fields end where its
trailer starts. So each round of the loop that goes on leaves a shorter
buffer, and the loop ends on every input, with what `on_bytes` returns. -/
theorem receive_progress :
    (∀ (soh : Soh) (buf : Bytes) (r : ParseResult), parseOne soh buf = .ok r → r.err = .none →
      TakesWhole soh buf r) ∧
    (∀ (s s' : Session) (total total' : SessionStep), iterate s total = .ok (true, s', total') →
      s'.inBuf.length < s.inBuf.length) ∧
    ∀ (s : Session) (data : Bytes) (r : Except Fault (Session × SessionStep)),
      Loop { s with inBuf := s.inBuf ++ data } {} r ↔ r = s.onBytes data := by
  refine ⟨fun soh buf r => parseOne_takesWhole, fun s s' total total' => iterate_shortens,
    fun s data r => ?_⟩
  have hloop : Loop { s with inBuf := s.inBuf ++ data } {} (s.onBytes data) :=
    loop_drain (Nat.le_refl _)
  exact ⟨fun h => h.unique hloop, fun h => h ▸ hloop⟩

/-- A message without a body is taken whole; a Logon with a TestRequest
behind it leaves the TestRequest for the next round. -/
theorem receive_progress_shortest :
    (∃ r, parseOne .text (ascii "8=FIX.4.4|9=0|10=190|") = .ok r ∧ r.consumed = 21 ∧
      TakesWhole .text (ascii "8=FIX.4.4|9=0|10=190|") r) ∧
    ∃ s total, iterate (testSession.withBuf (logonBytes ++ testRequestBytes "2")) {} =
        .ok (true, s, total) ∧
      s.inBuf = testRequestBytes "2" ∧
      s.inBuf.length < (testSession.withBuf (logonBytes ++ testRequestBytes "2")).inBuf.length := by
  constructor
  · obtain ⟨r, hr, hcheck⟩ := (passes_iff
      (p := fun r : ParseResult => decide (r.err = .none ∧ r.consumed = 21))
      (r := parseOne .text (ascii "8=FIX.4.4|9=0|10=190|"))).mp (by decide +kernel)
    obtain ⟨hnone, hconsumed⟩ := of_decide_eq_true hcheck
    exact ⟨r, hr, hconsumed, receive_progress.1 _ _ r hr hnone⟩
  · obtain ⟨⟨on, s, total⟩, hi, hcheck⟩ := (passes_iff
      (p := fun r : Bool × Session × SessionStep =>
        decide (r.1 = true ∧ r.2.1.inBuf = testRequestBytes "2"))
      (r := iterate (testSession.withBuf (logonBytes ++ testRequestBytes "2")) {})).mp
        (by decide +kernel)
    obtain ⟨hon, hbuf⟩ := of_decide_eq_true hcheck
    obtain rfl : on = true := hon
    exact ⟨s, total, hi, hbuf, receive_progress.2.1 _ s _ total hi⟩

end Session

end Fix

end OrderbookFix
