import Mathlib.Data.List.ReduceOption
import OrderbookFix.Common.Stream
import OrderbookFix.Fix.Fidelity
import OrderbookFix.Fix.Helpers.Exchange
import OrderbookFix.Fix.Totality
/-!
# What a receiver reads

Whatever a session is sent, every message it puts out parses, and the
bytes of several in a row come apart into them again, however they are
cut. The reports of its owner can be told from the rest, unless the owner
marks them as possible duplicates itself: they are the ExecutionReports
that are not marked so, and they have the fields they were handed in with.
-/

namespace OrderbookFix

namespace Fix

open Session

/-- **A receiver** that parses what comes in, and stops at what does not
parse. -/
def receive (soh : Soh) (_ : Unit) (buf : Bytes) :
    Verdict Unit (Except ParseError Message) Fault :=
  match parseOne soh buf with
  | .error e => .fail e
  | .ok r =>
    if r.err = .incomplete then .wait
    else if r.err ≠ .none then .stop () (.error r.err)
    else .take r.consumed () (.ok r.msg)

/-- An ExecutionReport that is no repetition. -/
def Message.newReport (m : Message) : Bool :=
  m.msgType = MsgType.executionReport ∧ m.get Tag.possDupFlag = none

/-- **A report as it was handed in**, under the header. -/
def Bears (m : Message) (body : Body) : Prop :=
  m.msgType = MsgType.executionReport ∧ ∀ t ∉ standardTags, m.get t = body.lookup t

/-- **A message on the wire**, and the report it has for its receiver, if
it has one. -/
def Conveys (soh : Soh) (w : WireOut) (r : Option Body) : Prop :=
  ∃ body, w = build soh body ∧ Buildable soh.byte body ∧
    (readBack soh body).newReport = r.isSome ∧ ∀ b ∈ r, Bears (readBack soh body) b

/-! ## Messages -/

section Messages

variable {soh : Soh} {body : Body}

/-- A message with a flag or of another type has no report. -/
theorem conveys_none (hb : Buildable soh.byte body)
    (h : (∃ mt, (Tag.msgType, mt) ∈ body ∧ mt ≠ MsgType.executionReport) ∨
      ∃ v, (Tag.possDupFlag, v) ∈ body) : Conveys soh (build soh body) none := by
  refine ⟨body, rfl, hb, decide_eq_false ?_, fun _ hr => by cases hr⟩
  rintro ⟨htype, hflag⟩
  rcases h with ⟨mt, hmem, hne⟩ | ⟨v, hmem⟩
  · exact hne ((msgType_of_mem hb hmem).symm.trans htype)
  · rw [get_of_mem hb hmem] at hflag
    cases hflag

namespace Session

variable {s : Session}

/-- What a session sends by itself is no report. -/
theorem Own.conveys (hu : s.Unbroken) (hb : Own s.soh body) :
    Conveys s.soh (build s.soh (s.wireBody body)) none := by
  obtain ⟨mt, rest, rfl, htags, hvalues⟩ := hb.plain
  have hne : mt ≠ MsgType.executionReport := by
    rintro rfl
    cases hb
  rw [wireBody_eq htags]
  exact conveys_none (headed_buildable hu htags hvalues) (.inl ⟨mt, by simp [headed], hne⟩)

/-- Whether a report is new to its receiver. -/
def Unmarked (body : Body) : Bool := (body.lookup Tag.possDupFlag).isNone

/-- The new report a session is given by a call. -/
def Call.newReport (c : Call) : Option Body := c.report.filter Unmarked

/-- A report that its owner marked is none. -/
theorem conveys_marked (hu : s.Unbroken) (hc : Allowed s.soh (.sendExecutionReport body))
    (hmark : Unmarked body = false) :
    Conveys s.soh (build s.soh (s.wireBody ((Tag.msgType, MsgType.executionReport) :: body)))
      none := by
  obtain ⟨v, hv⟩ : ∃ v, body.lookup Tag.possDupFlag = some v :=
    Option.isSome_iff_exists.mp (by rw [← Option.not_isNone, ← Unmarked, hmark]; rfl)
  obtain ⟨l₁, l₂, rfl, -⟩ := List.lookup_eq_some_iff.mp hv
  rw [wireBody_eq hc.1]
  exact conveys_none (headed_buildable hu hc.1 (plain_report_values hc))
    (.inr ⟨v, List.mem_append_right _ (by simp)⟩)

/-- **A report** has its fields, and no others beside the header. -/
theorem conveys_report (hu : s.Unbroken) (hc : Allowed s.soh (.sendExecutionReport body))
    (hmark : Unmarked body = true) :
    Conveys s.soh (build s.soh (s.wireBody ((Tag.msgType, MsgType.executionReport) :: body)))
      (some body) := by
  have hb := headed_buildable hu hc.1 (plain_report_values hc)
  have hmem : ∀ kv ∈ body, kv ∈ s.headed MsgType.executionReport body := fun kv hkv =>
    List.mem_append_right _ hkv
  have hget : ∀ t ∉ standardTags,
      (readBack s.soh (s.headed MsgType.executionReport body)).get t = body.lookup t := by
    intro t ht
    rcases hl : body.lookup t with _ | v
    · refine get_of_notMem hb (fun hin => ?_) fun hframe => ht ?_
      · obtain ⟨kv, hkv, rfl⟩ := List.mem_map.mp hin
        rcases tag_headed hkv with hhead | hrest
        · exact ht ((by decide : ∀ t ∈ headTags, t ∈ standardTags) _ hhead)
        · exact bne_iff_ne.mp (List.lookup_eq_none_iff.mp hl kv hrest) rfl
      · exact (by decide : ∀ t ∈ [Tag.checkSum, Tag.beginString, Tag.bodyLength],
          t ∈ standardTags) t hframe
    · obtain ⟨l₁, l₂, rfl, -⟩ := List.lookup_eq_some_iff.mp hl
      exact get_of_mem hb (hmem _ (by simp))
  have htype : (readBack s.soh (s.headed MsgType.executionReport body)).msgType =
      MsgType.executionReport := msgType_of_mem hb (by simp [headed])
  rw [wireBody_eq hc.1]
  refine ⟨_, rfl, hb, decide_eq_true ⟨htype, ?_⟩, ?_⟩
  · rw [hget _ (by decide)]
    exact Option.isNone_iff_eq_none.mp hmark
  · rintro b ⟨⟩
    exact ⟨htype, hget⟩

/-- A GapFill is no report. -/
theorem conveys_gapFill (hu : s.Unbroken) (start newSeqNo : SeqNum) :
    Conveys s.soh (s.buildGapFill start newSeqNo).2 none := by
  have hy : s.soh.byte ∉ ascii "Y" := by cases s.soh <;> decide
  have hb : Buildable s.soh.byte (s.gapFillBody start newSeqNo) := by
    refine buildable_of_tags (by decide : BuildableTags [Tag.msgType, Tag.senderCompID,
      Tag.targetCompID, Tag.msgSeqNum, Tag.sendingTime, Tag.gapFillFlag, Tag.possDupFlag,
      Tag.newSeqNo]) ?_
    simp only [gapFillBody, List.map_cons, List.map_nil, List.forall_mem_cons]
    exact ⟨by cases s.soh <;> decide, hu.sender, hu.target, notMem_dec _, hu.now _, hy, hy,
      notMem_dec _, fun _ h => (by cases h)⟩
  exact conveys_none hb (.inr ⟨ascii "Y", by simp⟩)

/-- A replay is no new report. -/
theorem conveys_replay (hk : s.Keeping) {rec : OutboundRecord} (hrec : rec ∈ s.history)
    (hfit : rec.bytes.length < 2 ^ 63) {pr : ParseResult}
    (hp : parseOne s.soh rec.bytes = .ok pr) (n : ℕ) :
    Conveys s.soh ((s.asked n).buildReplay rec pr.msg).2 none := by
  obtain ⟨mt, rest, hbytes, hb, htime⟩ := hk.retained rec hrec
  have horig := parseOne_whole hb (by rw [← hbytes]; omega)
  rw [← hbytes, hp] at horig
  obtain rfl := Except.ok.inj horig
  have hr : Buildable s.soh.byte ((s.asked n).replayBody rec
      ⟨parsedFields s.soh.byte ((Tag.msgType, mt) :: rest)⟩) :=
    replayBody_buildable (s := s.asked n) hb hk.now
      (hb.values _ (List.mem_cons_of_mem _ htime))
  exact conveys_none hr (.inr ⟨ascii "Y", List.mem_append_right _ (by simp)⟩)

end Session

end Messages

/-! ## Calls -/

namespace Session

section Calls

variable {s s₁ s' : Session} {ws ws' : List WireOut} {rs rs' : List (Option Body)} {body : Body}
  {m : Message} {step : SessionStep}

/-- **A session goes on and puts out messages**, with these reports in
them. -/
def Speaks (s s' : Session) (ws : List WireOut) (rs : List (Option Body)) : Prop :=
  s.Keeping → s.Fits → (∀ w ∈ ws, w.length < 2 ^ 63) →
    s'.Keeping ∧ s'.Fits ∧ s'.soh = s.soh ∧ List.Forall₂ (Conveys s.soh) ws rs

theorem Speaks.trans (h : Speaks s s₁ ws rs) (h' : Speaks s₁ s' ws' rs') :
    Speaks s s' (ws ++ ws') (rs ++ rs') := by
  intro hk hf hlen
  obtain ⟨hk₁, hf₁, hsoh, hws⟩ := h hk hf fun w hw => hlen w (List.mem_append_left _ hw)
  obtain ⟨hk', hf', hsoh', hws'⟩ := h' hk₁ hf₁ fun w hw => hlen w (List.mem_append_right _ hw)
  rw [hsoh] at hws'
  exact ⟨hk', hf', hsoh'.trans hsoh, List.rel_append hws hws'⟩

/-- What is not on the outbound side is not heard of. -/
theorem speaks_nothing (hcfg : s'.cfg = s.cfg) (hsoh : s'.soh = s.soh)
    (hnow : s'.providers.now = s.providers.now) (hhistory : s'.history = s.history) :
    Speaks s s' [] [] := by
  intro hk hf _
  refine ⟨hk.of_eq hcfg hsoh hnow hhistory, fun rec hrec => ?_, hsoh, .nil⟩
  rw [hhistory] at hrec
  exact hf rec hrec

/-- One message sent. -/
theorem speaks_sent {r : Option Body} (hplain : Plain s.soh.byte body)
    (hc : s.Unbroken → Conveys s.soh (build s.soh (s.wireBody body)) r) :
    Speaks s (s.sent body) [build s.soh (s.wireBody body)] [r] := by
  intro hk hf hlen
  refine ⟨hk.sent hplain, fun rec hrec => ?_, rfl, .cons (hc hk.toUnbroken) .nil⟩
  rcases mem_history_sent hrec with hold | hnew
  · exact hf rec hold
  · rw [hnew]
    exact hlen _ (List.mem_singleton_self _)

theorem speaks_own (hb : Own s.soh body) :
    Speaks s (s.sent body) [build s.soh (s.wireBody body)] [none] :=
  speaks_sent hb.plain fun hu => hb.conveys hu

/-- A Logout, whatever becomes of the session's state. -/
theorem speaks_leaving {text : Bytes} (ht : s.soh.byte ∉ text) :
    Speaks s (s.leaving.sent (logoutBody text))
      [build s.soh (s.leaving.wireBody (logoutBody text))] [none] := by
  have hleave : Speaks s s.leaving [] [] := speaks_nothing rfl rfl rfl rfl
  exact hleave.trans (speaks_own (s := s.leaving) (.logout ht))

/-- **The answer to a ResendRequest.** -/
theorem speaks_resend {start stop : SeqNum} (h : s.handleResendRequest start stop = .ok (s', ws)) :
    Speaks s s' ws (ws.map fun _ => none) := by
  intro hk hf _
  obtain ⟨n, rfl⟩ := handleResendRequest_asked h
  refine ⟨hk.of_eq rfl rfl rfl rfl, hf, rfl, List.forall₂_map_right_iff.mpr ?_⟩
  refine List.forall₂_same.mpr fun w hw => ?_
  rcases mem_handleResendRequest h hw with ⟨newSeqNo, rfl⟩ | ⟨rec, hrec, pr, hp, -, k, rfl⟩
  · exact conveys_gapFill hk.toUnbroken start newSeqNo
  · exact conveys_replay hk hrec (hf rec hrec) hp k

theorem speaks_loggingOn : Speaks s s.loggingOn [] [] := by
  intro hk hf _
  have hsub : ∀ rec ∈ s.loggingOn.history, rec ∈ s.history := by
    intro rec hrec
    change rec ∈ (if s.cfg.resetOnLogon = true then [] else s.history) at hrec
    split_ifs at hrec
    · cases hrec
    · exact hrec
  exact ⟨⟨⟨hk.sender, hk.target, hk.now⟩, fun rec hrec => hk.retained rec (hsub rec hrec)⟩,
    fun rec hrec => hf rec (hsub rec hrec), rfl, .nil⟩

theorem speaks_accepting {seq : SeqNum} (hm : Clean s.soh.byte m.fields) :
    Speaks s (s.accepting m seq) [] [] := by
  intro hk hf hlen
  obtain ⟨hk', hf', hsoh, hnil⟩ := @speaks_loggingOn s hk hf hlen
  refine ⟨⟨⟨hk.sender, ?_, hk.now⟩, hk'.retained⟩, hf', rfl, hnil⟩
  change s.soh.byte ∉ (m.get Tag.senderCompID).getD s.cfg.targetCompId
  rcases hv : m.get Tag.senderCompID with _ | v
  · exact hk.target
  · exact hm _ v hv

/-- A message in sequence. -/
theorem Routes.speaks {seq : SeqNum} (h : Routes s m seq s' step)
    (hm : Clean s.soh.byte m.fields) : Speaks s s' step.out (step.out.map fun _ => none) := by
  have hsame : Speaks s s [] [] := speaks_nothing rfl rfl rfl rfl
  cases h with
  | quiet ht => exact hsame
  | testRequest ht => exact speaks_own (.answer hm)
  | resend ht hstart hstop hr => exact speaks_resend hr
  | acknowledge ht hs =>
    exact (speaks_leaving (by cases s.soh <;> decide)).trans (speaks_nothing rfl rfl rfl rfl)
  | acknowledged ht hs => exact speaks_nothing rfl rfl rfl rfl
  | app ht => exact hsame
  | unknown ht => exact speaks_own (.reject seq hm)

/-- **A message handled** is answered with no report. -/
theorem Receives.speaks (h : Receives s m s' step) (hm : Clean s.soh.byte m.fields) :
    Speaks s s' step.out (step.out.map fun _ => none) := by
  cases h with
  | refused hoff ht => exact speaks_nothing rfl rfl rfl rfl
  | misdirected hoff ht hf => exact speaks_loggingOn
  | @admitted seq hseq hoff ht hf =>
    have hon : Speaks s (s.accepting m seq) [] [] := speaks_accepting hm
    exact hon.trans (speaks_own (s := s.accepting m seq) (.logon _))
  | gap hseq hon hgap => exact speaks_own (.resend _)
  | low hseq hon hlow h0 => exact speaks_leaving (by cases s.soh <;> decide)
  | @taken seq _ _ hseq hon htaken hd =>
    have hin : Speaks s { s with inSeq := seq } [] [] := speaks_nothing rfl rfl rfl rfl
    exact hin.trans (hd.speaks hm)

/-- A round of the reader. -/
theorem Turns.speaks {buf : Bytes} (h : Turns s buf s' step) :
    Speaks s s' step.out (step.out.map fun _ => none) := by
  rcases h with ⟨hp, herr⟩ | ⟨hp, hnone, hm⟩
  · unfold sendLogout
    rw [buildMessage_eq]
    exact speaks_leaving (by cases s.soh <;> decide)
  · obtain ⟨-, -, hclean⟩ := parseOne_none hp hnone
    have hheard : Speaks s s.heard [] [] := speaks_nothing rfl rfl rfl rfl
    exact hheard.trans ((handleMessage_receives hm).speaks hclean)

theorem onBytes_speaks {data : Bytes} (h : s.onBytes data = .ok (s', step)) :
    Speaks s s' step.out (step.out.map fun _ => none) := by
  let J : List Turn → Session → Prop := fun rs s₁ =>
    Speaks s s₁ ((rs.map Round.out).flatMap SessionStep.out)
      (((rs.map Round.out).flatMap SessionStep.out).map fun _ => none)
  have hround : ∀ (rs : List Turn) (s₁ : Session) (buf : Bytes) (s₂ : Session)
      (step : SessionStep), J rs s₁ → Turns s₁ buf s₂ step →
      J (rs ++ [⟨s₁, buf, step, s₂⟩]) s₂ := by
    intro rs s₁ buf s₂ step hj hturn
    have hboth := Speaks.trans hj hturn.speaks
    change Speaks s s₂ _ _
    rwa [List.map_append, List.flatMap_append, List.map_singleton, List.flatMap_singleton,
      List.map_append]
  have hsame : ∀ (rs : List Turn) (s₁ : Session) (b : Bytes), J rs s₁ → J rs (s₁.withBuf b) := by
    intro rs s₁ b hj
    have hbuf : Speaks s₁ (s₁.withBuf b) [] [] := speaks_nothing rfl rfl rfl rfl
    have hboth := Speaks.trans hj hbuf
    rwa [List.append_nil, List.append_nil] at hboth
  obtain ⟨hstep, hcase⟩ := onBytes_inv (J := fun rs s₁ _ => J rs s₁) (K := J)
    (fun rs s₁ b _ => hsame rs s₁ b) hsame
    (fun rs s₁ buf n s₂ step hj hn => hround rs s₁ buf s₂ step hj (turns_of_take hn))
    (fun rs s₁ buf s₂ step hj hn => hround rs s₁ buf s₂ step hj (turns_of_stop hn).1)
    (speaks_nothing rfl rfl rfl rfl) h
  rw [hstep, SessionStep.out_mergeAll]
  exact hcase.elim And.right And.right

theorem tick_speaks {now : Int} (h : s.tick now = (s', step)) :
    Speaks s s' step.out (step.out.map fun _ => none) := by
  rcases tick_cases h with _ | hon | hon | hon
  · exact speaks_nothing rfl rfl rfl rfl
  · exact (speaks_own (.testRequest _)).trans (speaks_nothing rfl rfl rfl rfl)
  · exact (speaks_leaving (by cases s.soh <;> decide)).trans (speaks_nothing rfl rfl rfl rfl)
  · exact speaks_own .heartbeat

theorem Evolves.now_eq {X : Body → Prop} {n : ℕ} (h : Evolves X s n s') :
    s'.providers.now = s.providers.now := by
  induction h with
  | refl => rfl
  | idle _ hs ih => exact hs.now.trans ih
  | send _ _ ih => exact ih
  | clear _ ih => exact ih
  | adopt _ _ ih => exact ih

/-- What no call changes. -/
theorem perform_keeps {c : Call} {steps : List SessionStep} (h : s.perform c = .ok (s', steps)) :
    s'.soh = s.soh ∧ s'.providers.now = s.providers.now := by
  by_cases hc : c = .resetSeq
  · subst hc
    obtain ⟨rfl, -⟩ := Prod.mk.inj (Except.ok.inj h)
    exact ⟨rfl, rfl⟩
  · obtain ⟨n, -, he⟩ := perform_evolves (X := fun _ => True) h hc (fun _ _ => trivial)
      fun _ _ => trivial
    exact ⟨he.soh_eq, he.now_eq⟩

/-- **A call** puts out the report it is given, and no other. -/
theorem perform_speaks {c : Call} {steps : List SessionStep} (hc : Allowed s.soh c)
    (h : s.perform c = .ok (s', steps)) :
    ∃ rs : List (Option Body), Speaks s s' (steps.flatMap SessionStep.out) rs ∧
      rs.reduceOption = c.newReport.toList := by
  have hnone : ∀ ws : List WireOut, (ws.map fun _ => (none : Option Body)).reduceOption = [] := by
    intro ws
    rw [List.reduceOption, List.filterMap_map]
    exact List.filterMap_eq_nil_iff.mpr fun _ _ => rfl
  cases perform_cases h with
  | initiateLogon =>
    have hstate : Speaks s { s with state := .logonSent } [] [] := speaks_nothing rfl rfl rfl rfl
    exact ⟨[none], hstate.trans (speaks_own (s := { s with state := .logonSent }) (.logon _)), rfl⟩
  | @onBytes data s' step hb =>
    rw [List.flatMap_singleton]
    exact ⟨_, onBytes_speaks hb, hnone _⟩
  | executionReport body =>
    have hplain := plain_report hc
    cases hmark : Unmarked body with
    | true =>
      have hnew : (Call.sendExecutionReport body).newReport = some body :=
        Option.filter_some_pos hmark
      rw [hnew]
      exact ⟨[some body], speaks_sent hplain fun hu => conveys_report hu hc hmark, rfl⟩
    | false =>
      have hnew : (Call.sendExecutionReport body).newReport = none :=
        Option.filter_some_neg hmark
      rw [hnew]
      exact ⟨[none], speaks_sent hplain fun hu => conveys_marked hu hc hmark, rfl⟩
  | heartbeat => exact ⟨[none], speaks_own .heartbeat, rfl⟩
  | logout text => exact ⟨[none], speaks_leaving hc, rfl⟩
  | resetSeq => exact ⟨[], speaks_nothing rfl rfl rfl rfl, rfl⟩
  | @tick now s' step ht =>
    rw [List.flatMap_singleton]
    exact ⟨_, tick_speaks ht, hnone _⟩

/-- **A run** puts out the reports it is given, in order. -/
theorem run_speaks {calls : List Call} {steps : List SessionStep}
    (hcalls : ∀ c ∈ calls, Allowed s.soh c) (h : run perform s calls = .ok (s', steps)) :
    ∃ rs : List (Option Body), Speaks s s' (steps.flatMap SessionStep.out) rs ∧
      rs.reduceOption = calls.filterMap Call.newReport := by
  refine (run_inv_returns (P := Allowed s.soh) (J := fun past steps s₁ => s₁.soh = s.soh ∧
    ∃ rs : List (Option Body), Speaks s s₁ (steps.flatMap SessionStep.out) rs ∧
      rs.reduceOption = past.filterMap Call.newReport) ?_ ⟨rfl, [], ?_, rfl⟩ hcalls h).2
  · rintro past steps s₁ c s₂ out ⟨hsoh, rs, hspeaks, hrs⟩ hc hp
    rw [← hsoh] at hc
    obtain ⟨rs', hspeaks', hrs'⟩ := perform_speaks hc hp
    refine ⟨(perform_keeps hp).1.trans hsoh, rs ++ rs', ?_, ?_⟩
    · rw [List.flatMap_append]
      exact hspeaks.trans hspeaks'
    · rw [List.reduceOption_append, hrs, hrs', List.filterMap_append]
      cases hr : c.newReport with
      | none => rw [List.filterMap_cons_none hr]; rfl
      | some body => rw [List.filterMap_cons_some hr]; rfl
  · exact speaks_nothing rfl rfl rfl rfl

end Calls

end Session

/-! ## What is handed out -/

namespace Session

section Handed

variable {s s' : Session} {step : SessionStep}

/-- What is handed out was parsed, so that no value has the separator. -/
theorem onBytes_clean {data : Bytes} (h : s.onBytes data = .ok (s', step)) :
    ∀ m ∈ step.app, Clean s.soh.byte m.fields := by
  let J : List Turn → Session → Prop := fun rs s₁ =>
    s₁.soh = s.soh ∧ ∀ m ∈ (rs.map Round.out).flatMap SessionStep.app, Clean s.soh.byte m.fields
  have hround : ∀ (rs : List Turn) (s₁ : Session) (buf : Bytes) (s₂ : Session)
      (step : SessionStep), J rs s₁ → Turns s₁ buf s₂ step →
      J (rs ++ [⟨s₁, buf, step, s₂⟩]) s₂ := by
    rintro rs s₁ buf s₂ step ⟨hsoh, happ⟩ hturn
    obtain ⟨n, -, he⟩ := hturn.evolves (X := fun _ => True)
    refine ⟨he.soh_eq.trans hsoh, fun m hm => ?_⟩
    rw [List.map_append, List.flatMap_append, List.map_singleton, List.flatMap_singleton] at hm
    rcases List.mem_append.mp hm with hm | hm
    · exact happ m hm
    · rcases hturn with ⟨hp, herr⟩ | ⟨hp, hnone, hh⟩
      · cases hm
      · obtain ⟨rfl, -⟩ := handleMessage_kind hh hm
        rw [← hsoh]
        exact (parseOne_none hp hnone).2.2
  obtain ⟨hstep, hcase⟩ := onBytes_inv (J := fun rs s₁ _ => J rs s₁) (K := J)
    (fun _ _ _ _ hj => hj) (fun _ _ _ hj => hj)
    (fun rs s₁ buf n s₂ step hj hn => hround rs s₁ buf s₂ step hj (turns_of_take hn))
    (fun rs s₁ buf s₂ step hj hn => hround rs s₁ buf s₂ step hj (turns_of_stop hn).1)
    ⟨rfl, fun m hm => by cases hm⟩ h
  rw [hstep, SessionStep.app_mergeAll]
  exact hcase.elim (fun hj => hj.2.2) fun hj => hj.2.2

theorem perform_clean {c : Call} {steps : List SessionStep} (h : s.perform c = .ok (s', steps)) :
    ∀ m ∈ steps.flatMap SessionStep.app, Clean s.soh.byte m.fields := by
  cases perform_cases h with
  | onBytes hb =>
    rw [List.flatMap_singleton]
    exact onBytes_clean hb
  | tick ht =>
    rw [List.flatMap_singleton]
    rcases tick_cases ht with _ | _ | _ | _ <;> exact fun _ hm => by cases hm
  | _ => exact fun _ hm => by cases hm

/-- **What a run hands out** is free of the separator. -/
theorem run_clean {calls : List Call} {steps : List SessionStep}
    (h : run perform s calls = .ok (s', steps)) :
    s'.providers.now = s.providers.now ∧
      ∀ m ∈ steps.flatMap SessionStep.app, Clean s.soh.byte m.fields := by
  refine (run_inv_returns (P := fun _ => True) (J := fun _ steps s₁ => s₁.soh = s.soh ∧
    s₁.providers.now = s.providers.now ∧
      ∀ m ∈ steps.flatMap SessionStep.app, Clean s.soh.byte m.fields) ?_
    ⟨rfl, rfl, fun _ hm => by cases hm⟩ (fun _ _ => trivial) h).2
  rintro past steps s₁ c s₂ out ⟨hsoh, hnow, hclean⟩ - hp
  obtain ⟨hsoh', hnow'⟩ := perform_keeps hp
  refine ⟨hsoh'.trans hsoh, hnow'.trans hnow, fun m hm => ?_⟩
  rw [List.flatMap_append] at hm
  rcases List.mem_append.mp hm with hm | hm
  · exact hclean m hm
  · rw [← hsoh]
    exact perform_clean hp m hm

end Handed

end Session

/-! ## Streams -/

theorem steady_receive (soh : Soh) : Steady (receive soh) (2 ^ 63) where
  nil _ := by cases soh <;> rfl
  append _ buf ext hne hlen := by
    have hverdict : ∀ r, parseOne soh buf = .ok r → r.err ≠ .incomplete := by
      intro r hr hinc
      refine hne ?_
      rw [receive, hr]
      exact if_pos hinc
    rw [receive, receive, parseOne_append hlen hverdict]
  take _ buf n s' out h := by
    rw [receive] at h
    rcases hp : parseOne soh buf with e | r
    · rw [hp] at h
      cases h
    rw [hp] at h
    dsimp only at h
    split_ifs at h with hinc herr
    obtain ⟨rfl, -⟩ := Verdict.take.inj h
    obtain ⟨hpos, hle, -⟩ := parseOne_none hp (not_not.mp herr)
    exact ⟨hpos, hle⟩

/-- A message is read whole. -/
def ReadsAs (soh : Soh) (w : WireOut) (m : Message) : Prop :=
  parseOne soh w = .ok ⟨.none, w.length, m⟩

/-- **What a receiver makes of a stream**, when all but `rest` of it has
come in: the first messages, whole and in order, with the reports among
them, and a part of the next. -/
structure Heard (soh : Soh) (ws : List WireOut) (reports : List Body) (rest : Bytes)
    (ms : List Message) (left : Bytes) : Prop where
  read : ∃ ws₁ ws₂, ws = ws₁ ++ ws₂ ∧ List.Forall₂ (ReadsAs soh) ws₁ ms ∧
    left ++ rest = ws₂.flatten
  told : ∃ seen, seen <+: reports ∧ List.Forall₂ Bears (ms.filter Message.newReport) seen
  whole : rest = [] → left = [] ∧ List.Forall₂ (ReadsAs soh) ws ms ∧
    List.Forall₂ Bears (ms.filter Message.newReport) reports

section Streams

variable {soh : Soh} {w : WireOut} {ws ws₁ : List WireOut} {rs rs₁ : List (Option Body)}
  {ms : List Message}

/-- A message at the head of the buffer is taken off it. -/
theorem Conveys.receive {r : Option Body} (h : Conveys soh w r) :
    ∃ m, (∀ rest, (w ++ rest).length < 2 ^ 63 →
        Fix.receive soh () (w ++ rest) = .take w.length () (.ok m)) ∧
      (w.length < 2 ^ 63 → ReadsAs soh w m) ∧ m.newReport = r.isSome ∧ ∀ b ∈ r, Bears m b := by
  obtain ⟨body, rfl, hb, hnew, hbears⟩ := h
  refine ⟨readBack soh body, fun rest hlen => ?_, fun hlen => ?_, hnew, hbears⟩
  · rw [Fix.receive, parseOne_build hb rest (by omega)]
    rfl
  · exact parseOne_whole hb (by omega)

/-- The reports among the messages read, with one more message. -/
theorem bears_concat {m : Message} {r : Option Body} (hnew : m.newReport = r.isSome)
    (hbears : ∀ b ∈ r, Bears m b)
    (h : List.Forall₂ Bears (ms.filter Message.newReport) rs.reduceOption) :
    List.Forall₂ Bears ((ms ++ [m]).filter Message.newReport) (rs ++ [r]).reduceOption := by
  rw [List.filter_append, List.reduceOption_append]
  refine List.rel_append h ?_
  cases r with
  | none => rw [List.filter_cons_of_neg (by rw [hnew]; exact Bool.false_ne_true)]; exact .nil
  | some b =>
    rw [List.filter_cons_of_pos hnew]
    exact .cons (hbears b rfl) .nil

/-- Where a receiver is in a stream: what was read, and what is still to
come. -/
def Midstream (soh : Soh) (ws : List WireOut) (rs : List (Option Body)) (later : List WireOut)
    (_ : Unit) (outs : List (Except ParseError Message)) : Prop :=
  ∃ ms ws₁ rs₁ rs₂, outs = ms.map .ok ∧ ws = ws₁ ++ later ∧ rs = rs₁ ++ rs₂ ∧
    List.Forall₂ (Conveys soh) later rs₂ ∧ List.Forall₂ (ReadsAs soh) ws₁ ms ∧
    List.Forall₂ Bears (ms.filter Message.newReport) rs₁.reduceOption

/-- The next message is read. -/
theorem Midstream.next {later : List WireOut} {outs : List (Except ParseError Message)}
    (h : Midstream soh ws rs (w :: later) () outs) (hlen : ws.flatten.length < 2 ^ 63) :
    ∃ m, (∀ rest, (w ++ rest).length < 2 ^ 63 →
        receive soh () (w ++ rest) = .take w.length () (.ok m)) ∧
      Midstream soh ws rs later () (outs ++ [.ok m]) := by
  obtain ⟨ms, ws₁, rs₁, rs₂, rfl, hws, hrs, hall, hreads, hbears⟩ := h
  cases hall with
  | @cons _ r _ rs₂ hw hrest =>
    obtain ⟨m, htake, hread, hnew, hr⟩ := hw.receive
    have hshort : w.length < 2 ^ 63 := by
      rw [hws, List.flatten_append, List.flatten_cons] at hlen
      simp only [List.length_append] at hlen
      omega
    refine ⟨m, htake, ms ++ [m], ws₁ ++ [w], rs₁ ++ [r], rs₂, ?_, ?_, ?_, hrest,
      List.rel_append hreads (.cons (hread hshort) .nil), bears_concat hnew hr hbears⟩
    · rw [List.map_append, List.map_singleton]
    · rw [hws, List.append_assoc, List.singleton_append]
    · rw [hrs, List.append_assoc, List.singleton_append]

/-- **A stream of messages is read back**, however it is cut. -/
theorem heard_of_conveys (h : List.Forall₂ (Conveys soh) ws rs) {chunks : List Bytes}
    {rest : Bytes} (hcut : chunks.flatten ++ rest = ws.flatten)
    (hlen : ws.flatten.length < 2 ^ 63) :
    ∃ ms left, feed (receive soh) () [] chunks = .ok (.more () left (ms.map .ok)) ∧
      Heard soh ws rs.reduceOption rest ms left := by
  have hst := steady_receive soh
  have hfit : ([] ++ chunks.flatten).length < 2 ^ 63 := by
    have hall := congrArg List.length hcut
    rw [List.length_append] at hall
    rw [List.nil_append]
    omega
  have hstart : Midstream soh ws rs ws () [] :=
    ⟨[], [], [], rs, rfl, rfl, rfl, h, .nil, .nil⟩
  rw [feed_eq_pumpAll hst (hst.nil ()) hfit, List.nil_append]
  have hitem : ∀ w later s outs, Midstream soh ws rs (w :: later) s outs →
      (∃ s' out, (∀ rest, (w ++ rest).length < 2 ^ 63 →
          receive soh s (w ++ rest) = .take w.length s' out) ∧
        Midstream soh ws rs later s' (outs ++ [out])) ∨
      ∃ s' out, (∀ rest, (w ++ rest).length < 2 ^ 63 → receive soh s (w ++ rest) = .stop s' out) ∧
        False := by
    intro w later s outs hmid
    obtain ⟨m, htake, hnext⟩ := hmid.next hlen
    exact .inl ⟨(), .ok m, htake, hnext⟩
  rcases pumpAll_items hst (K := fun _ _ => False) hitem hstart hcut hlen with
    ⟨later, s', left, outs, hpump, hmid, hleft, hnil⟩ | ⟨s', outs, -, hfalse⟩
  · obtain ⟨ms, ws₁, rs₁, rs₂, rfl, hws, hrs, hrest, hreads, hbears⟩ := hmid
    refine ⟨ms, left, hpump, ⟨ws₁, later, hws, hreads, hleft⟩, ⟨rs₁.reduceOption, ?_, hbears⟩,
      fun hdone => ?_⟩
    · rw [hrs, List.reduceOption_append]
      exact List.prefix_append ..
    · obtain rfl := hnil hdone
      cases hrest
      subst hdone
      rw [List.append_nil] at hws hrs hleft
      subst hws hrs
      exact ⟨hleft, hreads, hbears⟩
  · exact hfalse.elim

/-- **The stream of a session** is read back, with the reports it was
given. -/
theorem heard_of_run {s s' : Session} {calls : List Call} {steps : List SessionStep}
    (hk : s.Keeping) (hf : s.Fits) (hcalls : ∀ c ∈ calls, Allowed s.soh c)
    (hrun : run perform s calls = .ok (s', steps)) {chunks : List Bytes} {rest : Bytes}
    (hcut : chunks.flatten ++ rest = (steps.flatMap SessionStep.out).flatten)
    (hlen : (steps.flatMap SessionStep.out).flatten.length < 2 ^ 63) :
    ∃ ms left, feed (receive s.soh) () [] chunks = .ok (.more () left (ms.map .ok)) ∧
      Heard s.soh (steps.flatMap SessionStep.out) (calls.filterMap Call.newReport) rest ms left := by
  obtain ⟨rs, hspeaks, hrs⟩ := run_speaks hcalls hrun
  have hshort : ∀ w ∈ steps.flatMap SessionStep.out, w.length < 2 ^ 63 := fun w hw =>
    (List.sublist_flatten_of_mem hw).length_le.trans_lt hlen
  obtain ⟨-, -, -, hconveys⟩ := hspeaks hk hf hshort
  rw [← hrs]
  exact heard_of_conveys hconveys hcut hlen

end Streams

/-- **A session can be read.** Whatever it is sent and whenever it is
asked for what, the bytes it puts out, cut anywhere and cut off anywhere,
are read as the messages they were built from, and the new
ExecutionReports among these are the reports it was given, in order,
but for those that were marked as possible duplicates when it got them. -/
theorem run_legible (cfg : SessionConfig) (soh : Soh) (order : FieldOrder) (now : ℕ → Bytes)
    (clock : ℕ → Int) (calls : List Call) (s : Session) (steps : List SessionStep)
    (hsender : soh.byte ∉ cfg.senderCompId) (htarget : soh.byte ∉ cfg.targetCompId)
    (hnow : ∀ n, soh.byte ∉ now n) (hcalls : ∀ c ∈ calls, Allowed soh c)
    (hrun : run perform (makeSession cfg soh order now clock) calls = .ok (s, steps))
    (hlen : (steps.flatMap SessionStep.out).flatten.length < 2 ^ 63) (chunks : List Bytes)
    (rest : Bytes) (hcut : chunks.flatten ++ rest = (steps.flatMap SessionStep.out).flatten) :
    ∃ ms left, feed (receive soh) () [] chunks = .ok (.more () left (ms.map .ok)) ∧
      Heard soh (steps.flatMap SessionStep.out) (calls.filterMap Call.newReport) rest ms left :=
  heard_of_run (s := makeSession cfg soh order now clock)
    ⟨⟨hsender, htarget, hnow⟩, fun _ h => by cases h⟩ (fun _ h => by cases h) hcalls hrun hcut hlen

/-- A Logon, a report, and a request to send both again. -/
def askedAgain : List Call :=
  [.onBytes logonBytes, .sendExecutionReport (Net.execReportForAck ⟨7, ⟨ascii "X"⟩⟩ 7),
    .onBytes (build .text [(Tag.msgType, MsgType.resendRequest), (Tag.msgSeqNum, ascii "2"),
      (Tag.beginSeqNo, ascii "1"), (Tag.endSeqNo, ascii "0")])]

/-- The four messages in two pieces: one of them is a new report. -/
theorem run_legible_askedAgain :
    ∃ s steps, run perform testSession askedAgain = .ok (s, steps) ∧
      (steps.flatMap SessionStep.out).length = 4 ∧
      ∃ ms left, feed (receive .text) () []
          [(steps.flatMap SessionStep.out).flatten.take 100,
            (steps.flatMap SessionStep.out).flatten.drop 100] =
          .ok (.more () left (ms.map .ok)) ∧
        Heard .text (steps.flatMap SessionStep.out)
          [Net.execReportForAck ⟨7, ⟨ascii "X"⟩⟩ 7] [] ms left := by
  obtain ⟨s, steps, hrun, hcheck⟩ := @exists_of_run_check _ _ _ _ perform
    (fun r => decide ((r.2.flatMap SessionStep.out).length = 4 ∧
      (r.2.flatMap SessionStep.out).flatten.length < 2 ^ 63)) testSession askedAgain
    (by decide +kernel)
  obtain ⟨hfour, hlen⟩ := of_decide_eq_true hcheck
  have hcalls : ∀ c ∈ askedAgain, Allowed .text c := by decide +kernel
  exact ⟨s, steps, hrun, hfour, run_legible _ _ _ _ _ askedAgain s steps (by decide) (by decide)
    (fun _ => (by decide : Soh.text.byte ∉ ascii "20260513-00:00:00.000")) hcalls hrun hlen _ []
    (by simp)⟩

end Fix

end OrderbookFix
