import OrderbookFix.Fix.Model.Timeline
import Mathlib.Data.List.DropRight
/-!
# Outbound numbers and the ring

What a run put out is entered into an account, call by call and, within
`on_bytes`, message by message. A message is entered as sent again if it
answers a ResendRequest, and as built otherwise; a Logon that a
disconnected session handles is entered as a reset if the session resets
on Logon, and nothing else is. By this account the messages built since
the last reset are numbered one after the other, and the ring holds the
last of them as they were built.
-/

namespace OrderbookFix

namespace Fix

namespace Session

/-! ## The account of a run -/

/-- A line of an account. -/
inductive Line where
  /-- The sequence was reset by a Logon. -/
  | reset
  /-- A message was built. -/
  | built (w : WireOut)
  /-- A replay or a GapFill was sent. -/
  | resent (w : WireOut)

/-- What a line puts on the wire. -/
def Line.wires : Line → List WireOut
  | .reset => []
  | .built w => [w]
  | .resent w => [w]

/-- **A message that resets the sequence**: a Logon, handled in
Disconnected by a session that resets on Logon. -/
def Resets (s : Session) (m : Message) : Prop :=
  s.state = .disconnected ∧ m.msgType = MsgType.logon ∧ s.cfg.resetOnLogon = true

instance (s : Session) (m : Message) : Decidable (s.Resets m) :=
  inferInstanceAs (Decidable (_ ∧ _))

/-- The lines of a message that was handled: the reset if it is one, and
what it was answered with. -/
def handledLines (s : Session) (m : Message) (out : List WireOut) : List Line :=
  (if s.Resets m then [.reset] else []) ++
    out.map (if s.TakesResend m then .resent else .built)

/-- The lines of a round. Bytes that are no message are answered with a
Logout. -/
def Turn.lines (r : Turn) : List Line :=
  match Turn.message r with
  | some m => r.before.handledLines m r.out.out
  | none => r.out.out.map .built

/-- **The lines of a call.** -/
def Moment.lines (p : Moment) : List Line :=
  match p.call with
  | .onBytes data => (p.before.turns data).flatMap Turn.lines
  | _ => (Moment.wires p).map .built

/-- The messages built since the last reset, after others. -/
def builtAfter (built : List WireOut) (ls : List Line) : List WireOut :=
  ls.foldl (fun built line =>
    match line with
    | .reset => []
    | .built w => built ++ [w]
    | .resent _ => built) built

/-- **The messages built since the last reset.** -/
def sinceReset (ls : List Line) : List WireOut := builtAfter [] ls

/-- The values of MsgSeqNum in a message. -/
def numbersIn (fields : Body) : List Bytes :=
  (fields.filter fun kv => kv.1 = Tag.msgSeqNum).map Prod.snd

/-- The SendingTime of a message. -/
def timeOf (fields : Body) : Bytes :=
  ((fields.find? fun kv => kv.1 = Tag.sendingTime).map Prod.snd).getD []

/-- The records of messages built one after the other, from the first
number on. -/
def records (soh : Soh) (built : List Body) : List OutboundRecord :=
  built.zipIdx.map fun p => ⟨UInt64.ofNat (p.2 + 1), timeOf p.1, build soh p.1⟩

/-- The fields of a message that `build_message` gave its number. -/
def GivenNumber (fields : Body) : Prop :=
  ∃ (s : Session) (body : Body), seen body Tag.msgSeqNum = false ∧ fields = s.wireBody body

/-- **Numbers and ring, as the words of the machine have them**: the
messages carry 1, 2, 3 and so on modulo the word size, and the ring holds
the last of those with a number other than 0. -/
structure Numbered (msgs : List Body) (s : Session) : Prop where
  given : ∀ fields ∈ msgs, GivenNumber fields
  outSeq : s.outSeq = UInt64.ofNat msgs.length
  numbers : ∀ i fields, msgs[i]? = some fields → numbersIn fields = [decimal ((i + 1) % 2 ^ 64)]
  ring : s.history = ((records s.soh msgs).filter fun rec => rec.seq ≠ 0).rtake
    s.cfg.outboundHistorySize

/-! ## The fields of a message built -/

section Fields

variable {s : Session} {body : Body}

theorem notMem_of_seen {t : Int} (h : seen body t = false) : ∀ kv ∈ body, kv.1 ≠ t := by
  intro kv hkv he
  have hs : seen body t = true := List.any_eq_true.mpr ⟨kv, hkv, decide_eq_true he⟩
  rw [h] at hs
  cases hs

/-- The MsgType field of a body, and what is left without it. -/
def bodyType (body : Body) : Body := ((msgTypePos body).bind (body[·]?)).toList

def bodyRest (body : Body) : Body :=
  match msgTypePos body with
  | some i => body.eraseIdx i
  | none => body

theorem mem_bodyType {kv : Int × Bytes} (h : kv ∈ bodyType body) : kv ∈ body := by
  unfold bodyType at h
  rcases hp : msgTypePos body with _ | i
  · rw [hp] at h
    cases h
  · rw [hp] at h
    exact List.mem_of_getElem? (Option.mem_toList.mp h)

theorem mem_bodyRest {kv : Int × Bytes} (h : kv ∈ bodyRest body) : kv ∈ body := by
  unfold bodyRest at h
  rcases hp : msgTypePos body with _ | i
  · rw [hp] at h
    exact h
  · rw [hp] at h
    exact (List.eraseIdx_sublist body i).subset h

/-- A field of the standard header, where the body has none. -/
def header (body : Body) (t : Int) (v : Bytes) : Body := if seen body t then [] else [(t, v)]

theorem wireBody_parts (s : Session) (body : Body) :
    s.wireBody body =
      bodyType body ++ header body Tag.senderCompID s.cfg.senderCompId ++
        header body Tag.targetCompID s.cfg.targetCompId ++
        header body Tag.msgSeqNum (dec (s.outSeq + 1)) ++
        header body Tag.sendingTime (s.providers.now s.providers.nowCalls) ++ bodyRest body := rfl

theorem filter_header {t u : Int} {v : Bytes} (hne : u ≠ t) :
    (header body u v).filter (fun kv => kv.1 = t) = [] := by
  rw [List.filter_eq_nil_iff]
  intro kv hkv he
  unfold header at hkv
  split_ifs at hkv
  · cases hkv
  · rw [List.mem_singleton.mp hkv] at he
    exact hne (of_decide_eq_true he)

theorem filter_header_self {t : Int} {v : Bytes} (hb : seen body t = false) :
    (header body t v).filter (fun kv => kv.1 = t) = [(t, v)] := by
  unfold header
  rw [hb, if_neg Bool.false_ne_true, List.filter_cons_of_pos (by simp)]
  rfl

/-- Without one from the caller, a message carries one field of a tag of
the header. -/
theorem filter_wireBody {t : Int} {v : Bytes} (hb : seen body t = false)
    (hpart : (header body Tag.senderCompID s.cfg.senderCompId ++
        header body Tag.targetCompID s.cfg.targetCompId ++
        header body Tag.msgSeqNum (dec (s.outSeq + 1)) ++
        header body Tag.sendingTime (s.providers.now s.providers.nowCalls)).filter
          (fun kv => kv.1 = t) = [(t, v)]) :
    (s.wireBody body).filter (fun kv => kv.1 = t) = [(t, v)] := by
  have hno : ∀ l : Body, (∀ kv ∈ l, kv ∈ body) → l.filter (fun kv => kv.1 = t) = [] := by
    intro l hl
    rw [List.filter_eq_nil_iff]
    intro kv hkv he
    exact notMem_of_seen hb kv (hl kv hkv) (of_decide_eq_true he)
  have hparts : s.wireBody body = bodyType body ++
      (header body Tag.senderCompID s.cfg.senderCompId ++
        header body Tag.targetCompID s.cfg.targetCompId ++
        header body Tag.msgSeqNum (dec (s.outSeq + 1)) ++
        header body Tag.sendingTime (s.providers.now s.providers.nowCalls)) ++ bodyRest body := by
    rw [wireBody_parts]
    simp only [List.append_assoc]
  rw [hparts, List.filter_append, List.filter_append, hno _ fun _ => mem_bodyType,
    hno _ fun _ => mem_bodyRest, hpart]
  rfl

/-- **A message built carries one MsgSeqNum**, the next. -/
theorem numbersIn_wireBody (hb : seen body Tag.msgSeqNum = false) :
    numbersIn (s.wireBody body) = [dec (s.outSeq + 1)] := by
  unfold numbersIn
  rw [filter_wireBody (v := dec (s.outSeq + 1)) hb]
  · rfl
  · rw [List.filter_append, List.filter_append, List.filter_append,
      @filter_header body Tag.msgSeqNum Tag.senderCompID _ (by decide),
      @filter_header body Tag.msgSeqNum Tag.targetCompID _ (by decide), filter_header_self hb,
      @filter_header body Tag.msgSeqNum Tag.sendingTime _ (by decide)]
    rfl

/-- The time kept with a message is the SendingTime it carries. -/
theorem wireTime_eq_timeOf : s.wireTime body = timeOf (s.wireBody body) := by
  unfold wireTime
  rcases hseen : seen body Tag.sendingTime with _ | _
  · dsimp only
    rw [if_neg Bool.false_ne_true]
    split_ifs with hnow
    · rfl
    · -- the caller gave no time, so the first one of the message is that of the header
      have hfilter := filter_wireBody (s := s) (v := s.providers.now s.providers.nowCalls) hseen
        (by
          rw [List.filter_append, List.filter_append, List.filter_append,
            @filter_header body Tag.sendingTime Tag.senderCompID _ (by decide),
            @filter_header body Tag.sendingTime Tag.targetCompID _ (by decide),
            @filter_header body Tag.sendingTime Tag.msgSeqNum _ (by decide),
            filter_header_self hseen]
          rfl)
      unfold timeOf
      rw [← List.head?_filter, hfilter]
      rfl
  · rfl

end Fields

/-! ## What a move does to the account -/

section Moves

variable {s s' s₁ s₂ : Session} {ls ls' : List Line} {msgs : List Body} {m : Message}
  {step : SessionStep}

theorem records_concat (soh : Soh) (built : List Body) (fields : Body) :
    records soh (built ++ [fields]) =
      records soh built ++
        [⟨UInt64.ofNat (built.length + 1), timeOf fields, build soh fields⟩] := by
  unfold records
  rw [List.zipIdx_append, List.map_append, Nat.zero_add]
  rfl

/-- Keeping the last of the last and one more is keeping the last. -/
theorem rtake_rtake_concat {α : Type*} {l : List α} {x : α} {n : ℕ} (hn : 0 < n) :
    (l.rtake n ++ [x]).rtake n = (l ++ [x]).rtake n := by
  obtain ⟨k, rfl⟩ : ∃ k, n = k + 1 := ⟨n - 1, by omega⟩
  rw [List.rtake_concat_succ, List.rtake_concat_succ]
  congr 1
  simp only [List.rtake_eq_reverse_take_reverse, List.reverse_reverse, List.take_take]
  congr 2
  omega

/-- **A message built** gets the next number and goes to the end of the
ring. -/
theorem Numbered.build (h : Numbered msgs s) {body : Body} (hb : seen body Tag.msgSeqNum = false) :
    Numbered (msgs ++ [s.wireBody body]) (s.sent body) := by
  have hnext : s.outSeq + 1 = UInt64.ofNat (msgs.length + 1) := by
    rw [h.outSeq, UInt64.ofNat_add]
    rfl
  have hassigned : s.assignedSeq body = s.outSeq + 1 := by
    unfold assignedSeq
    rw [hb]
    rfl
  constructor
  · refine List.forall_mem_append.mpr ⟨h.given, ?_⟩
    exact List.forall_mem_singleton.mpr ⟨s, body, hb, rfl⟩
  · rw [List.length_append, List.length_singleton, ← hnext]
    change (if seen body Tag.msgSeqNum = true then _ else _) = _
    rw [hb]
    rfl
  · intro i fields hi
    rcases Nat.lt_trichotomy i msgs.length with hlt | rfl | hgt
    · rw [List.getElem?_append_left hlt] at hi
      exact h.numbers i fields hi
    · rw [List.getElem?_concat_length] at hi
      rw [← Option.some.inj hi, numbersIn_wireBody hb, hnext]
      unfold dec
      rw [UInt64.toNat_ofNat']
    · rw [List.getElem?_eq_none (by rw [List.length_append, List.length_singleton]; omega)] at hi
      cases hi
  · change s.sentHistory body = _
    rw [records_concat, List.filter_append, ← hnext]
    change s.sentHistory body = (((records s.soh msgs).filter _) ++ _).rtake
      s.cfg.outboundHistorySize
    unfold sentHistory
    rw [hassigned, wireTime_eq_timeOf]
    by_cases h0 : s.outSeq + 1 = 0
    · -- the number wrapped to 0: the message is not kept
      rw [if_neg fun hc => hc.1 h0, List.filter_cons_of_neg (by simpa using h0), List.filter_nil,
        List.append_nil]
      exact h.ring
    rw [List.filter_cons_of_pos (by simpa using h0), List.filter_nil]
    by_cases hsize : s.cfg.outboundHistorySize > 0
    · rw [if_pos ⟨h0, hsize⟩, ← rtake_rtake_concat hsize, ← h.ring]
      rfl
    · have hzero : s.cfg.outboundHistorySize = 0 := by omega
      rw [if_neg fun hc => hsize hc.2, h.ring, hzero, List.rtake_zero, List.rtake_zero]

/-- A session with nothing built since a reset. -/
theorem numbered_nil (hseq : s.outSeq = 0) (hnil : s.history = []) : Numbered [] s :=
  ⟨fun _ h => (by cases h), hseq, fun _ _ h => (by cases h),
    hnil.trans (List.rtake_nil _).symm⟩

/-- Two sessions with the same outbound side. -/
structure SameOutbound (s s' : Session) : Prop where
  soh : s'.soh = s.soh
  size : s'.cfg.outboundHistorySize = s.cfg.outboundHistorySize
  outSeq : s'.outSeq = s.outSeq
  history : s'.history = s.history

theorem Numbered.congr (h : Numbered msgs s) (hs : SameOutbound s s') : Numbered msgs s' :=
  ⟨h.given, hs.outSeq.trans h.outSeq, h.numbers, by rw [hs.history, hs.soh, hs.size, h.ring]⟩

/-- **A move that its lines account for**: what was numbered before it and
its lines are what is numbered after it. -/
structure Entered (s : Session) (ls : List Line) (s' : Session) : Prop where
  soh : s'.soh = s.soh
  size : s'.cfg.outboundHistorySize = s.cfg.outboundHistorySize
  numbered : ∀ msgs, Numbered msgs s → ∃ msgs',
    builtAfter (msgs.map (build s.soh)) ls = msgs'.map (build s.soh) ∧ Numbered msgs' s'

theorem builtAfter_append (built : List WireOut) (ls ls' : List Line) :
    builtAfter built (ls ++ ls') = builtAfter (builtAfter built ls) ls' := List.foldl_append

theorem Entered.trans (h : Entered s ls s₁) (h' : Entered s₁ ls' s₂) :
    Entered s (ls ++ ls') s₂ := by
  refine ⟨h'.soh.trans h.soh, h'.size.trans h.size, fun msgs hn => ?_⟩
  obtain ⟨msgs₁, hbuilt₁, hn₁⟩ := h.numbered msgs hn
  obtain ⟨msgs₂, hbuilt₂, hn₂⟩ := h'.numbered msgs₁ hn₁
  refine ⟨msgs₂, ?_, hn₂⟩
  rw [h.soh] at hbuilt₂
  rw [builtAfter_append, hbuilt₁, hbuilt₂]

/-- A move that leaves the outbound side alone has no line. -/
theorem SameOutbound.entered (h : SameOutbound s s') : Entered s [] s' :=
  ⟨h.soh, h.size, fun msgs hn => ⟨msgs, rfl, hn.congr h⟩⟩

theorem Entered.other (h : Entered s ls s₁) (hs : SameOutbound s₁ s₂) : Entered s ls s₂ := by
  have := h.trans hs.entered
  rwa [List.append_nil] at this

/-- One message built, by a session with the same outbound side. -/
theorem sent_entered (s₁ : Session) {body : Body} (h : SameOutbound s s₁)
    (hb : seen body Tag.msgSeqNum = false) :
    Entered s [.built (build s.soh (s₁.wireBody body))] (s₁.sent body) := by
  refine ⟨h.soh, h.size, fun msgs hn => ⟨msgs ++ [s₁.wireBody body], ?_, (hn.congr h).build hb⟩⟩
  rw [List.map_append]
  rfl

/-- Messages sent again have no number of their own. -/
theorem resent_entered {ws : List WireOut} (h : SameOutbound s s') :
    Entered s (ws.map .resent) s' := by
  refine ⟨h.soh, h.size, fun msgs hn => ⟨msgs, ?_, hn.congr h⟩⟩
  rw [builtAfter, List.foldl_map, List.foldl_const]
  exact congrFun (Function.iterate_id _) _

/-- A Logon in Disconnected resets the sequence, or leaves it. -/
theorem loggingOn_entered :
    Entered s (if s.cfg.resetOnLogon = true then [.reset] else []) s.loggingOn := by
  unfold loggingOn
  rcases s.cfg.resetOnLogon with _ | _
  · exact SameOutbound.entered ⟨rfl, rfl, rfl, rfl⟩
  · exact ⟨rfl, rfl, fun msgs _ => ⟨[], rfl, numbered_nil rfl rfl⟩⟩

end Moves

/-! ## Every call is accounted for -/

section Calls

variable {s s' : Session} {m : Message} {step : SessionStep}

/-- What any other message than a ResendRequest is answered with is
built. -/
theorem Routes.entered {seq : SeqNum} (h : Routes s m seq s' step)
    (ht : m.msgType ≠ MsgType.resendRequest) : Entered s (step.out.map .built) s' := by
  have hsame : SameOutbound s s := ⟨rfl, rfl, rfl, rfl⟩
  have hleave : SameOutbound s s.leaving := ⟨rfl, rfl, rfl, rfl⟩
  cases h with
  | quiet _ => exact hsame.entered
  | testRequest _ => exact sent_entered s hsame rfl
  | resend hresend _ _ _ => exact absurd hresend ht
  | acknowledge _ _ => exact (sent_entered s.leaving hleave rfl).other ⟨rfl, rfl, rfl, rfl⟩
  | acknowledged _ _ => exact SameOutbound.entered ⟨rfl, rfl, rfl, rfl⟩
  | app _ => exact hsame.entered
  | unknown _ => exact sent_entered s hsame rfl

theorem Routes.resent {seq : SeqNum} (h : Routes s m seq s' step)
    (ht : m.msgType = MsgType.resendRequest) : Entered s (step.out.map .resent) s' := by
  have hno : ∀ {mt : Bytes}, m.msgType = mt → mt ≠ MsgType.resendRequest → False :=
    fun h hne => hne (h.symm.trans ht)
  cases h with
  | quiet hq =>
    rcases of_decide_eq_true hq with hq | hq | hq
    · exact (hno hq (by decide)).elim
    · exact (hno hq (by decide)).elim
    · exact (hno hq (by decide)).elim
  | testRequest h => exact (hno h (by decide)).elim
  | resend _ _ _ hr =>
    obtain ⟨n, rfl⟩ := handleResendRequest_asked hr
    exact resent_entered ⟨rfl, rfl, rfl, rfl⟩
  | acknowledge h _ => exact (hno h (by decide)).elim
  | acknowledged h _ => exact (hno h (by decide)).elim
  | app happ =>
    rw [ht] at happ
    exact absurd happ (by decide)
  | unknown h =>
    rw [ht] at h
    exact absurd (by decide) h

/-- **A message handled is accounted for.** -/
theorem Receives.entered (h : Receives s m s' step) :
    Entered s (s.handledLines m step.out) s' := by
  have hsame : SameOutbound s s := ⟨rfl, rfl, rfl, rfl⟩
  have hleave : SameOutbound s s.leaving := ⟨rfl, rfl, rfl, rfl⟩
  rw [handledLines]
  by_cases hoff : s.state = .disconnected
  · -- the first message of a connection: only a Logon does anything
    have htakes : ¬ s.TakesResend m := fun h => h.1 hoff
    have hresets : m.msgType = MsgType.logon → (s.Resets m ↔ s.cfg.resetOnLogon = true) :=
      fun ht => ⟨fun h => h.2.2, fun h => ⟨hoff, ht, h⟩⟩
    rw [if_neg htakes]
    cases h with
    | refused _ ht =>
      rw [if_neg fun h => ht h.2.1]
      exact hsame.entered
    | misdirected _ ht _ =>
      rw [if_congr (hresets ht) rfl rfl]
      exact loggingOn_entered.trans (SameOutbound.entered ⟨rfl, rfl, rfl, rfl⟩)
    | @admitted seq hseq _ ht hf =>
      rw [if_congr (hresets ht) rfl rfl]
      have hon : Entered s (if s.cfg.resetOnLogon = true then [.reset] else [])
          (s.accepting m seq) := loggingOn_entered.other ⟨rfl, rfl, rfl, rfl⟩
      exact hon.trans (sent_entered _ ⟨rfl, rfl, rfl, rfl⟩ rfl)
    | gap _ hon _ => exact absurd hoff hon
    | low _ hon _ _ => exact absurd hoff hon
    | taken _ hon _ _ => exact absurd hoff hon
  · rw [if_neg fun h => hoff h.1, List.nil_append]
    cases h with
    | refused h _ => exact absurd h hoff
    | misdirected h _ _ => exact absurd h hoff
    | admitted _ h _ _ => exact absurd h hoff
    | @gap seq hseq _ hgap =>
      rw [if_neg fun h => not_taken_of_gap hseq hgap h.2.2]
      exact sent_entered s hsame rfl
    | @low seq hseq _ hlow h0 =>
      rw [if_neg fun h => not_taken_of_low hseq hlow h0 h.2.2]
      exact sent_entered s.leaving hleave rfl
    | @taken seq _ _ hseq hon htaken hd =>
      have hin : Entered s [] { s with inSeq := seq } :=
        SameOutbound.entered ⟨rfl, rfl, rfl, rfl⟩
      by_cases ht : m.msgType = MsgType.resendRequest
      · rw [if_pos ⟨hon, ht, m.number_eq hseq ▸ htaken⟩]
        exact hin.trans (hd.resent ht)
      · rw [if_neg fun h => ht h.2.1]
        exact hin.trans (hd.entered ht)

/-- A round of the reader is accounted for. -/
theorem Turns.entered {buf : Bytes} (h : Turns s buf s' step) :
    Entered s (Turn.lines ⟨s, buf, step, s'⟩) s' := by
  rw [Turn.lines]
  rcases h with ⟨hp, herr⟩ | ⟨hp, hnone, hm⟩
  · rw [message_eq_none hp herr]
    unfold sendLogout
    rw [buildMessage_eq]
    exact sent_entered s.leaving ⟨rfl, rfl, rfl, rfl⟩ rfl
  · rw [message_eq_some hp hnone]
    have hheard : Entered s [] s.heard := SameOutbound.entered ⟨rfl, rfl, rfl, rfl⟩
    exact hheard.trans (handleMessage_receives hm).entered

theorem onBytes_entered {data : Bytes} (h : s.onBytes data = .ok (s', step)) :
    Entered s ((s.turns data).flatMap Turn.lines) s' := by
  have hround : ∀ (rs : List Turn) (s₁ : Session) (buf : Bytes) (s₂ : Session)
      (step : SessionStep), Entered s (rs.flatMap Turn.lines) s₁ → Turns s₁ buf s₂ step →
      Entered s ((rs ++ [(⟨s₁, buf, step, s₂⟩ : Turn)]).flatMap Turn.lines) s₂ := by
    intro rs s₁ buf s₂ step hj hturn
    rw [List.flatMap_append, List.flatMap_singleton]
    exact hj.trans hturn.entered
  obtain ⟨-, hcase⟩ := onBytes_inv
    (J := fun rs s₁ _ => Entered s (rs.flatMap Turn.lines) s₁)
    (K := fun rs s₁ => Entered s (rs.flatMap Turn.lines) s₁)
    (fun _ _ _ _ hj => hj.other ⟨rfl, rfl, rfl, rfl⟩)
    (fun _ _ _ hk => hk.other ⟨rfl, rfl, rfl, rfl⟩)
    (fun rs s₁ buf n s₂ step hj hn => hround rs s₁ buf s₂ step hj (turns_of_take hn))
    (fun rs s₁ buf s₂ step hj hn => hround rs s₁ buf s₂ step hj (turns_of_stop hn).1)
    (SameOutbound.entered ⟨rfl, rfl, rfl, rfl⟩) h
  exact hcase.elim And.right And.right

theorem tick_entered {now : Int} (h : s.tick now = (s', step)) :
    Entered s (step.out.map .built) s' := by
  rcases tick_cases h with _ | hon | hon | hon
  · exact SameOutbound.entered ⟨rfl, rfl, rfl, rfl⟩
  · have htest : Entered s [.built (build s.soh (s.wireBody s.testRequestBody))]
        (s.sent s.testRequestBody) := sent_entered _ ⟨rfl, rfl, rfl, rfl⟩ rfl
    exact htest.other ⟨rfl, rfl, rfl, rfl⟩
  · have hleave : Entered s
        [.built (build s.soh (s.leaving.wireBody (logoutBody (ascii "heartbeat timeout"))))]
        (s.leaving.sent (logoutBody (ascii "heartbeat timeout"))) :=
      sent_entered _ ⟨rfl, rfl, rfl, rfl⟩ rfl
    exact hleave.other ⟨rfl, rfl, rfl, rfl⟩
  · exact sent_entered s ⟨rfl, rfl, rfl, rfl⟩ rfl

/-- The calls that leave the numbering to the session. -/
def Call.Unnumbered : Call → Prop
  | .resetSeq => False
  | .sendExecutionReport body => seen body Tag.msgSeqNum = false
  | _ => True

instance : (c : Call) → Decidable c.Unnumbered
  | .resetSeq => isFalse id
  | .sendExecutionReport body => decEq (seen body Tag.msgSeqNum) false
  | .initiateLogon | .onBytes _ | .sendHeartbeat | .sendLogout _ | .tick _ => isTrue trivial

/-- **Every call is accounted for.** -/
theorem perform_entered {c : Call} {out : List SessionStep} (hc : c.Unnumbered)
    (h : s.perform c = .ok (s', out)) : Entered s (Moment.lines ⟨s, c, out, s'⟩) s' := by
  have hsame : SameOutbound s s := ⟨rfl, rfl, rfl, rfl⟩
  cases perform_cases h with
  | initiateLogon => exact sent_entered { s with state := .logonSent } ⟨rfl, rfl, rfl, rfl⟩ rfl
  | onBytes hb => exact onBytes_entered hb
  | executionReport body => exact sent_entered s hsame hc
  | heartbeat => exact sent_entered s hsame rfl
  | logout text => exact sent_entered s.leaving ⟨rfl, rfl, rfl, rfl⟩ rfl
  | resetSeq => exact hc.elim
  | @tick now _ step ht =>
    have hwires : Moment.wires ⟨s, .tick now, [step], s'⟩ = step.out := List.flatMap_singleton ..
    rw [Moment.lines, hwires]
    exact tick_entered ht

theorem wires_map (f : WireOut → Line) (hf : ∀ w, (f w).wires = [w]) (ws : List WireOut) :
    (ws.map f).flatMap Line.wires = ws := by
  rw [List.flatMap_map]
  simp only [hf]
  exact List.flatMap_singleton' ws

theorem wires_lines (r : Turn) : (Turn.lines r).flatMap Line.wires = r.out.out := by
  rw [Turn.lines]
  rcases Turn.message r with _ | m
  · exact wires_map _ (fun _ => rfl) _
  · have hresets : (if r.before.Resets m then [Line.reset] else []).flatMap Line.wires = [] := by
      split_ifs <;> rfl
    dsimp only
    rw [handledLines, List.flatMap_append, hresets, List.nil_append]
    split_ifs
    · exact wires_map _ (fun _ => rfl) _
    · exact wires_map _ (fun _ => rfl) _

/-- **The account of a call lists what it put out**, in order. -/
theorem perform_wires {c : Call} {out : List SessionStep} (h : s.perform c = .ok (s', out)) :
    (Moment.lines ⟨s, c, out, s'⟩).flatMap Line.wires = Moment.wires ⟨s, c, out, s'⟩ := by
  cases perform_cases h with
  | @onBytes data _ step hb =>
    obtain ⟨hstep, -⟩ := onBytes_inv (J := fun _ _ _ => True) (K := fun _ _ => True)
      (fun _ _ _ _ _ => trivial) (fun _ _ _ _ => trivial) (fun _ _ _ _ _ _ _ _ => trivial)
      (fun _ _ _ _ _ _ _ => trivial) trivial hb
    have hwires : Moment.wires ⟨s, .onBytes data, [step], s'⟩ = step.out :=
      List.flatMap_singleton ..
    rw [hwires, hstep, SessionStep.out_mergeAll, Moment.lines, List.flatMap_assoc, List.flatMap_map]
    exact List.flatMap_congr fun r _ => wires_lines r
  | _ => exact wires_map _ (fun _ => rfl) _

end Calls

/-! ## Runs -/

/-- Below the word size no number wraps. -/
theorem Numbered.below {msgs : List Body} {s : Session} (h : Numbered msgs s)
    (hlt : msgs.length < 2 ^ 64) :
    s.outSeq.toNat = msgs.length ∧
      (∀ i fields, msgs[i]? = some fields → numbersIn fields = [decimal (i + 1)]) ∧
      s.history = (records s.soh msgs).rtake s.cfg.outboundHistorySize := by
  have hmod : ∀ n, n < 2 ^ 64 → (UInt64.ofNat n).toNat = n := by
    intro n hn
    rw [UInt64.toNat_ofNat']
    exact Nat.mod_eq_of_lt hn
  refine ⟨by rw [h.outSeq, hmod _ hlt], fun i fields hi => ?_, ?_⟩
  · have hnum := h.numbers i fields hi
    obtain ⟨hlt', -⟩ := List.getElem?_eq_some_iff.mp hi
    rcases Nat.lt_or_ge (i + 1) (2 ^ 64) with hsmall | hbig
    · rwa [Nat.mod_eq_of_lt hsmall] at hnum
    · omega
  · rw [h.ring, List.filter_eq_self.mpr]
    intro rec hrec
    unfold records at hrec
    obtain ⟨p, hp, rfl⟩ := List.mem_map.mp hrec
    obtain ⟨-, hidx, -⟩ := List.mem_zipIdx hp
    refine decide_eq_true fun hz => ?_
    have hword : UInt64.ofNat (p.2 + 1) = 0 := hz
    have hnat := hmod (p.2 + 1) (by omega)
    rw [hword] at hnat
    cases hnat

/-- A run that leaves the numbering to the session is accounted for. -/
theorem run_entered {s₀ s : Session} {calls : List Call} {ps : List Moment}
    (hcalls : ∀ c ∈ calls, c.Unnumbered) (hrun : run (recorded perform) s₀ calls = .ok (s, ps)) :
    Entered s₀ (ps.flatMap Moment.lines) s ∧
      (ps.flatMap Moment.lines).flatMap Line.wires = ps.flatMap Moment.wires := by
  have hinit : Entered s₀ [] s₀ := SameOutbound.entered ⟨rfl, rfl, rfl, rfl⟩
  refine run_inv_returns (P := Call.Unnumbered)
    (J := fun _ ps s => Entered s₀ (ps.flatMap Moment.lines) s ∧
      (ps.flatMap Moment.lines).flatMap Line.wires = ps.flatMap Moment.wires)
    (fun _ ps s c s' out hJ hc hs => ?_) ⟨hinit, rfl⟩ hcalls hrun
  obtain ⟨hentered, hwires⟩ := hJ
  obtain ⟨out, hp, rfl⟩ := exists_of_recorded hs
  simp only [List.flatMap_append, List.flatMap_singleton]
  refine ⟨hentered.trans (perform_entered hc hp), ?_⟩
  rw [hwires, perform_wires hp]

/-- **Outbound messages are numbered without gap or repetition, and the
ring holds the last of them.** A run of calls that leave the numbering to
the session, from a new session, is accounted for: its account lists all
it put out, with a reset at each Logon that was handled in Disconnected
where the session resets on Logon, and nowhere else. The messages built
since the last reset carry the numbers from 1 on, answers to a
ResendRequest none, and the ring is made of the last messages built, byte
for byte and each with its own SendingTime. Where the session built as
many messages as there are 64-bit words, the numbers are those words and
the one with number 0 is not kept. -/
theorem run_numbered (cfg : SessionConfig) (soh : Soh) (order : FieldOrder) (now : ℕ → Bytes)
    (clock : ℕ → Int) (calls : List Call) (s : Session) (ps : List Moment)
    (hcalls : ∀ c ∈ calls, c.Unnumbered)
    (hrun : run (recorded perform) (makeSession cfg soh order now clock) calls = .ok (s, ps)) :
    (ps.flatMap Moment.lines).flatMap Line.wires = ps.flatMap Moment.wires ∧
      ∃ msgs, sinceReset (ps.flatMap Moment.lines) = msgs.map (build soh) ∧ Numbered msgs s ∧
        (msgs.length < 2 ^ 64 →
          s.outSeq.toNat = msgs.length ∧
            (∀ i fields, msgs[i]? = some fields → numbersIn fields = [decimal (i + 1)]) ∧
            s.history = (records soh msgs).rtake cfg.outboundHistorySize) := by
  obtain ⟨hentered, hwires⟩ := run_entered hcalls hrun
  obtain ⟨msgs, hbuilt, hnum⟩ := hentered.numbered [] (numbered_nil rfl rfl)
  refine ⟨hwires, msgs, hbuilt, hnum, fun hlt => ?_⟩
  have hbelow := hnum.below hlt
  rwa [hentered.size, hentered.soh] at hbelow

/-- The tests' session with a ring of two. -/
def shortRing : Session :=
  makeSession { senderCompId := ascii "OBFIX", targetCompId := ascii "CLIENT",
                outboundHistorySize := 2 } .text .stored
    (fun _ => ascii "20260513-00:00:00.000") fun _ => 0

/-- A Logon, two messages of our own and a ResendRequest for all of
them, with a ring of two. -/
theorem run_numbered_ring_of_two :
    ∃ s ps, run (recorded perform) shortRing
        [.onBytes logonBytes, .sendHeartbeat, .sendExecutionReport [(Tag.orderID, ascii "1")],
          .onBytes (build .text [(Tag.msgType, MsgType.resendRequest), (Tag.msgSeqNum, ascii "2"),
            (Tag.beginSeqNo, ascii "1"), (Tag.endSeqNo, ascii "0")])] = .ok (s, ps) ∧
      (ps.map fun p => (Moment.wires p).length) = [1, 1, 1, 3] ∧
      s.history.map OutboundRecord.seq = [2, 3] ∧
      (ps.flatMap Moment.lines).flatMap Line.wires = ps.flatMap Moment.wires ∧
      ∃ msgs, sinceReset (ps.flatMap Moment.lines) = msgs.map (build .text) ∧ Numbered msgs s ∧
        (msgs.length < 2 ^ 64 →
          s.outSeq.toNat = msgs.length ∧
            (∀ i fields, msgs[i]? = some fields → numbersIn fields = [decimal (i + 1)]) ∧
            s.history = (records .text msgs).rtake 2) := by
  obtain ⟨s, ps, hr, hp⟩ := @exists_of_run_check _ _ _ _ (recorded perform)
    (fun r : Session × List Moment =>
      decide ((r.2.map fun p => (Moment.wires p).length) = [1, 1, 1, 3] ∧
        r.1.history.map OutboundRecord.seq = [2, 3])) shortRing
    [.onBytes logonBytes, .sendHeartbeat, .sendExecutionReport [(Tag.orderID, ascii "1")],
      .onBytes (build .text [(Tag.msgType, MsgType.resendRequest), (Tag.msgSeqNum, ascii "2"),
        (Tag.beginSeqNo, ascii "1"), (Tag.endSeqNo, ascii "0")])] (by decide +kernel)
  obtain ⟨hout, hring⟩ := of_decide_eq_true hp
  exact ⟨s, ps, hr, hout, hring, run_numbered _ _ _ _ _ _ s ps (by decide) hr⟩

end Session

end Fix

end OrderbookFix
