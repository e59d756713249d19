import OrderbookFix.Fix.Farewell
import OrderbookFix.Net.Helpers.Reports
import OrderbookFix.Net.Threads
/-!
# The last message of a connection

The answers of the session to a buffer go out before any order of the
buffer is routed. A Logout among them is the last of them, but the
reports of orders read from the same buffer follow it. It is the last
message of its connection where no buffer holds both.
-/

namespace OrderbookFix

namespace Net

open OrderbookFix.Core OrderbookFix.Fix

/-- **The law**: a Logout is the last message written. -/
def Link.Final (l : Link) : Prop := ∀ w ∈ l.written.dropLast, ¬ IsLogout .wire w

instance (l : Link) : Decidable l.Final := inferInstanceAs (Decidable (∀ _ ∈ _, _))

/-- A buffer read has no order before what ends the session. -/
def TcpServer.KeepsApart (t : TcpServer) : Act → Prop
  | .recv c data _ _ => ∀ l ∈ t.links c, l.Ready → Session.OrdersApart (l.session.turns data)
  | _ => True

instance (t : TcpServer) : (a : Act) → Decidable (t.KeepsApart a)
  | .recv c _ _ _ => inferInstanceAs (Decidable (∀ l ∈ t.links c, l.Ready → _))
  | .accept _ _ _ _ | .idle _ _ _ | .serve _ _ | .leave _ => isTrue trivial

/-! ## Writing -/

section Writing

variable {room : Option ℕ}

theorem writeOut_initial (out : List WireOut) : (writeOut room out).1 <+: out := by
  induction out generalizing room with
  | nil => exact List.prefix_refl _
  | cons w out ih =>
    rw [writeOut]
    split_ifs
    · exact List.nil_prefix
    · exact List.cons_prefix_cons.mpr ⟨rfl, ih⟩

/-- Messages written before a Logout, and then some of a list where it
can only be last. -/
theorem final_append {soh : Soh} {written out ws : List WireOut}
    (hwritten : ∀ w ∈ written, ¬ IsLogout soh w) (hout : ∀ w ∈ out.dropLast, ¬ IsLogout soh w)
    (hpre : ws <+: out) : ∀ w ∈ (written ++ ws).dropLast, ¬ IsLogout soh w := by
  intro w hw
  by_cases hws : ws = []
  · rw [hws, List.append_nil] at hw
    exact hwritten w ((List.dropLast_prefix _).subset hw)
  · rw [List.dropLast_append_of_ne_nil hws] at hw
    rcases List.mem_append.mp hw with hw | hw
    · exact hwritten w hw
    obtain ⟨rest, rfl⟩ := hpre
    by_cases hrest : rest = []
    · rw [hrest, List.append_nil] at hout
      exact hout w hw
    · rw [List.dropLast_append_of_ne_nil hrest] at hout
      exact hout w (List.mem_append_left _ ((List.dropLast_prefix _).subset hw))

/-- Reports are no Logouts. -/
theorem sendReports_unparted {s : Session} (hs : s.Unparted) {bodies : List Body}
    (hb : ∀ b ∈ bodies, PlainTags (b.map Prod.fst)) :
    (sendReports room s bodies).1.soh = s.soh ∧ (sendReports room s bodies).1.Unparted ∧
      ∀ w ∈ (sendReports room s bodies).2.1, ¬ IsLogout s.soh w := by
  induction bodies generalizing room s with
  | nil => exact ⟨rfl, hs, fun _ hw => (by cases hw)⟩
  | cons b bodies ih =>
    obtain ⟨htags, hb⟩ := List.forall_mem_cons.mp hb
    have hord : Session.Ordinary ((Tag.msgType, MsgType.executionReport) :: b) :=
      ⟨_, by decide, b, rfl, htags⟩
    have hsent : (s.sendExecutionReport b).1.Unparted := by
      rw [Session.sendExecutionReport, Session.buildMessage_eq]
      exact hs.sent hord
    have hsoh : (s.sendExecutionReport b).1.soh = s.soh := by
      rw [Session.sendExecutionReport, Session.buildMessage_eq]
      rfl
    have hw : ¬ IsLogout s.soh (s.sendExecutionReport b).2 := by
      rw [Session.sendExecutionReport, Session.buildMessage_eq]
      exact hord.mild.not_isLogout
    rw [sendReports]
    dsimp only
    split_ifs
    · exact ⟨hsoh, hsent, fun _ hw => (by cases hw)⟩
    · obtain ⟨hsoh', hun, hout⟩ := @ih (room.map Nat.pred) _ hsent hb
      refine ⟨hsoh'.trans hsoh, hun, List.forall_mem_cons.mpr ⟨hw, ?_⟩⟩
      rw [hsoh] at hout
      exact hout

end Writing

namespace Link

/-! ## The stages of a link -/

/-- **How far a link is from its end**: it has written no Logout; or the
loop is about to end, with nothing left that is reported on; or it has
ended. -/
inductive Stage (l : Link) : Prop
  | going (hopen : l.closed = false) (hsoh : l.session.soh = .wire)
      (hun : l.session.Unparted) (hout : ∀ w ∈ l.written, ¬ IsLogout .wire w)
  | leaving (hopen : l.closed = false) (hdisc : l.disconnect = true) (hne : l.pending ≠ [])
      (hpending : ∀ m ∈ l.pending, m.msgType = MsgType.orderCancelReplace) (hfinal : l.Final)
  | closed (hclosed : l.closed = true) (hpending : l.pending = []) (hfinal : l.Final)

variable {l : Link}

theorem Stage.final (h : l.Stage) : l.Final := by
  cases h with
  | going hopen hsoh hun hout => exact fun w hw => hout w ((List.dropLast_prefix _).subset hw)
  | leaving hopen hdisc hne hpending hfinal => exact hfinal
  | closed hclosed hpending hfinal => exact hfinal

/-- A link at the head of its loop has written no Logout. -/
theorem Stage.ready (h : l.Stage) (hready : l.Ready) :
    l.session.soh = .wire ∧ l.session.Unparted ∧ ∀ w ∈ l.written, ¬ IsLogout .wire w := by
  cases h with
  | going hopen hsoh hun hout => exact ⟨hsoh, hun, hout⟩
  | leaving hopen hdisc hne hpending hfinal => exact absurd hready.2 hne
  | closed hclosed hpending hfinal =>
    rw [hready.1] at hclosed
    cases hclosed

theorem settle_going (hopen : l.closed = false) (hsoh : l.session.soh = .wire)
    (hun : l.session.Unparted) (hout : ∀ w ∈ l.written, ¬ IsLogout .wire w) : l.settle.Stage := by
  have hstage : l.Stage := .going hopen hsoh hun hout
  rw [settle]
  split_ifs with hend
  · exact .closed rfl hend.1 hstage.final
  · exact hstage

theorem settle_leaving (hopen : l.closed = false) (hdisc : l.disconnect = true)
    (hpending : ∀ m ∈ l.pending, m.msgType = MsgType.orderCancelReplace) (hfinal : l.Final) :
    l.settle.Stage := by
  rw [settle]
  split_ifs with hend
  · exact .closed rfl hend.1 hfinal
  · exact .leaving hopen hdisc (fun hnil => hend ⟨hnil, hdisc⟩) hpending hfinal

/-! ## The loop -/

theorem Stage.idle (h : l.Stage) (hready : l.Ready) (now : Int) (room : Option ℕ) :
    (l.idle now room).Stage := by
  obtain ⟨hsoh, hun, hout⟩ := h.ready hready
  rcases ht : l.session.tick now with ⟨s, tstep⟩
  obtain ⟨hsoh', -, hcase⟩ := Session.tick_parts hun ht
  have hpre := @writeOut_initial room tstep.out
  unfold Link.idle
  rw [ht]
  dsimp only
  rcases hcase with ⟨hd, hun', htout⟩ | ⟨hd, -, hlen⟩
  · refine settle_going hready.1 (hsoh'.trans hsoh) hun' fun w hw => ?_
    rcases List.mem_append.mp hw with hw | hw
    · exact hout w hw
    · rw [← hsoh]
      exact htout w (hpre.subset hw)
  · refine settle_leaving hready.1 (by dsimp only; rw [hd]; rfl) ?_ (final_append hout ?_ hpre)
    · intro m hm
      rw [show l.pending = [] from hready.2] at hm
      cases hm
    · exact fun w hw => absurd (@mem_of_mem_dropLast_append _ [] _ hlen w hw) List.not_mem_nil

theorem Stage.recv {l' : Link} {data : Bytes} {now : Int} {room : Option ℕ} (h : l.Stage)
    (hready : l.Ready) (hapart : Session.OrdersApart (l.session.turns data))
    (hrecv : l.recv data now room = .ok l') : l'.Stage := by
  obtain ⟨hsoh, hun, hout⟩ := h.ready hready
  rw [Link.recv] at hrecv
  rcases hb : l.session.onBytes data with e | ⟨s₁, step⟩
  · rw [hb] at hrecv
    cases hrecv
  rw [hb] at hrecv
  dsimp only at hrecv
  rcases ht : s₁.tick now with ⟨s₂, tstep⟩
  rw [ht] at hrecv
  dsimp only at hrecv
  obtain rfl := Except.ok.inj hrecv
  have hpre := @writeOut_initial room (step.out ++ tstep.out)
  obtain ⟨hsoh₁, hcase⟩ := Session.onBytes_parts hun hb
  rw [hsoh] at hcase hsoh₁
  rcases hcase with ⟨hd, hun₁, hbout, htimer⟩ | ⟨hd, hstate, hbout, happ⟩
  · obtain ⟨hsoh₂, -, htick⟩ := Session.tick_parts hun₁ ht
    rw [hsoh₁] at hsoh₂ htick
    rcases htick with ⟨htd, hun₂, htout⟩ | ⟨htd, houtstanding, hlen⟩
    · refine settle_going hready.1 hsoh₂ hun₂ fun w hw => ?_
      rcases List.mem_append.mp hw with hw | hw
      · exact hout w hw
      rcases List.mem_append.mp (hpre.subset hw) with hw | hw
      · exact hbout w hw
      · exact htout w hw
    · -- the timer ran out, so no message came in, and the Logout is the last
      have happ : step.app = [] := by
        by_contra hne
        rw [htimer hne] at houtstanding
        cases houtstanding
      refine settle_leaving hready.1 (by dsimp only; rw [htd, Bool.or_true]; rfl) ?_
        (final_append hout ?_ hpre)
      · rw [happ]
        exact fun _ hm => (by cases hm)
      · exact fun w hw => hbout w (mem_of_mem_dropLast_append hlen hw)
  · -- the session ended in this buffer: its timer is silent
    rw [Session.tick_of_off hstate] at ht
    obtain ⟨rfl, rfl⟩ := Prod.mk.inj ht
    have hlast : ∀ w ∈ (step.out ++ []).dropLast, ¬ IsLogout .wire w := by
      rw [List.append_nil]
      exact hbout
    exact settle_leaving hready.1 (by dsimp only; rw [hd]; rfl) (happ hapart)
      (final_append hout hlast hpre)

theorem Stage.serve {l' : Link} {srv srv' : Server} {m : AppMessage} {rest : List AppMessage}
    {room : Option ℕ} (h : l.Stage) (hpending : l.pending = m :: rest)
    (hserve : l.serve srv m rest room = .ok (srv', l')) : l'.Stage := by
  obtain ⟨evs, hroute, rfl⟩ := serve_route hserve
  cases h with
  | going hopen hsoh hun hout =>
    have htags : ∀ b ∈ evs.filterMap report, PlainTags (b.map Prod.fst) := by
      intro b hb
      obtain ⟨ev, -, hev⟩ := List.mem_filterMap.mp hb
      exact report_tags hev
    obtain ⟨hsoh', hun', hrout⟩ := @sendReports_unparted room _ hun _ htags
    refine settle_going hopen (hsoh'.trans hsoh) hun' fun w hw => ?_
    rcases List.mem_append.mp hw with hw | hw
    · exact hout w hw
    · rw [← hsoh]
      exact hrout w hw
  | leaving hopen hdisc hne hall hfinal =>
    -- only replaces are left, and those are dropped
    rw [hpending] at hall
    obtain ⟨hm, hrest⟩ := List.forall_mem_cons.mp hall
    have hnil : evs = [] := by
      rw [Server.route, if_neg (by rw [hm]; decide), if_neg (by rw [hm]; decide)] at hroute
      exact (Prod.mk.inj (Except.ok.inj hroute)).2.symm
    subst hnil
    refine settle_leaving hopen (by dsimp only; rw [hdisc]; rfl) hrest ?_
    change ∀ w ∈ (l.written ++ []).dropLast, _
    rw [List.append_nil]
    exact hfinal
  | closed hclosed hnil hfinal =>
    rw [hnil] at hpending
    cases hpending

end Link

/-! ## All connections -/

/-- Every link is at some stage. -/
def TcpServer.Staged (t : TcpServer) : Prop := ∀ c l, t.links c = some l → l.Stage

theorem TcpServer.Staged.act {t t' : TcpServer} {a : Act} {routed : List (Conn × Message)}
    (h : t.Staged) (hapart : t.KeepsApart a) (hact : t.act a = .ok (t', routed)) : t'.Staged := by
  cases TcpServer.act_acts hact with
  | stay => exact h
  | accept hlink =>
    exact links_set h (.going rfl rfl (fun _ hr => (by cases hr)) fun _ hw => (by cases hw))
  | idle hlink hready => exact links_set h ((h _ _ hlink).idle hready _ _)
  | recv hlink hready hrecv =>
    exact links_set h ((h _ _ hlink).recv hready.1 (hapart _ hlink hready.1) hrecv)
  | serve hlink hpending hserve =>
    exact links_set (t := { t with server := _ }) h ((h _ _ hlink).serve hpending hserve)
  | leave hlink hready => exact links_set h (.closed rfl hready.2 (h _ _ hlink).final)

/-- **A Logout is final where no buffer has an order before the end of its
session.** In every run of the threads, with any interleaving, any
buffers and any failing writes. -/
theorem run_logout_final (cfg : ServerConfig) (acts : List Act) (t : TcpServer)
    (routed : List (Conn × Message))
    (hapart : Guarded TcpServer.act TcpServer.KeepsApart (TcpServer.new cfg) acts)
    (hrun : run TcpServer.act (TcpServer.new cfg) acts = .ok (t, routed)) :
    ∀ c l, t.links c = some l → l.Final := by
  have hstaged : t.Staged :=
    Guarded.preserves (J := TcpServer.Staged) (fun _ _ _ _ h hok hact => h.act hok hact)
      (fun _ _ hlink => (by cases hlink)) hapart hrun
  exact fun c l hlink => (hstaged c l hlink).final

/-- The bytes of a message of a client. -/
def clientBytes (mt : Bytes) (seq : String) (rest : Body) : Bytes :=
  build .wire ((Tag.msgType, mt) :: (Tag.msgSeqNum, ascii seq) :: rest)

/-- A Logon, an order and a Logout. -/
def visit : List Bytes :=
  [clientBytes MsgType.logon "1" [(Tag.senderCompID, ascii "C"), (Tag.targetCompID, ascii "OBFIX")],
    clientBytes MsgType.newOrderSingle "2" [(Tag.clOrdID, ascii "A"), (Tag.side, ascii "1"),
      (Tag.price, ascii "100"), (Tag.orderQty, ascii "5")],
    clientBytes MsgType.logout "3" []]

/-- A client that connects. -/
def arrival : Act := .accept 1 .stored (fun _ => ascii "20260513-00:00:00.000") fun _ => 0

/-- The messages of a visit in buffers of their own: the acknowledgement
goes out before the Logout. -/
theorem run_logout_final_three_buffers :
    ∃ t routed, run TcpServer.act (TcpServer.new {})
        [arrival, .recv 1 visit[0] 0 none, .recv 1 visit[1] 0 none, .serve 1 none,
          .recv 1 visit[2] 0 none] = .ok (t, routed) ∧
      ((t.links 1).map fun l => l.written.map fun w => thirdField 0x01 w) =
        some [ascii "35=A", ascii "35=8", ascii "35=5"] ∧
      ∀ c l, t.links c = some l → l.Final := by
  have hcheck : passes (fun r => decide (((r.1.links 1).map fun l =>
      l.written.map fun w => thirdField 0x01 w) =
        some [ascii "35=A", ascii "35=8", ascii "35=5"]))
      (run TcpServer.act (TcpServer.new {})
        [arrival, .recv 1 visit[0] 0 none, .recv 1 visit[1] 0 none, .serve 1 none,
          .recv 1 visit[2] 0 none]) = true := by
    decide +kernel
  obtain ⟨t, routed, hrun, hp⟩ := exists_of_run_check hcheck
  exact ⟨t, routed, hrun, of_decide_eq_true hp,
    run_logout_final {} _ t routed (by decide +kernel) hrun⟩

/-- **A report after the Logout.** The same messages in one buffer: the
Logout is acknowledged before the order is routed. -/
theorem report_after_logout :
    ∃ t routed l, run TcpServer.act (TcpServer.new {})
        [arrival, .recv 1 visit.flatten 0 none, .serve 1 none] = .ok (t, routed) ∧
      t.links 1 = some l ∧
      (l.written.map fun w => thirdField 0x01 w) =
        [ascii "35=A", ascii "35=5", ascii "35=8"] ∧ ¬ l.Final := by
  have hcheck : passes (fun r => (r.1.links 1).any fun l =>
      decide ((l.written.map fun w => thirdField 0x01 w) =
        [ascii "35=A", ascii "35=5", ascii "35=8"] ∧ ¬ l.Final))
      (run TcpServer.act (TcpServer.new {})
        [arrival, .recv 1 visit.flatten 0 none, .serve 1 none]) = true := by
    decide +kernel
  obtain ⟨t, routed, hrun, hp⟩ := exists_of_run_check hcheck
  dsimp only at hp
  rcases hlink : t.links 1 with _ | l
  · rw [hlink] at hp
    cases hp
  · rw [hlink] at hp
    exact ⟨t, routed, l, hrun, hlink, of_decide_eq_true hp⟩

end Net

end OrderbookFix
