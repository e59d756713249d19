import OrderbookFix.Common.Run
import OrderbookFix.Net.Model.Loop
/-!
# Threads over one book

One act of one thread: it replaces the link of its connection or does
nothing at all, and it asks nothing of the session of another connection.
-/

namespace OrderbookFix

namespace Net

open OrderbookFix.Core OrderbookFix.Fix

/-! ## What is asked of a session -/

/-- The connection of an act. -/
def Act.conn : Act → Conn
  | .accept c _ _ _ | .idle c _ _ | .recv c _ _ _ | .serve c _ | .leave c => c

/-- The reports that are built: all, or up to the first that is not
written. -/
def attempted : Option ℕ → List Body → List Body
  | none, bodies => bodies
  | some k, bodies => bodies.take (k + 1)

/-- **What an act on its connection asks of a thread's session.** A round
without a buffer lets its timers run, a round with one gives it the buffer
first, and a message routed has its events reported. Where the act is not
possible nothing is asked. -/
def Link.asks (srv : Server) (l : Link) : Act → List Session.Call
  | .accept _ _ _ _ | .leave _ => []
  | .idle _ now _ => if l.Ready then [.tick now] else []
  | .recv _ data now _ =>
    if l.Ready ∧ 0 < data.length ∧ data.length ≤ bufSize then [.onBytes data, .tick now] else []
  | .serve _ room =>
    match l.pending with
    | [] => []
    | m :: _ =>
      match srv.route m with
      | .error _ => []
      | .ok (_, evs) => (attempted room (evs.filterMap report)).map .sendExecutionReport

namespace TcpServer

/-- **What an act asks of the session of a connection.** -/
def asks (c : Conn) (t : TcpServer) (a : Act) : List Session.Call :=
  match t.links c with
  | none => []
  | some l => if a.conn = c then l.asks t.server a else []

section Asks

variable {t : TcpServer} {c : Conn} {l : Link} {a : Act}

theorem asks_of_none (h : t.links c = none) : t.asks c a = [] := by rw [asks, h]

theorem asks_of_ne (h : a.conn ≠ c) : t.asks c a = [] := by
  rw [asks]
  cases t.links c with
  | none => rfl
  | some l => exact if_neg h

theorem asks_of_link (h : t.links c = some l) (hc : a.conn = c) :
    t.asks c a = l.asks t.server a := by
  rw [asks, h]
  exact if_pos hc

/-- An act that asks nothing on its own connection asks nothing. -/
theorem asks_of_stay (h : ∀ l, t.links a.conn = some l → l.asks t.server a = []) :
    t.asks c a = [] := by
  by_cases hc : a.conn = c
  · subst hc
    cases hlink : t.links a.conn with
    | none => exact asks_of_none hlink
    | some l => exact (asks_of_link hlink rfl).trans (h l hlink)
  · exact asks_of_ne hc

end Asks

/-- **What an act can do**: nothing, or it replaces one link. -/
inductive Acts (t : TcpServer) : Act → TcpServer → List (Conn × Message) → Prop
  | stay (a : Act) (hlink : ∀ l, t.links a.conn = some l → l.asks t.server a = []) :
      Acts t a t []
  | accept {c : Conn} {order : FieldOrder} {now : ℕ → Bytes} {clock : ℕ → Int}
      (hlink : t.links c = none) :
      Acts t (.accept c order now clock) (t.set c { session := t.session order now clock }) []
  | idle {c : Conn} {now : Int} {room : Option ℕ} {l : Link} (hlink : t.links c = some l)
      (hready : l.Ready) : Acts t (.idle c now room) (t.set c (l.idle now room)) []
  | recv {c : Conn} {data : Bytes} {now : Int} {room : Option ℕ} {l l' : Link}
      (hlink : t.links c = some l)
      (hready : l.Ready ∧ 0 < data.length ∧ data.length ≤ bufSize)
      (hrecv : l.recv data now room = .ok l') :
      Acts t (.recv c data now room) (t.set c l') []
  | serve {c : Conn} {room : Option ℕ} {l l' : Link} {m : AppMessage} {rest : List AppMessage}
      {srv : Server} (hlink : t.links c = some l) (hpending : l.pending = m :: rest)
      (hserve : l.serve t.server m rest room = .ok (srv, l')) :
      Acts t (.serve c room) ({ t with server := srv }.set c l') [(c, m)]
  | leave {c : Conn} {l : Link} (hlink : t.links c = some l) (hready : l.Ready) :
      Acts t (.leave c) (t.set c { l with closed := true }) []

section Act

variable {t t' : TcpServer} {a : Act} {routed : List (Conn × Message)}

theorem acts_of_stay (h : (.ok (t, []) : Except Fault (TcpServer × List (Conn × Message))) =
    .ok (t', routed)) (hlink : ∀ l, t.links a.conn = some l → l.asks t.server a = []) :
    Acts t a t' routed := by
  obtain ⟨rfl, rfl⟩ := Prod.mk.inj (Except.ok.inj h)
  exact .stay a hlink

/-- An act on a connection that has no thread. -/
theorem acts_of_none (h : (.ok (t, []) : Except Fault (TcpServer × List (Conn × Message))) =
    .ok (t', routed)) (hnone : t.links a.conn = none) : Acts t a t' routed := by
  refine acts_of_stay h fun l hl => ?_
  rw [hnone] at hl
  cases hl

/-- An act that asks nothing of the thread its connection has. -/
theorem acts_of_link {l : Link} (h : (.ok (t, []) :
    Except Fault (TcpServer × List (Conn × Message))) = .ok (t', routed))
    (hlink : t.links a.conn = some l) (hasks : l.asks t.server a = []) : Acts t a t' routed := by
  refine acts_of_stay h fun l' hl => ?_
  rw [← Option.some.inj (hlink.symm.trans hl)]
  exact hasks

theorem act_acts (h : t.act a = .ok (t', routed)) : Acts t a t' routed := by
  cases a with
  | accept c order now clock =>
    rcases hlink : t.links c with _ | l
    · rw [act, hlink] at h
      obtain ⟨rfl, rfl⟩ := Prod.mk.inj (Except.ok.inj h)
      exact .accept hlink
    · rw [act, hlink] at h
      exact acts_of_link h hlink rfl
  | idle c now room =>
    rcases hlink : t.links c with _ | l
    · rw [act, hlink] at h
      exact acts_of_none h hlink
    rw [act, hlink] at h
    dsimp only at h
    split_ifs at h with hready
    · obtain ⟨rfl, rfl⟩ := Prod.mk.inj (Except.ok.inj h)
      exact .idle hlink hready
    · exact acts_of_link h hlink (if_neg hready)
  | recv c data now room =>
    rcases hlink : t.links c with _ | l
    · rw [act, hlink] at h
      exact acts_of_none h hlink
    rw [act, hlink] at h
    dsimp only at h
    split_ifs at h with hready
    · rcases hrecv : l.recv data now room with e | l'
      · rw [hrecv] at h
        cases h
      · rw [hrecv] at h
        obtain ⟨rfl, rfl⟩ := Prod.mk.inj (Except.ok.inj h)
        exact .recv hlink hready hrecv
    · exact acts_of_link h hlink (if_neg hready)
  | serve c room =>
    rcases hlink : t.links c with _ | l
    · rw [act, hlink] at h
      exact acts_of_none h hlink
    rw [act, hlink] at h
    dsimp only at h
    rcases hpending : l.pending with _ | ⟨m, rest⟩
    · rw [hpending] at h
      exact acts_of_link h hlink (by rw [Link.asks, hpending])
    rw [hpending] at h
    dsimp only at h
    rcases hserve : l.serve t.server m rest room with e | ⟨srv, l'⟩
    · rw [hserve] at h
      cases h
    · rw [hserve] at h
      obtain ⟨rfl, rfl⟩ := Prod.mk.inj (Except.ok.inj h)
      exact .serve hlink hpending hserve
  | leave c =>
    rcases hlink : t.links c with _ | l
    · rw [act, hlink] at h
      exact acts_of_none h hlink
    rw [act, hlink] at h
    dsimp only at h
    split_ifs at h with hready
    · obtain ⟨rfl, rfl⟩ := Prod.mk.inj (Except.ok.inj h)
      exact .leave hlink hready
    · exact acts_of_link h hlink rfl

/-- An invariant of links is kept where the link an act replaces keeps
it. -/
theorem links_set {P : Link → Prop} {c : Conn} {l : Link}
    (h : ∀ c l, t.links c = some l → P l) (hl : P l) :
    ∀ c' l', (t.set c l).links c' = some l' → P l' := by
  intro c' l' hlink
  change Function.update t.links c (some l) c' = some l' at hlink
  by_cases hc : c' = c
  · rw [hc, Function.update_self] at hlink
    exact Option.some.inj hlink ▸ hl
  · rw [Function.update_of_ne hc] at hlink
    exact h c' l' hlink

end Act

end TcpServer

/-- The routing behind a message served. -/
theorem Link.serve_route {l l' : Link} {srv srv' : Server} {m : AppMessage}
    {rest : List AppMessage} {room : Option ℕ} (h : l.serve srv m rest room = .ok (srv', l')) :
    ∃ evs, srv.route m = .ok (srv', evs) ∧
      l' = { l with
        session := (sendReports room l.session (evs.filterMap report)).1
        pending := rest
        disconnect := l.disconnect ||
          (sendReports room l.session (evs.filterMap report)).2.2
        written := l.written ++
          (sendReports room l.session (evs.filterMap report)).2.1 }.settle := by
  rw [serve, respond] at h
  rcases hroute : srv.route m with e | ⟨srv₁, evs⟩
  · rw [hroute] at h
    cases h
  · rw [hroute] at h
    obtain ⟨rfl, rfl⟩ := Prod.mk.inj (Except.ok.inj h)
    exact ⟨evs, rfl, rfl⟩

end Net

end OrderbookFix
