import CapyJs.Server.Safety

/-!
# The steps of the server as one connection sees them

A label causes at most two events on one connection, one after the other. `LocalRun`
follows a connection through them, together with the rights to answer that are held
outside of it by live responses and by the WebSocket being set up. What the events on
one connection keep is then kept by every step of the server.
-/
namespace CapyJs.Server

open CapyJs.Http CapyJs.Pool CapyJs.Transition ClientState

/-- The events that a label causes in a state, with the slot of the connection and the
connection as the event finds it. -/
inductive State.Causes (s : State) : Label → ℕ → ClientState → Event → Prop
  | data {h : Handed} {b : ℕ} {bytes : Text} {handler ok : Bool} {c : ClientState}
      (hh : s.handed = some h) (hlive : s.clients.live h.client = some c) :
      Causes s (.read (.data bytes) handler ok) h.client c (.data ⟨b, bytes⟩ handler)
  | notFound {h : Handed} {bytes : Text} {handler ok : Bool} {c : ClientState}
      (hh : s.handed = some h) :
      Causes s (.read (.data bytes) handler ok) h.client c (.notFound ok)
  | readFailed {h : Handed} {nread : ReadResult} {handler ok : Bool} {c : ClientState}
      (hh : s.handed = some h) (hlive : s.clients.live h.client = some c)
      (hnone : ∀ bytes, nread ≠ .data bytes) :
      Causes s (.read nread handler ok) h.client c .readFailed
  | writeDone {i : ℕ} {ok : Bool} {c : ClientState} (hidle : s.Idle)
      (hlive : s.clients.live i = some c) (hphase : c.socket.phase ≠ .closed) :
      Causes s (.writeDone i ok) i c (.writeDone ok)
  | shutdownDone {i : ℕ} {c : ClientState} (hidle : s.Idle) (hlive : s.clients.live i = some c)
      (hphase : c.socket.phase ≠ .closed) : Causes s (.shutdownDone i) i c .shutdownDone
  | idleTimeout {i : ℕ} {c : ClientState} (hidle : s.Idle) (hlive : s.clients.live i = some c)
      (htimer : c.idleTimer = .active) : Causes s (.idleTimeout i) i c .idleTimeout
  | closeStarted {i : ℕ} {c : ClientState} (hidle : s.Idle) (hlive : s.clients.live i = some c)
      (hphase : c.socket.phase = .closing) (hwrites : c.socket.writes = [])
      (hshutdown : c.socket.shutdown = false) : Causes s (.clientClosed i) i c .closeStarted
  | closeFinished {i : ℕ} {c : ClientState} (hidle : s.Idle) (hclosing : c.closing = true) :
      Causes s (.clientClosed i) i c .closeFinished
  | send {k : ℕ} {isStatic : Bool} {body : Text} {ok : Bool} {r : ResponseObject}
      {gd : ConnGuard} {c : ClientState} (hr : s.responses[k]? = some r)
      (hgd : s.guards.live r.guard = some gd) (halive : gd.alive = true)
      (hlive : s.clients.live r.cli = some c) (hopen : c.closing = false) :
      Causes s (.send k isStatic body ok) r.cli c (.send isStatic body ok)
  | abort {k : ℕ} {ok : Bool} {r : ResponseObject} {gd : ConnGuard} {c : ClientState}
      (hr : s.responses[k]? = some r) (hgd : s.guards.live r.guard = some gd)
      (halive : gd.alive = true) (hlive : s.clients.live r.cli = some c)
      (hopen : c.closing = false) : Causes s (.abort k ok) r.cli c (.abort ok)
  | sendFrame {i : ℕ} {ok : Bool} {c : ClientState} (hlive : s.clients.live i = some c)
      (hws : (c.activeWs.isSome || s.inSetup i) = true) :
      Causes s (.wsSend i ok) i c (.sendFrame ok)
  | handshake {i : ℕ} {ws : WebSocket} {ok : Bool} {c : ClientState}
      (hf : s.frame = some (.setup i ws)) (hlive : s.clients.live i = some c) :
      Causes s (.jsReturn ok) i c (.handshake ws ok)
  | messageDone {i rc : ℕ} {ok : Bool} {c : ClientState} (hf : s.frame = some (.message i rc))
      (hlive : s.clients.live i = some c) : Causes s (.jsReturn ok) i c (.messageDone rc)
  | closeReturned {i : ℕ} {ok : Bool} {c : ClientState} (hf : s.frame = some (.onClose i))
      (hclosing : c.closing = true) : Causes s (.jsReturn ok) i c .closeFinished

/-- Data come in only while the socket is being read. -/
structure ClientState.Event.Ready (c : ClientState) (e : Event) : Prop where
  enabled : e.Enabled c
  reading : ∀ rb handler, e = .data rb handler → c.socket.reading = true

/-- Events on a connection for which `u` rights are out. A right that is given up without
an event is that of a closed connection. -/
inductive LocalRun (parse : Text → PhrResult) (cause : ClientState → Event → Prop) :
    ClientState → ℕ → ClientState → ℕ → Prop
  | refl (c : ClientState) (u : ℕ) : LocalRun parse cause c u c u
  | event {c c' : ClientState} {e : Event} {eff : Effect} {u v u' : ℕ} (hcause : cause c e)
      (hready : e.Ready c) (hstep : c.step parse e = some eff) (hv : v = u + e.cost)
      (rest : LocalRun parse cause eff.client (u + eff.next.gain) c' u') :
      LocalRun parse cause c v c' u'
  | forget {c c' : ClientState} {u v u' : ℕ} (hclosed : c.socket.phase ≠ .active) (hv : v = u + 1)
      (rest : LocalRun parse cause c u c' u') : LocalRun parse cause c v c' u'

namespace LocalRun
variable {parse : Text → PhrResult} {cause : ClientState → Event → Prop}
  {c₁ c₂ c₃ : ClientState} {u₁ u₂ u₃ : ℕ}

theorem trans (h : LocalRun parse cause c₁ u₁ c₂ u₂) (h' : LocalRun parse cause c₂ u₂ c₃ u₃) :
    LocalRun parse cause c₁ u₁ c₃ u₃ := by
  induction h with
  | refl => exact h'
  | event hcause hready hstep hv _ ih => exact .event hcause hready hstep hv (ih h')
  | forget hclosed hv _ ih => exact .forget hclosed hv (ih h')

/-- What each event keeps is kept by all of them. -/
theorem invariant {K : ClientState → ℕ → Prop} (h : LocalRun parse cause c₁ u₁ c₂ u₂)
    (event : ∀ c e eff u, cause c e → e.Ready c → c.Ok → c.step parse e = some eff →
      K c (u + e.cost) → K eff.client (u + eff.next.gain))
    (forget : ∀ c u, c.socket.phase ≠ .active → K c (u + 1) → K c u) (hok : c₁.Ok)
    (hK : K c₁ u₁) : K c₂ u₂ := by
  induction h with
  | refl => exact hK
  | event hcause hready hstep hv _ ih =>
    rw [hv] at hK
    exact ih (hok.step hready.enabled hstep) (event _ _ _ _ hcause hready hok hstep hK)
  | forget hclosed hv _ ih =>
    rw [hv] at hK
    exact ih hok (forget _ _ hclosed hK)

end LocalRun

/-- Every connection after a change was there before, and local events led from one to
the other. `R` and `R'` are the rights in hand. -/
def Locally (parse : Text → PhrResult) (cause : ℕ → ClientState → Event → Prop) (s : State)
    (R : List ℕ) (s' : State) (R' : List ℕ) : Prop :=
  ∀ i c', s'.clients.live i = some c' → ∃ c, s.clients.live i = some c ∧ c'.conn = c.conn ∧
    LocalRun parse (cause i) c (answers s.responses c.conn + R.count c.conn) c'
      (answers s'.responses c.conn + R'.count c.conn)

theorem ClientState.step_gain {parse : Text → PhrResult} {c : ClientState} {e : Event}
    {eff : Effect} (hs : c.step parse e = some eff) (he : ∀ rb handler, e ≠ .data rb handler) :
    eff.next.gain = 0 := by
  cases e with
  | data rb handler => exact absurd rfl (he rb handler)
  | abort ok | writeDone ok =>
    obtain ⟨c', -, rfl⟩ := Option.map_eq_some_iff.mp hs
    rfl
  | shutdownDone =>
    obtain ⟨-, s, -, rfl⟩ := shutdownDone_spec hs
    rfl
  | readFailed | messageDone | handshake | send | notFound | sendFrame | idleTimeout
  | closeStarted | closeFinished =>
    cases hs
    rfl

namespace Locally
variable {parse : Text → PhrResult} {cause : ℕ → ClientState → Event → Prop} {s s' s'' : State}
  {R R' R'' : List ℕ} {i : ℕ} {c : ClientState} {e : Event} {next : Next} {closer : Option ℕ}

theorem trans (h : Locally parse cause s R s' R') (h' : Locally parse cause s' R' s'' R'') :
    Locally parse cause s R s'' R'' := by
  intro i c'' hlive''
  obtain ⟨c', hlive', hconn', hrun'⟩ := h' i c'' hlive''
  obtain ⟨c, hlive, hconn, hrun⟩ := h i c' hlive'
  rw [hconn] at hrun'
  exact ⟨c, hlive, hconn'.trans hconn, hrun.trans hrun'⟩

/-- Some connections are gone, or rights change hands. -/
theorem of_live (hclients : ∀ j d, s'.clients.live j = some d → s.clients.live j = some d)
    (hrights : ∀ n, answers s'.responses n + R'.count n = answers s.responses n + R.count n) :
    Locally parse cause s R s' R' := by
  intro i c hlive
  refine ⟨c, hclients i c hlive, rfl, ?_⟩
  rw [hrights]
  exact .refl _ _

theorem onClient (hi : ClientsInv s.clients s.responses s.nextConn R' closer)
    (hlive : s.clients.live i = some c) (hcause : cause i c e) (hready : e.Ready c)
    (hs : s.onClient parse i c e = some (s', next)) :
    Locally parse cause s (List.replicate e.cost c.conn ++ R) s'
      (List.replicate next.gain c.conn ++ R) := by
  obtain ⟨eff, p, heff, rfl, -, rfl⟩ := State.onClient_spec hs
  obtain ⟨hr, -⟩ := MemPool.modify_spec hi.wf hlive fun _ => eff.client
  intro j c' hlive'
  have hlive'' : (s.clients.modify i fun _ => eff.client).live j = some c' := hlive'
  rw [hr.live_eq] at hlive''
  split_ifs at hlive'' with hj
  · cases hlive''
    rw [hj]
    refine ⟨c, hlive, (step_keeps heff).conn, ?_⟩
    simp only [List.count_append, List.count_replicate_self]
    refine .event (u := answers s.responses c.conn + R.count c.conn) hcause hready heff ?_ ?_
    · omega
    · rw [Nat.add_assoc, Nat.add_comm (R.count c.conn)]
      exact .refl _ _
  · refine ⟨c', hlive'', rfl, ?_⟩
    have hne : c.conn ≠ c'.conn := fun heq => hj (hi.inj j i c' c hlive'' hlive heq.symm)
    simp only [List.count_append, List.count_replicate, beq_iff_eq, hne, if_false]
    exact .refl _ _

/-- Every event but data leaves nothing to answer. -/
theorem onClient_done (hi : ClientsInv s.clients s.responses s.nextConn R' closer)
    (hlive : s.clients.live i = some c) (hcause : cause i c e) (henabled : e.Enabled c)
    (he : ∀ rb handler, e ≠ .data rb handler)
    (hs : s.onClient parse i c e = some (s', next)) :
    Locally parse cause s (List.replicate e.cost c.conn ++ R) s' R := by
  have hready : e.Ready c := ⟨henabled, fun rb handler heq => absurd heq (he rb handler)⟩
  obtain ⟨eff, -, heff, hnext, -⟩ := State.onClient_spec hs
  have hlocal := onClient (R := R) hi hlive hcause hready hs
  rw [← hnext, step_gain heff he] at hlocal
  exact hlocal

/-- A right of a connection that is closed or gone. -/
theorem forget {n : ℕ}
    (hclosed : ∀ i c, s.clients.live i = some c → c.conn = n → c.socket.phase ≠ .active) :
    Locally parse cause s (n :: R) s R := by
  intro i c hlive
  refine ⟨c, hlive, rfl, ?_⟩
  by_cases hn : c.conn = n
  · refine .forget (hclosed i c hlive hn) ?_ (.refl _ _)
    rw [hn, List.count_cons_self]
    rfl
  · rw [List.count_cons_of_ne (Ne.symm hn)]
    exact .refl _ _

end Locally

/-! ## Every step is local -/

/-- The rights to answer connection `n` that are held outside of it. -/
def State.rights (s : State) (n : ℕ) : ℕ := answers s.responses n + s.hands.rights.count n

/-- A buffer is only handed out for a connection that is being read. -/
def State.HandedReads (s : State) : Prop :=
  ∀ h c, s.handed = some h → s.clients.live h.client = some c → c.socket.reading = true

theorem answers_append (responses : List ResponseObject) (r : ResponseObject) (n : ℕ) :
    answers (responses ++ [r]) n = answers responses n + [r.conn].count n := by
  simp [answers, List.countP_append, List.count_singleton, List.countP_singleton]

theorem answers_eraseIdx {responses : List ResponseObject} {k : ℕ} {r : ResponseObject}
    (hk : responses[k]? = some r) (n : ℕ) :
    answers responses n = answers (responses.eraseIdx k) n + [r.conn].count n := by
  obtain ⟨hlt, rfl⟩ := List.getElem?_eq_some_iff.mp hk
  have hperm := (List.getElem_cons_eraseIdx_perm hlt).countP_eq fun r => r.conn == n
  rw [List.countP_cons] at hperm
  simp only [answers, List.count_singleton]
  omega

namespace Settled
variable {parse : Text → PhrResult} {cause : ℕ → ClientState → Event → Prop}
  {hist out : List Output} {s s' : State} {i : ℕ} {c : ClientState}

theorem rights_of_frame (hframe : s.frame = none) : s.hands.rights = [] := by
  simp [State.hands, hframe]

/-- Events leave alone which connection is being set up. -/
theorem rights_onClient {e : Event} {next : Next} (hwf : s.clients.WF)
    (hlive : s.clients.live i = some c) (hs : s.onClient parse i c e = some (s', next)) :
    s'.hands.rights = s.hands.rights := by
  obtain ⟨eff, p, heff, -, -, rfl⟩ := State.onClient_spec hs
  obtain ⟨hr, -⟩ := MemPool.modify_spec hwf hlive fun _ => eff.client
  have hconn : ∀ j, ((s.clients.modify i fun _ => eff.client).live j).map ClientState.conn =
      (s.clients.live j).map ClientState.conn := by
    intro j
    rw [hr.live_eq]
    split_ifs with hj
    · rw [hj, hlive, Option.map_some, Option.map_some, (step_keeps heff).conn]
    · rfl
  simp only [State.hands, hconn]

theorem locally_invokeFunction {req : RequestObject} {ok : Bool} {c' : ClientState}
    (hi : Inv hist s ⟨[], [], [c.conn], none⟩) (hlive : s.clients.live i = some c')
    (hconn : c'.conn = c.conn) (hcause : cause i c' (.notFound ok))
    (hs : s.invokeFunction parse i c req ok = some (s', out)) :
    Locally parse cause s [c.conn] s' [] := by
  obtain ⟨g, -, ⟨handler, -, rfl⟩ | ⟨d, s₁, next, -, hderef, hclient, hrel⟩⟩ :=
    State.invokeFunction_cases hs
  · refine Locally.of_live (fun j d hd => ?_) fun n => ?_
    · exact hd
    · exact answers_append s.responses ⟨i, g, req, c.conn⟩ n
  · rw [MemPool.deref_of_live hlive] at hderef
    cases hderef
    have hlocal : Locally parse cause s [c'.conn] s₁ [] :=
      Locally.onClient_done (s := s.acquireGuard g) (e := .notFound ok) hi.clients hlive hcause
        trivial nofun hclient
    rw [State.releaseGuard_spec hrel, ← hconn]
    exact hlocal

theorem locally_read {nread : ReadResult} {handler ok : Bool} (hi : Settled hist s)
    (hreads : s.HandedReads) (hs : s.step parse (.read nread handler ok) = some (s', out)) :
    Locally parse (s.Causes (.read nread handler ok)) s s.hands.rights s' s'.hands.rights := by
  obtain ⟨h, hh, hrun⟩ := State.read_spec hs
  obtain ⟨hframe, -⟩ := hi.handed h hh
  have hinv := hi.inv
  simp only [State.hands, hh, hframe, Option.bind_some] at hinv
  rw [rights_of_frame hframe]
  obtain ⟨c, hlive, ⟨b, bytes, hb, rfl, -, hdata⟩ | ⟨hnone, -, p, next, -, hclient⟩⟩ :=
    State.onRead_cases hrun
  · have hinv₀ : Inv hist { s with handed := none } ⟨[b], [], [], none⟩ := by
      rw [hb] at hinv
      exact ⟨hinv.buffers, hinv.guards, hinv.clients, hinv.hist⟩
    obtain ⟨s₁, next, out₁, hclient, -, hcases⟩ := State.onReadData_cases hdata
    have hopen : c.closing = false := by
      obtain ⟨-, d, hd, hactive⟩ := hi.handed h hh
      rw [hlive] at hd
      cases hd
      exact (hinv.clients.ok h.client c hlive).closing_of_active hactive
    have hready : Event.Ready c (.data ⟨b, bytes⟩ handler) :=
      ⟨hopen, fun _ _ _ => hreads h c hh hlive⟩
    have hlocal : Locally parse (s.Causes (.read (.data bytes) handler ok)) s [] s₁
        (List.replicate next.gain c.conn ++ []) :=
      Locally.onClient (s := { s with handed := none }) (R := []) hinv.clients hlive
        (.data hh hlive) hready hclient
    obtain ⟨hinv₁, c₁, ht⟩ := Inv.onClient (e := .data ⟨b, bytes⟩ handler) (B := []) (R := []) hinv₀
      hlive hopen (by simp) (by simp) hclient
    have hframe₁ : s₁.frame = none := (State.samePlace_onClient hclient).2.trans hframe
    have hlive₁ := ht.replaces.live_eq h.client
    rw [if_pos rfl] at hlive₁
    rcases hcases with ⟨rfl, -, rfl⟩ | ⟨req, key, rfl, -, rfl⟩ | ⟨rc, text, rfl, -, rfl⟩ |
      ⟨req, rfl, hinvoke⟩
    · rw [rights_of_frame hframe₁]
      exact hlocal
    · have hrights' : ∀ ws, ({ s₁ with frame := some (.setup h.client ws) } : State).hands.rights =
          [c.conn] := by
        intro ws
        simp only [State.hands, hlive₁, Option.map_some, ht.conn, Option.toList_some]
      rw [hrights']
      exact hlocal
    · exact hlocal
    · have hframe' := (State.samePlace_invokeFunction hinvoke).2.trans hframe₁
      rw [rights_of_frame hframe']
      exact hlocal.trans (locally_invokeFunction hinv₁ hlive₁ ht.conn (.notFound hh) hinvoke)
  · have hlocal : Locally parse (s.Causes (.read nread handler ok)) s [] s' [] :=
      Locally.onClient_done (s := { s with handed := none, readBuffers := p }) (e := .readFailed)
        hinv.clients hlive (.readFailed hh hlive hnone) trivial (by simp) hclient
    rw [rights_of_frame ((State.samePlace_onClient hclient).2.trans hframe)]
    exact hlocal

/-- An event of the loop other than a read and the close callback. -/
theorem locally_loop {a : Label} {e : Event} {next : Next} (hi : Settled hist s) (hidle : s.Idle)
    (hlive : s.clients.live i = some c) (hcause : s.Causes a i c e) (henabled : e.Enabled c)
    (hcost : e.cost = 0) (he : ∀ rb handler, e ≠ .data rb handler)
    (hs : s.onClient parse i c e = some (s', next)) :
    Locally parse (s.Causes a) s s.hands.rights s' s'.hands.rights := by
  have hlocal := Locally.onClient_done (R := []) hi.inv.clients hlive hcause henabled he hs
  rw [hcost] at hlocal
  rw [rights_of_frame hidle.2, rights_of_frame ((State.samePlace_onClient hs).2.trans hidle.2)]
  exact hlocal

theorem locally_finishClose {R R' : List ℕ} {closer : Option ℕ}
    (hi : ClientsInv s.clients s.responses s.nextConn R' closer)
    (hlive : s.clients.live i = some c) (hcause : cause i c .closeFinished)
    (hclosing : c.closing = true)
    (hs : s.finishClose parse i c = some (s', out)) : Locally parse cause s R s' R := by
  obtain ⟨-, guards, next, -, hclient⟩ := State.finishClose_spec hs
  exact Locally.onClient_done (s := { s with guards }) (e := .closeFinished) hi hlive hcause
    hclosing nofun hclient

theorem locally_clientClosed (hi : Settled hist s)
    (hs : s.step parse (.clientClosed i) = some (s', out)) :
    Locally parse (s.Causes (.clientClosed i)) s s.hands.rights s' s'.hands.rights := by
  obtain ⟨hidle, c, hlive, henabled, hrun⟩ := State.onLoopEvent_spec hs
  simp only [Bool.and_eq_true, beq_iff_eq, List.isEmpty_iff, Bool.not_eq_true'] at henabled
  obtain ⟨⟨hphase, hwrites⟩, hshutdown⟩ := henabled
  obtain ⟨s₁, next, hstart, hcases⟩ := State.onClientClosed_cases hrun
  have hlocal : Locally parse (s.Causes (.clientClosed i)) s [] s₁ [] :=
    Locally.onClient_done (e := .closeStarted) hi.inv.clients hlive
      (.closeStarted hidle hlive hphase hwrites hshutdown) hphase nofun hstart
  have hframe₁ := (State.samePlace_onClient hstart).2.trans hidle.2
  rw [rights_of_frame hidle.2]
  rcases hcases with ⟨-, hfinish⟩ | ⟨-, -, rfl⟩
  · obtain ⟨hinv₁, hlive₁, -⟩ := (hi.inv_of_idle hidle).closeStarted hlive hphase hstart
    rw [rights_of_frame ((State.samePlace_finishClose hfinish).2.trans hframe₁)]
    exact hlocal.trans (locally_finishClose hinv₁.clients hlive₁ (.closeFinished hidle rfl) rfl hfinish)
  · exact hlocal

/-- A response whose connection cannot be answered any more. -/
theorem not_active_of_dead {r : ResponseObject} {gd : ConnGuard} (hi : Settled hist s)
    (hr : r ∈ s.responses) (hgd : s.guards.live r.guard = some gd) (hdead : gd.alive = false)
    (hlive : s.clients.live i = some c) (hconn : c.conn = r.conn) : c.socket.phase ≠ .active := by
  have hgconn := (hi.inv.guards.response r hr gd hgd).1
  have hclosed := (hi.inv.hist.guard r.guard gd hgd).mp hdead
  rw [hgconn, ← hconn] at hclosed
  have hok := hi.inv.clients.ok i c hlive
  have hclosing := (hok.guard_none ((hi.inv.hist.client i c hlive).mpr hclosed)).1
  rw [hok.closing_iff.mp hclosing]
  exact nofun

theorem locally_endResponse {a : Label} {k : ℕ} {e : Event} (hi : Settled hist s)
    (henabled : ∀ c, e.Enabled c) (hcost : e.cost = 1) (he : ∀ rb handler, e ≠ .data rb handler)
    (hcause : ∀ r gd c, s.responses[k]? = some r → s.guards.live r.guard = some gd →
      gd.alive = true → s.clients.live r.cli = some c → c.closing = false → s.Causes a r.cli c e)
    (hs : s.endResponse parse k e = some (s', out)) :
    Locally parse (s.Causes a) s s.hands.rights s' s'.hands.rights := by
  obtain ⟨r, gd, s₁, hr, hderef, -, hrel, hcases⟩ := State.endResponse_cases hs
  have hmem : r ∈ s.responses := List.mem_of_getElem? hr
  obtain ⟨gd', hgd⟩ := hi.inv.guards.of_response hmem
  rw [MemPool.deref_of_live hgd] at hderef
  cases hderef
  have herased : Locally parse (s.Causes a) s s.hands.rights
      { s with responses := s.responses.eraseIdx k } (r.conn :: s.hands.rights) := by
    refine Locally.of_live (fun j d hd => hd) fun n => ?_
    have hcount := answers_eraseIdx hr n
    rw [List.count_singleton] at hcount
    rw [List.count_cons, hcount, Nat.add_comm (s.hands.rights.count n), ← Nat.add_assoc]
  -- a response whose connection cannot be answered any more
  have hforgotten : (∀ j d, s.clients.live j = some d → d.conn = r.conn →
      d.socket.phase ≠ .active) → s₁ = { s with responses := s.responses.eraseIdx k } →
      Locally parse (s.Causes a) s s.hands.rights s' s'.hands.rights := by
    rintro hclosed rfl
    rw [State.releaseGuard_spec hrel]
    exact herased.trans (Locally.forget hclosed)
  rcases hcases with ⟨hdead, hs₁⟩ | ⟨halive, c, hc, hcases⟩
  · exact hforgotten (fun j d hd => hi.not_active_of_dead hmem hgd hdead hd) hs₁
  obtain ⟨hgconn, hcli⟩ := hi.inv.guards.response r hmem gd hgd
  obtain ⟨c', hlive, hguard⟩ := hcli halive
  rw [MemPool.deref_of_live hlive] at hc
  cases hc
  have hconn : r.conn = c.conn :=
    hgconn.symm.trans (hi.inv.guards.client r.cli c r.guard gd hlive hguard hgd)
  rcases hcases with ⟨hclosing, hs₁⟩ | ⟨hopen, next, hclient⟩
  · apply hforgotten _ hs₁
    intro j d hd hdconn
    obtain rfl := hi.inv.clients.inj j r.cli d c hd hlive (hdconn.trans hconn)
    rw [hlive] at hd
    cases hd
    rw [(hi.inv.clients.ok r.cli c hlive).closing_iff.mp hclosing]
    exact nofun
  · have hevent := Locally.onClient_done (s := { s with responses := s.responses.eraseIdx k })
      (R := s.hands.rights) (hi.inv.eraseResponse hr).clients hlive
      (hcause r gd c hr hgd halive hlive hopen) (henabled c) he hclient
    rw [hcost, ← hconn] at hevent
    have hrights := rights_onClient (s := { s with responses := s.responses.eraseIdx k })
      hi.inv.clients.wf hlive hclient
    rw [State.releaseGuard_spec hrel]
    exact hrights ▸ herased.trans hevent

theorem locally_jsReturn {ok : Bool} (hi : Settled hist s)
    (hs : s.step parse (.jsReturn ok) = some (s', out)) :
    Locally parse (s.Causes (.jsReturn ok)) s s.hands.rights s' s'.hands.rights := by
  obtain ⟨-, f, hf, hrun⟩ := State.jsReturn_spec hs
  have hclients := hi.inv.clients
  rcases State.onJsReturn_cases hrun with
    ⟨i, c, e, next, hlive, -, hclient, ⟨ws, rfl, rfl⟩ | ⟨rc, rfl, rfl⟩⟩ |
    ⟨i, c, rfl, hlive, hfinish⟩
  · have hlive' : s.clients.live i = some c := hlive
    have hlocal : Locally parse (s.Causes (.jsReturn ok)) s [c.conn] s' [] :=
      Locally.onClient_done (s := { s with frame := none }) (e := .handshake ws ok) hclients hlive
        (.handshake hf hlive) trivial (by simp) hclient
    have hrights : s.hands.rights = [c.conn] := by
      simp only [State.hands, hf, hlive', Option.map_some, Option.toList_some]
    rw [hrights, rights_of_frame (State.samePlace_onClient hclient).2]
    exact hlocal
  · have hlocal : Locally parse (s.Causes (.jsReturn ok)) s [] s' [] :=
      Locally.onClient_done (s := { s with frame := none }) (e := .messageDone rc) hclients hlive
        (.messageDone hf hlive) trivial (by simp) hclient
    have hrights : s.hands.rights = [] := by simp only [State.hands, hf]
    rw [hrights, rights_of_frame (State.samePlace_onClient hclient).2]
    exact hlocal
  · obtain ⟨-, hclosing⟩ := hi.of_onClose hf hlive
    have hlocal : Locally parse (s.Causes (.jsReturn ok)) s [] s' [] :=
      locally_finishClose (s := { s with frame := none }) hclients hlive
        (.closeReturned hf hclosing) hclosing hfinish
    have hrights : s.hands.rights = [] := by simp only [State.hands, hf]
    rw [hrights, rights_of_frame (State.samePlace_finishClose hfinish).2]
    exact hlocal

/-- Every step but the acceptance of a connection. -/
theorem locally {a : Label} (hi : Settled hist s) (hreads : s.HandedReads)
    (hs : s.step parse a = some (s', out))
    (ha : ∀ accepted named, a ≠ .peerConnected accepted named) :
    Locally parse (s.Causes a) s s.hands.rights s' s'.hands.rights := by
  cases a with
  | peerConnected accepted named => exact absurd rfl (ha accepted named)
  | allocBuffer i =>
    obtain ⟨hidle, c, -, -, hrun⟩ := State.onLoopEvent_spec hs
    obtain ⟨-, buffer, readBuffers, -, rfl⟩ := State.onAllocBuffer_spec hrun
    exact Locally.of_live (fun j d hd => hd) fun n => rfl
  | read nread handler ok => exact hi.locally_read hreads hs
  | writeDone i ok =>
    obtain ⟨hidle, c, hlive, hphase, hrun⟩ := State.onLoopEvent_spec hs
    obtain ⟨⟨s₁, next⟩, hclient, hpair⟩ := Option.map_eq_some_iff.mp hrun
    cases hpair
    exact hi.locally_loop hidle hlive (.writeDone hidle hlive (by simpa using hphase)) trivial rfl
      (by simp) hclient
  | shutdownDone i =>
    obtain ⟨hidle, c, hlive, hphase, hrun⟩ := State.onLoopEvent_spec hs
    obtain ⟨⟨s₁, next⟩, hclient, hpair⟩ := Option.map_eq_some_iff.mp hrun
    cases hpair
    exact hi.locally_loop hidle hlive (.shutdownDone hidle hlive (by simpa using hphase)) trivial rfl
      (by simp) hclient
  | idleTimeout i =>
    obtain ⟨hidle, c, hlive, htimer, hrun⟩ := State.onLoopEvent_spec hs
    obtain ⟨⟨s₁, next⟩, hclient, hpair⟩ := Option.map_eq_some_iff.mp hrun
    cases hpair
    exact hi.locally_loop hidle hlive (.idleTimeout hidle hlive (by simpa using htimer)) trivial rfl
      (by simp) hclient
  | clientClosed i => exact hi.locally_clientClosed hs
  | idleTimerClosed i =>
    obtain ⟨hidle, c, hlive, -, hrun⟩ := State.onLoopEvent_spec hs
    obtain ⟨clients, hrel, hpair⟩ := Option.map_eq_some_iff.mp hrun
    cases hpair
    obtain ⟨p, hp, hr, -⟩ := MemPool.release_spec hi.inv.clients.wf hlive
    rw [hrel] at hp
    cases hp
    have hsubset : ∀ j d, clients.live j = some d → s.clients.live j = some d := by
      intro j d hd
      rw [hr.live_eq] at hd
      split_ifs at hd
      exact hd
    have hframe : ({ s with clients } : State).frame = none := hidle.2
    rw [rights_of_frame hidle.2, rights_of_frame hframe]
    exact Locally.of_live hsubset fun n => rfl
  | send k isStatic body ok =>
    simp only [State.step] at hs
    split_ifs at hs
    exact hi.locally_endResponse (e := .send isStatic body ok) (fun _ => trivial) rfl (by simp)
      (fun r gd c hr hgd halive hlive hopen => .send hr hgd halive hlive hopen) hs
  | abort k ok =>
    simp only [State.step] at hs
    split_ifs at hs
    exact hi.locally_endResponse (e := .abort ok) (fun _ => trivial) rfl (by simp)
      (fun r gd c hr hgd halive hlive hopen => .abort hr hgd halive hlive hopen) hs
  | wsSend i ok =>
    obtain ⟨-, -, c, next, hlive, hws, hclient⟩ := State.wsSend_spec hs
    rw [rights_onClient hi.inv.clients.wf hlive hclient]
    exact Locally.onClient_done (e := .sendFrame ok) hi.inv.clients hlive (.sendFrame hlive hws)
      trivial (by simp) hclient
  | jsReturn ok => exact hi.locally_jsReturn hs
  | registerApi method uri handler =>
    simp only [State.step] at hs
    split_ifs at hs
    cases hs
    exact Locally.of_live (fun j d hd => hd) fun n => rfl
  | registerWs uri handler =>
    simp only [State.step] at hs
    split_ifs at hs
    cases hs
    exact Locally.of_live (fun j d hd => hd) fun n => rfl

end Settled

/-! ## The rule for whole runs -/

theorem State.HandedReads.step {parse : Text → PhrResult} {s s' : State} {a : Label}
    {out : List Output} (hwf : s.clients.WF) (hs : s.step parse a = some (s', out)) :
    s'.HandedReads := by
  intro h c' hh hlive
  by_cases ha : ∀ i, a ≠ .allocBuffer i
  · rw [(place_step hwf hs).2 ha] at hh
    cases hh
  · simp only [not_forall, not_not] at ha
    obtain ⟨i, rfl⟩ := ha
    obtain ⟨-, c, hlive', hreading, hrun⟩ := onLoopEvent_spec hs
    obtain ⟨-, buffer, readBuffers, -, rfl⟩ := onAllocBuffer_spec hrun
    cases hh
    have hc : s.clients.live i = some c' := hlive
    rw [hlive'] at hc
    cases hc
    exact hreading

section
variable {parse : Text → PhrResult} {hist out : List Output} {s s' : State} {a : Label}

theorem answers_eq_zero {responses : List ResponseObject} {n : ℕ} (h : ∀ r ∈ responses, r.conn < n) :
    answers responses n = 0 := by
  apply List.countP_eq_zero.mpr
  intro r hr
  simpa using (h r hr).ne

/-- Every connection is new or went through local events. -/
theorem Settled.origin (hi : Settled hist s) (hreads : s.HandedReads)
    (hs : s.step parse a = some (s', out)) {i : ℕ} {c' : ClientState}
    (hlive' : s'.clients.live i = some c') :
    (s.Idle ∧ s'.rights c'.conn = 0 ∧
        ∃ g accepted named, c' = State.newClient g s.nextConn accepted named) ∨
      ∃ c, s.clients.live i = some c ∧ c'.conn = c.conn ∧
        LocalRun parse (s.Causes a i) c (s.rights c.conn) c' (s'.rights c.conn) := by
  by_cases ha : ∀ accepted named, a ≠ .peerConnected accepted named
  · exact .inr (hi.locally hreads hs ha i c' hlive')
  · simp only [not_forall, not_not] at ha
    obtain ⟨accepted, named, rfl⟩ := ha
    simp only [State.step] at hs
    split_ifs at hs with hidle
    have hclients := hi.inv.clients
    obtain ⟨⟨-, hframe, -⟩, hresponses, hcases⟩ := State.onPeerConnected_cases hclients.wf hs
    have hrights : ∀ n, s'.rights n = s.rights n := by
      intro n
      simp only [State.rights, Settled.rights_of_frame hidle.2,
        Settled.rights_of_frame (hframe.trans hidle.2), hresponses]
    rcases hcases with ⟨-, -, hlive⟩ | ⟨j, g, -, -, hlive⟩
    · rw [hlive] at hlive'
      refine .inr ⟨c', hlive', rfl, ?_⟩
      rw [hrights]
      exact .refl _ _
    · rw [hlive] at hlive'
      split_ifs at hlive' with hj
      · cases hlive'
        refine .inl ⟨hidle, ?_, g, accepted, named, rfl⟩
        change s'.rights s.nextConn = 0
        rw [hrights, State.rights, Settled.rights_of_frame hidle.2]
        exact answers_eq_zero hclients.response_lt
      · refine .inr ⟨c', hlive', rfl, ?_⟩
        rw [hrights]
        exact .refl _ _

/-- Every open connection has its slot: there are as many slots in use as open
connections, and none is in two. -/
theorem Settled.exists_live (hi : Settled hist s) {n : ℕ} (hn : n ∈ openConns hist) :
    ∃ i c, s.clients.live i = some c ∧ c.conn = n := by
  by_contra hnone
  have hclients := hi.inv.clients
  have hopened := hi.inv.hist.opened
  let live : Finset ℕ := (Finset.range s.clients.capacity).filter fun i =>
    (s.clients.live i).isSome
  let connOf : ℕ → ℕ := fun i => (s.clients.live i).elim 0 ClientState.conn
  have hcard : live.card = s.clients.inUseCount := by
    rw [MemPool.inUseCount_eq_countP hclients.wf, List.countP_eq_length_filter]
    simp [live, Finset.card_def, ← Multiset.coe_range]
  have hmaps : ∀ i ∈ live, connOf i ∈ (openConns hist).erase n := by
    intro i hmem
    obtain ⟨c, hc⟩ := Option.isSome_iff_exists.mp (Finset.mem_filter.mp hmem).2
    have hconn : connOf i = c.conn := by simp [connOf, hc]
    rw [hconn, Finset.mem_erase]
    exact ⟨fun heq => hnone ⟨i, c, hc, heq⟩, hopened.live i c hc⟩
  have hinj : ∀ i ∈ live, ∀ j ∈ live, connOf i = connOf j → i = j := by
    intro i hmem j hmem' heq
    obtain ⟨c, hc⟩ := Option.isSome_iff_exists.mp (Finset.mem_filter.mp hmem).2
    obtain ⟨d, hd⟩ := Option.isSome_iff_exists.mp (Finset.mem_filter.mp hmem').2
    apply hclients.inj i j c d hc hd
    simpa [connOf, hc, hd] using heq
  have hle := Finset.card_le_card_of_injOn connOf hmaps fun i hmem j hmem' => hinj i hmem j hmem'
  have hpos := Finset.card_pos.mpr ⟨n, hn⟩
  rw [Finset.card_erase_of_mem hn, hcard, hopened.count] at hle
  omega

theorem reaches_handedReads (run : (machine parse).Reaches s hist) :
    Settled hist s ∧ s.HandedReads := by
  apply run.invariant (I := fun hist s => Settled hist s ∧ s.HandedReads)
  · intro s₀ h
    refine ⟨State.Initial.settled h, fun hd c hh => ?_⟩
    rw [h.handed] at hh
    cases hh
  · intro hist s a s' out h hstep
    exact ⟨h.1.step hstep, .step h.1.inv.clients.wf hstep⟩

/-- What a new connection has and each event keeps holds for every connection, in every
state that is reached by steps that meet a condition. -/
theorem reaches_local {C : State → Label → Prop} [∀ s a, Decidable (C s a)]
    {K : ClientState → ℕ → Prop}
    (new : ∀ g n accepted named, K (State.newClient g n accepted named) 0)
    (event : ∀ s a i c e eff u, C s a → s.Causes a i c e → e.Ready c → c.Ok →
      c.step parse e = some eff → K c (u + e.cost) → K eff.client (u + eff.next.gain))
    (forget : ∀ c u, c.socket.phase ≠ .active → K c (u + 1) → K c u)
    (run : ((machine parse).guarded C).Reaches s hist) :
    ∀ i c, s.clients.live i = some c → K c (s.rights c.conn) := by
  have hall : (Settled hist s ∧ s.HandedReads) ∧
      ∀ i c, s.clients.live i = some c → K c (s.rights c.conn) := by
    apply run.invariant (I := fun hist s => (Settled hist s ∧ s.HandedReads) ∧
      ∀ i c, s.clients.live i = some c → K c (s.rights c.conn))
    · intro s₀ h
      have hstart : (machine parse).Reaches s₀ [] := .start h
      refine ⟨reaches_handedReads hstart, fun i c hlive => ?_⟩
      obtain ⟨m, clientJunk, bufferJunk, guardJunk, hclients, -, -⟩ := h.pools
      rw [MemPool.live_new hclients] at hlive
      cases hlive
    · intro hist s a s' out ⟨⟨hi, hreads⟩, hK⟩ hstep
      obtain ⟨hcond, hstep⟩ := Machine.guarded_step.mp hstep
      refine ⟨⟨hi.step hstep, .step hi.inv.clients.wf hstep⟩, fun i c' hlive' => ?_⟩
      rcases hi.origin hreads hstep hlive' with
        ⟨-, hrights, g, accepted, named, rfl⟩ | ⟨c, hlive, hconn, hrun⟩
      · rw [hrights]
        exact new g _ accepted named
      · rw [hconn]
        apply hrun.invariant (fun c e eff u => event s a i c e eff u hcond) forget
          (hi.inv.clients.ok i c hlive)
        exact hK i c hlive
  exact hall.2

end
end CapyJs.Server
