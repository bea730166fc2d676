import CapyJs.Server.IdleTimer
import CapyJs.Server.LocalRun
import CapyJs.Server.Observation

/-!
# The phases of a slot

For its idle timer a slot of the client pool is free, or has a connection with an open socket,
with a socket that is being closed, or with a timer that is being closed. A step of the server
moves a slot by at most one of these phases.
-/
namespace CapyJs.Server

open CapyJs.Http CapyJs.Pool CapyJs.Transition ClientState

/-! ## One connection -/

namespace ClientState
variable {parse : Text → PhrResult} {c : ClientState} {e : Event} {eff : Effect}

/-- A socket that is closed is being closed until the timer is, at the end of its callback. -/
def idlePhase (c : ClientState) : Idle.Phase :=
  if c.socket.phase = .active then .connected
  else if c.idleTimer = .active then .socketClosing
  else .timerClosing

theorem idlePhase_of_active (h : c.socket.phase = .active) : c.idlePhase = .connected := if_pos h

theorem active_of_idlePhase (h : c.idlePhase = .connected) : c.socket.phase = .active := by
  unfold idlePhase at h
  split_ifs at h with hactive
  exact hactive

theorem Ok.idlePhase_eq (hok : c.Ok) (hclosed : c.socket.phase ≠ .active) :
    c.idlePhase = if c.guard = none then .timerClosing else .socketClosing := by
  by_cases hguard : c.guard = none
  · simp [idlePhase, hclosed, hguard, (hok.guard_none hguard).2.2]
  · simp [idlePhase, hclosed, hguard, hok.guard_some hguard]

theorem Ok.guard_of_active (hok : c.Ok) (hactive : c.socket.phase = .active) :
    c.guard ≠ none := by
  intro hnone
  have hclosing := (hok.guard_none hnone).1
  rw [hok.closing_of_active hactive] at hclosing
  cases hclosing

/-- Every event but the last part of the close callback leaves the phase alone or closes the
socket. -/
theorem step_idlePhase (hok : c.Ok) (henabled : e.Enabled c) (he : e ≠ .closeFinished)
    (hs : c.step parse e = some eff) :
    eff.client.idlePhase = c.idlePhase ∨
      c.idlePhase = .connected ∧ eff.client.idlePhase = .socketClosing := by
  by_cases hactive' : eff.client.socket.phase = .active
  · left
    rw [idlePhase_of_active hactive', idlePhase_of_active (step_active hs hactive')]
  · rw [(hok.step henabled hs).idlePhase_eq hactive', (step_keeps hs).guard he]
    by_cases hactive : c.socket.phase = .active
    · exact .inr ⟨idlePhase_of_active hactive, if_neg (hok.guard_of_active hactive)⟩
    · exact .inl (hok.idlePhase_eq hactive).symm

theorem closeFinished_idlePhase (hok : c.Ok) (hclosing : c.closing = true) :
    c.idlePhase ≠ .connected ∧ c.closeFinished.idlePhase = .timerClosing := by
  have hclosed : c.socket.phase ≠ .active := by simp [hok.closing_iff.mp hclosing]
  exact ⟨fun h => hclosed (active_of_idlePhase h), by simp [idlePhase, closeFinished, hclosed]⟩

end ClientState

/-! ## One slot -/

/-- Where the slot is, if a connection is in it. -/
def State.idlePhase (s : State) (i : ℕ) : Option Idle.Phase :=
  (s.clients.live i).map ClientState.idlePhase

/-- The calls that JS code makes, also from the callback of another timer. -/
def Label.fromJs : Label → Bool
  | .send _ _ _ _ | .abort _ _ | .wsSend _ _ | .registerApi _ _ _ | .registerWs _ _ => true
  | _ => false

/-- The labels that can end the close callback. -/
def Label.endsClose : Label → Bool
  | .clientClosed _ | .jsReturn _ => true
  | _ => false

/-- The moves of a slot. Only its socket is closed by JS code. -/
inductive PhaseStep (a : Label) : Option Idle.Phase → Option Idle.Phase → Prop
  | same (p : Option Idle.Phase) : PhaseStep a p p
  | peerConnected (ha : a.fromJs = false) : PhaseStep a none (some .connected)
  | closeSocket : PhaseStep a (some .connected) (some .socketClosing)
  | clientClosed (ha : a.fromJs = false) : PhaseStep a (some .socketClosing) (some .timerClosing)
  | idleTimerClosed (ha : a.fromJs = false) : PhaseStep a (some .timerClosing) none

section
variable {parse : Text → PhrResult} {hist out : List Output} {s s' : State} {a : Label} {i : ℕ}
  {c c' : ClientState}

/-- A label that can end the close callback closes no socket. -/
theorem State.Causes.idlePhase {e : Event} {eff : Effect} (hcause : s.Causes a i c e)
    (hready : e.Ready c) (hok : c.Ok) (hs : c.step parse e = some eff) (ha : a.endsClose = true)
    (he : e ≠ .closeFinished) : eff.client.idlePhase = c.idlePhase := by
  rcases step_idlePhase hok hready.enabled he hs with hsame | ⟨hopen, hclosing⟩
  · exact hsame
  · have hactive := active_of_idlePhase hopen
    have hstill : eff.client.socket.phase = .active := by
      cases hcause with
      | closeStarted hidle hlive hphase =>
        rw [hactive] at hphase
        cases hphase
      | handshake hf hlive =>
        cases hs
        unfold completeProtocolUpgradeHandshake
        split_ifs
        · exact hactive
        · exact (Socket.write_phase ..).trans hactive
      | messageDone hf hlive =>
        cases hs
        unfold finishMessage
        split_ifs <;> exact hactive
      | closeFinished | closeReturned => exact absurd rfl he
      | _ => cases ha
    rw [idlePhase_of_active hstill, hopen]

theorem State.Causes.endsClose (hcause : s.Causes a i c .closeFinished) : a.endsClose = true := by
  cases hcause <;> rfl

/-- What the events of one label do to the phase of a connection. -/
theorem LocalRun.idlePhase {u u' : ℕ} (run : LocalRun parse (s.Causes a i) c u c' u')
    (hok : c.Ok) :
    c'.idlePhase = c.idlePhase ∨
      a.endsClose = false ∧ c.idlePhase = .connected ∧ c'.idlePhase = .socketClosing ∨
      a.endsClose = true ∧ c.idlePhase = .socketClosing ∧ c'.idlePhase = .timerClosing := by
  refine run.invariant (K := fun d _ => d.idlePhase = c.idlePhase ∨
    a.endsClose = false ∧ c.idlePhase = .connected ∧ d.idlePhase = .socketClosing ∨
    a.endsClose = true ∧ c.idlePhase = .socketClosing ∧ d.idlePhase = .timerClosing) ?_
    (fun _ _ _ h => h) hok (.inl rfl)
  intro d e eff _ hcause hready hokd hs hd
  by_cases he : e = .closeFinished
  · subst he
    have hends := hcause.endsClose
    obtain ⟨hclosed, hafter⟩ := closeFinished_idlePhase hokd hready.enabled
    cases hs
    rcases hd with hsame | ⟨hnot, -⟩ | ⟨-, hbefore, -⟩
    · rw [hsame] at hclosed
      cases hphase : c.idlePhase with
      | connected => exact absurd hphase hclosed
      | socketClosing => exact .inr (.inr ⟨hends, rfl, hafter⟩)
      | timerClosing => exact .inl hafter
    · rw [hends] at hnot
      cases hnot
    · exact .inr (.inr ⟨hends, hbefore, hafter⟩)
  · cases hends : a.endsClose with
    | true =>
      rw [hcause.idlePhase hready hokd hs hends he]
      simpa [hends] using hd
    | false =>
      simp only [hends, Bool.false_eq_true, false_and, or_false, true_and] at hd ⊢
      rcases step_idlePhase hokd hready.enabled he hs with hsame | ⟨hopen, hclosing⟩
      · rwa [hsame]
      · rcases hd with hsame | ⟨-, hd⟩
        · exact .inr ⟨hsame.symm.trans hopen, hclosing⟩
        · rw [hopen] at hd
          cases hd

namespace Settled

/-- A connection stays in its slot until its timer is closed. -/
theorem exists_live_after (hi : Settled hist s) (hreads : s.HandedReads)
    (hs : s.step parse a = some (s', out)) (hlive : s.clients.live i = some c)
    (ha : a ≠ .idleTimerClosed i) : ∃ c', s'.clients.live i = some c' ∧ c'.conn = c.conn := by
  have hclients := hi.inv.clients
  have hopened := mem_openConns.mp (hi.inv.hist.opened.live i c hlive)
  have htimer : .timerClosed c.conn ∉ out := by
    intro hmem
    generalize hn : c.conn = n at hmem
    cases State.shows_of_step hclients.wf hs hmem with
    | peerConnected ho => simp at ho
    | read ho => cases ho
    | @timerClosed j d hlive' htimer => exact ha (by rw [hclients.inj i j c d hlive hlive' hn])
  have hopen : c.conn ∈ openConns (hist ++ out) := by
    simp [mem_openConns, hopened.1, hopened.2, htimer]
  obtain ⟨j, c', hlive', hconn⟩ := (hi.step hs).exists_live hopen
  rcases hi.origin hreads hs hlive' with ⟨-, -, g, accepted, named, rfl⟩ | ⟨d, hd, hsame, -⟩
  · have hlt := hi.inv.hist.opened.accepted_lt c.conn hopened.1
    rw [← hconn] at hlt
    exact absurd hlt (Nat.lt_irrefl _)
  · obtain rfl := hclients.inj j i d c hd hlive (hsame.symm.trans hconn)
    exact ⟨c', hlive', hconn⟩

/-- The slot that a new connection comes into was free, and only `on_peer_connected` makes one. -/
theorem of_newClient (hi : Settled hist s) (hreads : s.HandedReads)
    (hs : s.step parse a = some (s', out)) {g : ℕ} {accepted named : Bool}
    (hlive' : s'.clients.live i = some (State.newClient g s.nextConn accepted named)) :
    s.clients.live i = none ∧ a.fromJs = false := by
  have hlt : ∀ j c, s.clients.live j = some c → c.conn ≠ s.nextConn := fun j c hlive =>
    (hi.inv.hist.opened.accepted_lt _ (mem_openConns.mp (hi.inv.hist.opened.live j c hlive)).1).ne
  by_cases ha : ∀ accepted named, a ≠ .peerConnected accepted named
  · obtain ⟨c, hlive, hconn, -⟩ := hi.locally hreads hs ha i _ hlive'
    exact absurd hconn.symm (hlt i c hlive)
  · simp only [not_forall, not_not] at ha
    obtain ⟨_, _, rfl⟩ := ha
    refine ⟨Option.eq_none_iff_forall_ne_some.mpr fun c hlive => ?_, rfl⟩
    obtain ⟨c', hc', hconn⟩ := hi.exists_live_after hreads hs hlive (by simp)
    cases hlive'.symm.trans hc'
    exact hlt i c hlive hconn.symm

theorem phaseStep (hi : Settled hist s) (hreads : s.HandedReads)
    (hs : s.step parse a = some (s', out)) (i : ℕ) :
    PhaseStep a (s.idlePhase i) (s'.idlePhase i) := by
  have hok := hi.inv.clients.ok i
  unfold State.idlePhase
  cases hlive' : s'.clients.live i with
  | none =>
    cases hlive : s.clients.live i with
    | none => exact .same none
    | some c =>
      by_cases ha : a = .idleTimerClosed i
      · subst ha
        obtain ⟨-, d, hd, htimer, -⟩ := State.onLoopEvent_spec hs
        cases hlive.symm.trans hd
        have hguard : c.guard = none := by
          by_contra hguard
          simp [(hok c hlive).guard_some hguard] at htimer
        have hclosed : c.socket.phase ≠ .active := fun hactive =>
          (hok c hlive).guard_of_active hactive hguard
        rw [Option.map_some, (hok c hlive).idlePhase_eq hclosed, if_pos hguard]
        exact .idleTimerClosed rfl
      · obtain ⟨c', hc', -⟩ := hi.exists_live_after hreads hs hlive ha
        cases hlive'.symm.trans hc'
  | some c' =>
    rcases hi.origin hreads hs hlive' with ⟨-, -, g, accepted, named, rfl⟩ | ⟨c, hlive, -, run⟩
    · obtain ⟨hfree, ha⟩ := hi.of_newClient hreads hs hlive'
      rw [hfree]
      exact .peerConnected ha
    · rw [hlive, Option.map_some, Option.map_some]
      rcases run.idlePhase (hok c hlive) with hsame | ⟨-, hbefore, hafter⟩ | ⟨ha, hbefore, hafter⟩
      · rw [hsame]
        exact .same _
      · rw [hbefore, hafter]
        exact .closeSocket
      · rw [hbefore, hafter]
        exact .clientClosed (by cases a <;> simp_all [Label.endsClose, Label.fromJs])

/-- Data come in for an open connection. -/
theorem idlePhase_of_handed (hi : Settled hist s) {h : Handed} (hh : s.handed = some h) :
    s.idlePhase h.client = some .connected := by
  obtain ⟨-, c, hlive, hactive⟩ := hi.handed h hh
  rw [State.idlePhase, hlive, Option.map_some, idlePhase_of_active hactive]

end Settled

/-- The idle timer of one connection closes its socket and leaves the other slots alone. -/
theorem State.idlePhase_idleTimeout (hwf : s.clients.WF)
    (hs : s.step parse (.idleTimeout i) = some (s', out)) (j : ℕ) :
    s'.idlePhase j = if j = i then some .socketClosing else s.idlePhase j := by
  obtain ⟨-, c, hlive, htimer, hrun⟩ := onLoopEvent_spec hs
  obtain ⟨⟨s₁, next⟩, hclient, hpair⟩ := Option.map_eq_some_iff.mp hrun
  cases hpair
  obtain ⟨eff, p, heff, -, -, rfl⟩ := onClient_spec hclient
  cases heff
  obtain ⟨hr, -⟩ := MemPool.modify_spec hwf hlive fun _ => c.onIdleTimeoutCb
  have hphase : c.onIdleTimeoutCb.idlePhase = .socketClosing := by
    have hclosed : c.onIdleTimeoutCb.socket.phase ≠ .active := Socket.closeUnlessClosing_phase
    have hactive : c.onIdleTimeoutCb.idleTimer = .active := beq_iff_eq.mp htimer
    simp [ClientState.idlePhase, hclosed, hactive]
  have hlive' : (s.clients.modify i fun _ => c.onIdleTimeoutCb).live j = _ := hr.live_eq j
  unfold State.idlePhase
  rw [hlive']
  split_ifs with hj
  · rw [Option.map_some, hphase]
  · rfl

/-- The idle timer of an open connection finds it. -/
theorem Settled.exists_idleTimeout (hi : Settled hist s) (hidle : s.Idle)
    (hphase : s.idlePhase i = some .connected) :
    ∃ s', s.step parse (.idleTimeout i) = some (s', []) := by
  obtain ⟨c, hlive, hopen⟩ := Option.map_eq_some_iff.mp hphase
  have hok := hi.inv.clients.ok i c hlive
  have htimer := hok.guard_some (hok.guard_of_active (active_of_idlePhase hopen))
  refine ⟨{ s with clients := s.clients.modify i fun _ => c.onIdleTimeoutCb }, ?_⟩
  simp [State.step, State.onLoopEvent, hidle, hlive, htimer, State.onClient, ClientState.step,
    State.releaseReadBuffers, releaseAll]

end
end CapyJs.Server
