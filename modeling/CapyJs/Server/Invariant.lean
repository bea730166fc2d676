import CapyJs.Server.Conservation
import CapyJs.Server.Steps

/-!
# The invariant of the server

The four laws together, kept by each operation the callbacks are made of and from
that by every step. What a callback has in its hands between two operations is
part of the statement; between two steps that is the buffer of the read in
progress, the right of the WebSocket being set up and the connection inside its
`onClose` handler.
-/
namespace CapyJs.Server

open CapyJs.Http CapyJs.Pool ClientState

structure Hands where
  buffers : List ℕ
  guards : List ℕ
  rights : List ℕ
  closer : Option ℕ

structure Inv (hist : List Output) (s : State) (h : Hands) : Prop where
  buffers : BufferInv s.clients s.readBuffers h.buffers
  guards : GuardInv s.clients s.guards s.responses h.guards
  clients : ClientsInv s.clients s.responses s.nextConn h.rights h.closer
  hist : HistInv s.clients s.guards s.nextConn hist

/-! ## Events on a connection -/

/-- An event on connection `c` in slot `i` changed nothing but that connection and the
read buffers. -/
structure Touched (s s' : State) (i : ℕ) (c c' : ClientState) : Prop where
  replaces : MemPool.Replaces s.clients s'.clients i (some c) (some c')
  rest : s' = { s with clients := s'.clients, readBuffers := s'.readBuffers }
  conn : c'.conn = c.conn
  guard : c'.guard = c.guard
  closing : c'.closing = c.closing
  activeWs : c.activeWs.isSome → c'.activeWs.isSome

namespace Inv
variable {parse : Text → PhrResult} {hist : List Output} {s s' : State} {i : ℕ}
  {c : ClientState} {e : ClientState.Event} {next : Next} {h : Hands}

/-- The buffers of a connection after an event. -/
theorem buffers_onClient {eff : Effect} {p : MemPool Unit} {clients' : MemPool ClientState}
    {inHand : List ℕ}
    (hb : BufferInv s.clients s.readBuffers (e.buffers.map ReadBuffer.slot ++ inHand))
    (hr : MemPool.Replaces s.clients clients' i (some c) (some eff.client))
    (hk : Keeps c e eff) (hp : releaseAll s.readBuffers eff.released = some p) :
    BufferInv clients' p inHand := by
  have hmoved : BufferInv clients' s.readBuffers
      (eff.released.map ReadBuffer.slot ++ inHand) := by
    apply hb.onClient hr
    intro f
    have hweigh := congrArg (weigh f) hk.recv
    simp only [weigh_append] at hweigh
    have hreleased : ((eff.released.map ReadBuffer.slot).map f).sum = weigh f eff.released := by
      rw [List.map_map]
      rfl
    have hbrought : ((e.buffers.map ReadBuffer.slot).map f).sum = weigh f e.buffers := by
      rw [List.map_map]
      rfl
    simp only [Option.elim_some, List.map_append, List.sum_append, hreleased, hbrought]
    omega
  obtain ⟨p', hp', hb'⟩ := hmoved.releaseAll
  rw [hp] at hp'
  cases hp'
  exact hb'

theorem onClient {B G R : List ℕ} {closer : Option ℕ}
    (hi : Inv hist s ⟨e.buffers.map ReadBuffer.slot ++ B, G,
      List.replicate e.cost c.conn ++ R, closer⟩)
    (hlive : s.clients.live i = some c) (he : e.Enabled c) (hstart : e ≠ .closeStarted)
    (hfinish : e ≠ .closeFinished) (hs : s.onClient parse i c e = some (s', next)) :
    Inv hist s' ⟨B, G, List.replicate next.gain c.conn ++ R, closer⟩ ∧
      ∃ c', Touched s s' i c c' := by
  obtain ⟨eff, p, heff, rfl, hp, rfl⟩ := State.onClient_spec hs
  obtain ⟨hr, hwf⟩ := MemPool.modify_spec hi.clients.wf hlive fun _ => eff.client
  have hk := step_keeps heff
  have hguard := hk.guard hfinish
  have hclosing := hk.closing hstart
  have hok := (hi.clients.ok i c hlive).step he heff
  have hbudget : eff.client.Budget
      (answers s.responses c.conn + (List.replicate eff.next.gain c.conn ++ R).count c.conn) := by
    have hbefore := hi.clients.budget i c hlive
    simp only [List.count_append, List.count_replicate_self] at hbefore ⊢
    have hspent := Budget.step (u := answers s.responses c.conn + R.count c.conn) (e := e)
      (hbefore.mono (by omega)) heff
    exact hspent.mono (by omega)
  have hrights : ∀ n, n ≠ c.conn → (List.replicate eff.next.gain c.conn ++ R).count n ≤
      (List.replicate e.cost c.conn ++ R).count n := by
    intro n hn
    simp [List.count_append, List.count_replicate, Ne.symm hn]
  have hcloser : eff.client.guard ≠ none → (eff.client.closing = true ↔ closer = some i) := by
    rw [hguard, hclosing]
    exact hi.clients.closer_iff i c hlive
  refine ⟨⟨buffers_onClient hi.buffers hr hk hp, ?_, ?_, ?_⟩, eff.client, hr, rfl, hk.conn, hguard,
    hclosing, hk.activeWs hfinish⟩
  · apply hi.guards.onClient hr
    · simpa using hguard
    · rintro _ ⟨⟩ _ ⟨⟩
      exact hk.conn
  · exact hi.clients.onClient hr hwf hok hk.conn hbudget hrights hcloser fun j _ => Iff.rfl
  · exact hi.hist.onClient hr hi.clients.wf hwf hk.conn (by rw [hguard])

/-! ## Guards and responses -/

variable {B G R : List ℕ} {closer : Option ℕ} {g : ℕ}

theorem acquireGuard (hi : Inv hist s ⟨B, G, R, closer⟩) {gd : ConnGuard}
    (hgd : s.guards.live g = some gd) : Inv hist (s.acquireGuard g) ⟨B, g :: G, R, closer⟩ :=
  ⟨hi.buffers, hi.guards.acquire hgd, hi.clients,
    hi.hist.onGuards (GuardInv.survives_modify hi.guards.wf hgd (· + 1))⟩

theorem releaseGuard (hi : Inv hist s ⟨B, g :: G, R, closer⟩)
    (hs : s.releaseGuard g = some s') :
    Inv hist s' ⟨B, G, R, closer⟩ ∧ s' = { s with guards := s'.guards } := by
  obtain ⟨p, hp, hg, hsurvives⟩ := hi.guards.release
  rw [State.releaseGuard, hp] at hs
  cases hs
  exact ⟨⟨hi.buffers, hg, hi.clients, hi.hist.onGuards hsurvives⟩, rfl⟩

theorem addResponse {r : ResponseObject} (hi : Inv hist s ⟨B, r.guard :: G, r.conn :: R, closer⟩)
    (hlive : s.clients.live r.cli = some c) (hguard : c.guard = some r.guard)
    (hconn : c.conn = r.conn) :
    Inv hist { s with responses := s.responses ++ [r] } ⟨B, G, R, closer⟩ :=
  ⟨hi.buffers, hi.guards.addResponse hlive hguard hconn, hi.clients.addResponse, hi.hist⟩

theorem eraseResponse {r : ResponseObject} {k : ℕ} (hi : Inv hist s ⟨B, G, R, closer⟩)
    (hk : s.responses[k]? = some r) :
    Inv hist { s with responses := s.responses.eraseIdx k }
      ⟨B, r.guard :: G, r.conn :: R, closer⟩ :=
  ⟨hi.buffers, hi.guards.eraseResponse hk, hi.clients.eraseResponse hk, hi.hist⟩

theorem dropRights {R' : List ℕ} (hi : Inv hist s ⟨B, G, R' ++ R, closer⟩) :
    Inv hist s ⟨B, G, R, closer⟩ :=
  ⟨hi.buffers, hi.guards, hi.clients.dropRights, hi.hist⟩

theorem quiet (hi : Inv hist s h) {out : List Output} (hout : ∀ o ∈ out, o.Quiet) :
    Inv (hist ++ out) s h :=
  ⟨hi.buffers, hi.guards, hi.clients, hi.hist.quiet hout⟩

/-! ## The close callback -/

theorem closeStarted (hi : Inv hist s ⟨B, G, R, none⟩) (hlive : s.clients.live i = some c)
    (hphase : c.socket.phase = .closing)
    (hs : s.onClient parse i c .closeStarted = some (s', next)) :
    Inv hist s' ⟨B, G, R, some i⟩ ∧ s'.clients.live i = some c.closeStarted ∧
      s' = { s with clients := s'.clients, readBuffers := s'.readBuffers } := by
  obtain ⟨eff, p, heff, rfl, hp, rfl⟩ := State.onClient_spec hs
  obtain ⟨hr, hwf⟩ := MemPool.modify_spec hi.clients.wf hlive fun _ => eff.client
  have hk := step_keeps heff
  have hguard := hk.guard (by simp)
  cases heff
  have hbudget := hi.clients.budget i c hlive
  refine ⟨⟨buffers_onClient hi.buffers hr hk hp, ?_, ?_, ?_⟩, ?_, rfl⟩
  · apply hi.guards.onClient hr
    · simpa using hguard
    · rintro _ ⟨⟩ _ ⟨⟩
      exact hk.conn
  · apply hi.clients.onClient hr hwf ((hi.clients.ok i c hlive).closeStarted hphase) hk.conn
    · exact hbudget
    · exact fun n _ => Nat.le_refl _
    · exact fun _ => iff_of_true rfl rfl
    · intro j hj
      simp [Ne.symm hj]
  · exact hi.hist.onClient hr hi.clients.wf hwf hk.conn (by rw [hguard])
  · rw [hr.live_eq, if_pos rfl]

/-- The connection lets go of its guard, whose reference comes to hand. -/
theorem detach (hi : Inv hist s ⟨B, G, R, some i⟩) (hlive : s.clients.live i = some c)
    (hclosing : c.closing = true) (hguard : c.guard = some g) :
    Inv (hist ++ [Output.closed c.conn])
      { s with clients := s.clients.modify i fun _ => c.closeFinished
               guards := ConnGuard.invalidate s.guards g } ⟨B, g :: G, R, none⟩ := by
  obtain ⟨hr, hwf⟩ := MemPool.modify_spec hi.clients.wf hlive fun _ => c.closeFinished
  obtain ⟨gd, hgd, -, hgconn⟩ := hi.guards.of_client hlive hguard
  obtain ⟨hrg, -⟩ := MemPool.modify_spec hi.guards.wf hgd fun gd => { gd with alive := false }
  have hbudget := hi.clients.budget i c hlive
  refine ⟨?_, hi.guards.detach hr hguard rfl, ?_, ?_⟩
  · exact hi.buffers.onClient hr fun f => rfl
  · apply hi.clients.onClient hr hwf ((hi.clients.ok i c hlive).closeFinished hclosing) rfl
    · exact Budget.step (e := .closeFinished) hbudget
        (rfl : c.step (fun _ => .incomplete) .closeFinished = some _)
    · exact fun n _ => Nat.le_refl _
    · exact fun hg => absurd rfl hg
    · intro j hj
      simp [Ne.symm hj]
  · apply hi.hist.detach hr hi.clients.wf hwf rfl rfl (hi.clients.conn_lt i c hlive)
    · intro j d hd heq
      exact hi.clients.inj j i d c hd hlive heq
    · -- a guard that is alive is held by the connection with its number
      intro j gd' hgd' heq halive
      obtain ⟨k, d, hd, hdg⟩ := hi.guards.exists_client hgd' halive
      have hconn := hi.guards.client k d j gd' hd hdg hgd'
      obtain rfl := hi.clients.inj k i d c hd hlive (hconn.symm.trans heq)
      rw [hd] at hlive
      cases hlive
      rw [hguard] at hdg
      exact (Option.some.inj hdg).symm
    · intro j gd' hgd'
      rw [ConnGuard.invalidate, hrg.live_eq] at hgd'
      split_ifs at hgd' with hj
      · cases hgd'
        exact ⟨gd, hj ▸ hgd, rfl, (if_pos hj).symm⟩
      · exact ⟨gd', hgd', rfl, (if_neg hj).symm⟩
    · intro gd' hgd'
      rw [hgd] at hgd'
      cases hgd'
      exact hgconn

theorem finishClose {out : List Output} (hi : Inv hist s ⟨B, G, R, some i⟩)
    (hlive : s.clients.live i = some c) (hclosing : c.closing = true) (hguard : c.guard ≠ none)
    (hs : s.finishClose parse i c = some (s', out)) :
    Inv (hist ++ out) s' ⟨B, G, R, none⟩ ∧
      s' = { s with clients := s'.clients, guards := s'.guards } := by
  obtain ⟨g, hg⟩ := Option.ne_none_iff_exists'.mp hguard
  have hdetached := hi.detach hlive hclosing hg
  obtain ⟨rfl, guards, next, hguards, hclient⟩ := State.finishClose_spec hs
  simp only [hg] at hguards
  obtain ⟨eff, rb, heff, -, hrb, rfl⟩ := State.onClient_spec hclient
  cases heff
  cases hrb
  have hrelease : State.releaseGuard
      { s with clients := s.clients.modify i fun _ => c.closeFinished
               guards := ConnGuard.invalidate s.guards g } g =
      some { s with clients := s.clients.modify i fun _ => c.closeFinished, guards } := by
    simp only [State.releaseGuard, hguards, Option.map_some]
  exact ⟨(hdetached.releaseGuard hrelease).1, rfl⟩

/-! ## Accepting and forgetting a connection -/

theorem newClient_ok (g n : ℕ) (accepted named : Bool) :
    (State.newClient g n accepted named).Ok := by
  refine ⟨⟨rfl, rfl⟩, ⟨fun h => ?_, fun _ => rfl⟩, ?_, nofun, nofun, fun _ => rfl⟩
  · exact (Bool.and_eq_true_iff.mp h).1
  · simp [State.newClient, MemSet.zeroed]

theorem peerConnected {accepted named : Bool} {out : List Output}
    (hi : Inv hist s ⟨B, G, R, none⟩) (hs : s.onPeerConnected accepted named = some (s', out)) :
    Inv (hist ++ out) s' ⟨B, G, R, none⟩ ∧ (∀ j c, s.clients.live j = some c →
      s'.clients.live j = some c) ∧ s'.handed = s.handed ∧ s'.frame = s.frame := by
  have hquiet : ∀ o ∈ [Output.rejected], o.Quiet := by
    rintro _ ho
    obtain rfl := List.mem_singleton.mp ho
    trivial
  unfold State.onPeerConnected at hs
  split at hs
  · cases hs
  · next clients hacq =>
    cases hs
    obtain ⟨rfl, -⟩ := MemPool.eq_of_acquire_none hacq
    exact ⟨hi.quiet hquiet, fun j c hc => hc, rfl, rfl⟩
  · next i clients hacq =>
    obtain ⟨hr, hwf, -⟩ := MemPool.acquire_spec hi.clients.wf hacq
    have hslot := hr.live_eq i
    rw [if_pos rfl] at hslot
    split at hs
    · cases hs
    · next guards hacq' =>
      -- no guard: the slot goes back
      obtain ⟨rfl, -⟩ := MemPool.eq_of_acquire_none hacq'
      obtain ⟨clients', hrel, hpair⟩ := Option.map_eq_some_iff.mp hs
      cases hpair
      obtain ⟨p, hp, hr', hwf'⟩ := MemPool.release_spec hwf hslot
      rw [hrel] at hp
      cases hp
      have hback := hr.trans hr'
      have hinv : Inv hist { s with clients := clients' } ⟨B, G, R, none⟩ := by
        refine ⟨hi.buffers.onClient hback fun f => rfl, ?_, hi.clients.dropClient hback hwf',
          hi.hist.rejectClient hback hi.clients.wf hwf'⟩
        apply hi.guards.onClient hback rfl
        intro c hc
        cases hc
      refine ⟨hinv.quiet hquiet, fun j c hc => ?_, rfl, rfl⟩
      rw [hback.live_eq]
      split_ifs with hj
      · rw [hj, hback.before] at hc
        cases hc
      · exact hc
    · next g guards hacq' =>
      cases hs
      obtain ⟨hr', hwf'⟩ := MemPool.modify_spec hwf hslot
        fun _ => State.newClient g s.nextConn accepted named
      have hnew := hr.trans hr'
      obtain ⟨hrg, hwfg, -⟩ := MemPool.acquire_spec hi.guards.wf hacq'
      have hguard := hrg.live_eq g
      rw [if_pos rfl] at hguard
      obtain ⟨hrm, -⟩ := MemPool.modify_spec hwfg hguard fun _ => ⟨true, 1, s.nextConn⟩
      refine ⟨⟨hi.buffers.onClient hnew fun f => rfl, ?_, ?_, ?_⟩, fun j c hc => ?_, rfl, rfl⟩
      · exact hi.guards.newClient (c := State.newClient g s.nextConn accepted named) hnew hacq' rfl
      · exact hi.clients.newClient hnew hwf' (newClient_ok ..) rfl (Nat.le_refl 0) rfl
      · apply hi.hist.newClient hnew hi.clients.wf hwf' rfl (Option.some_ne_none g)
        exact (hrg.trans hrm).live_eq
      · rw [hnew.live_eq]
        split_ifs with hj
        · rw [hj, hnew.before] at hc
          cases hc
        · exact hc

theorem idleTimerClosed {clients : MemPool ClientState} (hi : Inv hist s ⟨B, G, R, closer⟩)
    (hlive : s.clients.live i = some c) (htimer : c.idleTimer = .closing)
    (hs : s.clients.release i = some clients) :
    Inv (hist ++ [Output.timerClosed c.conn]) { s with clients } ⟨B, G, R, closer⟩ := by
  obtain ⟨p, hp, hr, hwf⟩ := MemPool.release_spec hi.clients.wf hlive
  rw [hs] at hp
  cases hp
  have hok := hi.clients.ok i c hlive
  have hguard : c.guard = none := by
    by_contra hg
    rw [hok.guard_some hg] at htimer
    cases htimer
  have hrecv := hok.recv_nil (hok.guard_none hguard).1
  have hother : ∀ j d, s.clients.live j = some d → d.conn = c.conn → j = i :=
    fun j d hd heq => hi.clients.inj j i d c hd hlive heq
  refine ⟨?_, ?_, hi.clients.dropClient hr hwf, hi.hist.dropClient hr hi.clients.wf hwf hother⟩
  · apply hi.buffers.onClient hr
    intro f
    simp [hrecv]
  · apply hi.guards.onClient hr
    · simp [hguard]
    · intro c _ c' hc'
      cases hc'

end Inv
end CapyJs.Server
