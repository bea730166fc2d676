import CapyJs.Server.Invariant

/-!
# What holds in every reachable state of the server

Between two steps the only things in hand are the buffer of the read in progress,
the right of the WebSocket being set up and the connection inside its `onClose`
handler. With these the invariant is kept by every step.
-/
namespace CapyJs.Server

open CapyJs.Http CapyJs.Pool ClientState

/-- What is in hand between two steps. -/
def State.hands (s : State) : Hands where
  buffers := (s.handed.bind Handed.buffer).toList
  guards := []
  rights := match s.frame with
    | some (.setup i _) => ((s.clients.live i).map ClientState.conn).toList
    | _ => []
  closer := match s.frame with
    | some (.onClose i) => some i
    | _ => none

/-- A buffer is only handed out for an open connection and outside JS code, and only a
WebSocket has an `onClose` handler to be inside of. -/
structure Settled (hist : List Output) (s : State) : Prop where
  inv : Inv hist s s.hands
  handed : ∀ h, s.handed = some h → s.frame = none ∧
    ∃ c, s.clients.live h.client = some c ∧ c.socket.phase = .active
  onClose : ∀ i c, s.frame = some (.onClose i) → s.clients.live i = some c → c.activeWs.isSome

/-- Nothing happened to where the server is, and connections kept their numbers and
WebSockets. -/
structure Steady (s s' : State) : Prop where
  handed : s'.handed = s.handed
  frame : s'.frame = s.frame
  conn : ∀ j, (s'.clients.live j).map ClientState.conn = (s.clients.live j).map ClientState.conn
  activeWs : ∀ j c c', s.clients.live j = some c → s'.clients.live j = some c' →
    c.activeWs.isSome → c'.activeWs.isSome

namespace Steady
variable {s s' s'' : State}

theorem of_clients (hhanded : s'.handed = s.handed) (hframe : s'.frame = s.frame)
    (hclients : s'.clients = s.clients) : Steady s s' where
  handed := hhanded
  frame := hframe
  conn j := by rw [hclients]
  activeWs j c c' hc hc' hws := by
    rw [hclients, hc] at hc'
    cases hc'
    exact hws

theorem trans (h : Steady s s') (h' : Steady s' s'') : Steady s s'' where
  handed := h'.handed.trans h.handed
  frame := h'.frame.trans h.frame
  conn j := (h'.conn j).trans (h.conn j)
  activeWs j c c'' hc hc'' hws := by
    have hmap := h.conn j
    rw [hc] at hmap
    obtain ⟨c', hc', -⟩ := Option.map_eq_some_iff.mp hmap
    exact h'.activeWs j c' c'' hc' hc'' (h.activeWs j c c' hc hc' hws)

theorem of_touched {i : ℕ} {c c' : ClientState} (ht : Touched s s' i c c') : Steady s s' where
  handed := by rw [ht.rest]
  frame := by rw [ht.rest]
  conn j := by
    rw [ht.replaces.live_eq]
    split_ifs with hj
    · rw [hj, ht.replaces.before, Option.map_some, Option.map_some, ht.conn]
    · rfl
  activeWs j d d' hd hd' hws := by
    rw [ht.replaces.live_eq] at hd'
    split_ifs at hd' with hj
    · rw [hj, ht.replaces.before] at hd
      cases hd
      cases hd'
      exact ht.activeWs hws
    · rw [hd] at hd'
      cases hd'
      exact hws

theorem hands (h : Steady s s') : s'.hands = s.hands := by
  simp only [State.hands, h.handed, h.frame, h.conn]

end Steady

theorem State.hands_of_idle {s : State} (h : s.Idle) : s.hands = ⟨[], [], [], none⟩ := by
  simp [State.hands, h.1, h.2]

theorem State.frame_of_closer {s : State} {i : ℕ} (h : s.hands.closer = some i) :
    s.frame = some (.onClose i) := by
  simp only [State.hands] at h
  split at h
  · next j hf =>
    cases h
    exact hf
  · cases h

theorem Inv.silent {hist : List Output} {s : State} {h : Hands} (hi : Inv hist s h) :
    Inv (hist ++ []) s h := by
  rw [List.append_nil]
  exact hi

theorem written_quiet (c : ClientState) : ∀ o ∈ c.written, o.Quiet := by
  unfold ClientState.written
  split <;> simp [Output.Quiet]

namespace Settled
variable {parse : Text → PhrResult} {hist hist' out : List Output} {s s' : State} {i : ℕ}
  {c : ClientState}

theorem of_idle (hidle : s.Idle) (hi : Inv hist s ⟨[], [], [], none⟩) : Settled hist s where
  inv := by
    rw [State.hands_of_idle hidle]
    exact hi
  handed h hh := by
    rw [hidle.1] at hh
    cases hh
  onClose j d hf := by
    rw [hidle.2] at hf
    cases hf

theorem inv_of_idle (hi : Settled hist s) (hidle : s.Idle) : Inv hist s ⟨[], [], [], none⟩ := by
  rw [← State.hands_of_idle hidle]
  exact hi.inv

theorem steady (hi : Settled hist s) (hs : Steady s s') (h0 : s.handed = none)
    (hinv : Inv hist' s' s.hands) : Settled hist' s' where
  inv := by
    rw [hs.hands]
    exact hinv
  handed h hh := by
    rw [hs.handed, h0] at hh
    cases hh
  onClose j d' hf hd' := by
    have hmap := hs.conn j
    rw [hd'] at hmap
    obtain ⟨d, hd, -⟩ := Option.map_eq_some_iff.mp hmap.symm
    exact hs.activeWs j d d' hd hd' (hi.onClose j d (hs.frame ▸ hf) hd)

/-! ## Events of the loop -/

theorem loopClient {enabled : ClientState → Bool} {e : ClientState.Event}
    {seen : ClientState → List Output} (hi : Settled hist s) (he : ∀ c, e.Enabled c)
    (hbuffers : e.buffers = []) (hcost : e.cost = 0) (hstart : e ≠ .closeStarted)
    (hfinish : e ≠ .closeFinished) (hseen : ∀ c, ∀ o ∈ seen c, o.Quiet)
    (hs : s.onLoopEvent i enabled (fun c => (s.onClient parse i c e).map fun r => (r.1, seen c)) =
      some (s', out)) : Settled (hist ++ out) s' := by
  obtain ⟨hidle, c, hlive, -, hrun⟩ := State.onLoopEvent_spec hs
  obtain ⟨⟨s₁, next⟩, hclient, hpair⟩ := Option.map_eq_some_iff.mp hrun
  cases hpair
  have hinv : Inv hist s ⟨e.buffers.map ReadBuffer.slot ++ [], [],
      List.replicate e.cost c.conn ++ [], none⟩ := by
    rw [hbuffers, hcost]
    exact hi.inv_of_idle hidle
  obtain ⟨hinv', c', ht⟩ := hinv.onClient hlive (he c) hstart hfinish hclient
  apply hi.steady (.of_touched ht) hidle.1
  rw [State.hands_of_idle hidle]
  exact hinv'.dropRights.quiet (hseen c)

theorem peerConnected {accepted named : Bool} (hi : Settled hist s) (hidle : s.Idle)
    (hs : s.onPeerConnected accepted named = some (s', out)) : Settled (hist ++ out) s' := by
  obtain ⟨hinv, -, hhanded, hframe⟩ := (hi.inv_of_idle hidle).peerConnected hs
  exact of_idle ⟨hhanded.trans hidle.1, hframe.trans hidle.2⟩ hinv

theorem allocBuffer (hi : Settled hist s) (hidle : s.Idle) (hlive : s.clients.live i = some c)
    (hreading : c.socket.reading = true) (hs : s.onAllocBuffer i = some (s', out)) :
    Settled (hist ++ out) s' := by
  have hinv := hi.inv_of_idle hidle
  have hok := hinv.clients.ok i c hlive
  have hactive := hok.socket.connected (hok.socket.reading hreading)
  obtain ⟨rfl, buffer, readBuffers, hacq, rfl⟩ := State.onAllocBuffer_spec hs
  have hbuffers : BufferInv s.clients readBuffers buffer.toList := by
    cases buffer with
    | none =>
      obtain ⟨rfl, -⟩ := MemPool.eq_of_acquire_none hacq
      exact hinv.buffers
    | some b => exact hinv.buffers.acquire hacq
  constructor
  · simp only [State.hands, hidle.2]
    exact Inv.silent ⟨hbuffers, hinv.guards, hinv.clients, hinv.hist⟩
  · rintro h ⟨⟩
    exact ⟨hidle.2, c, hlive, hactive⟩
  · intro j d hf
    have hf' : s.frame = some (.onClose j) := hf
    rw [hidle.2] at hf'
    cases hf'

theorem clientClosed (hi : Settled hist s) (hidle : s.Idle) (hlive : s.clients.live i = some c)
    (hphase : c.socket.phase = .closing) (hs : s.onClientClosed parse i c = some (s', out)) :
    Settled (hist ++ out) s' := by
  have hinv := hi.inv_of_idle hidle
  have hok := hinv.clients.ok i c hlive
  have hguard : c.guard ≠ none := by
    intro hg
    have hclosed := hok.closing_iff.mp (hok.guard_none hg).1
    rw [hphase] at hclosed
    cases hclosed
  obtain ⟨s₁, next, hstart, hcases⟩ := State.onClientClosed_cases hs
  obtain ⟨hinv₁, hlive₁, -⟩ := hinv.closeStarted hlive hphase hstart
  have hplace := State.samePlace_onClient hstart
  have hidle₁ : s₁.Idle := ⟨hplace.1.trans hidle.1, hplace.2.trans hidle.2⟩
  rcases hcases with ⟨-, hfinish⟩ | ⟨hws, rfl, rfl⟩
  · obtain ⟨hinv', hrest⟩ := hinv₁.finishClose hlive₁ rfl hguard hfinish
    apply of_idle _ hinv'
    rw [hrest]
    exact hidle₁
  · constructor
    · simp only [State.hands, hidle₁.1]
      exact Inv.silent ⟨hinv₁.buffers, hinv₁.guards, hinv₁.clients, hinv₁.hist⟩
    · intro h hh
      have hh' : s₁.handed = some h := hh
      rw [hidle₁.1] at hh'
      cases hh'
    · rintro j d ⟨⟩ hd
      have hd' : s₁.clients.live i = some d := hd
      rw [hlive₁] at hd'
      cases hd'
      exact hws

/-! ## Reads -/

/-- A JS function has been called that the connection waits for. -/
theorem of_frame {f : JsFrame} {R : List ℕ} (hidle : s.Idle) (hi : Inv hist s ⟨[], [], R, none⟩)
    (hrights : ({ s with frame := some f } : State).hands.rights = R)
    (hcloser : ∀ i, f ≠ .onClose i) : Settled hist { s with frame := some f } where
  inv := by
    have hhands : ({ s with frame := some f } : State).hands = ⟨[], [], R, none⟩ := by
      cases f with
      | onClose i => exact absurd rfl (hcloser i)
      | setup i ws =>
        rw [← hrights]
        simp [State.hands, hidle.1]
      | message i rc =>
        rw [← hrights]
        simp [State.hands, hidle.1]
    rw [hhands]
    exact ⟨hi.buffers, hi.guards, hi.clients, hi.hist⟩
  handed h hh := by
    have hh' : s.handed = some h := hh
    rw [hidle.1] at hh'
    cases hh'
  onClose j d hf := by
    have hf' : some f = some (.onClose j) := hf
    exact absurd (Option.some.inj hf') (hcloser j)

theorem invokeFunction {req : RequestObject} {ok : Bool} {c' : ClientState} (hidle : s.Idle)
    (hi : Inv hist s ⟨[], [], [c.conn], none⟩) (hlive : s.clients.live i = some c')
    (hconn : c'.conn = c.conn) (hguard : c'.guard = c.guard)
    (hs : s.invokeFunction parse i c req ok = some (s', out)) : Settled (hist ++ out) s' := by
  obtain ⟨g, hg, hcases⟩ := State.invokeFunction_cases hs
  obtain ⟨gd, hgd, -⟩ := hi.guards.of_client hlive (hguard.trans hg)
  have hacquired := hi.acquireGuard hgd
  rcases hcases with ⟨handler, rfl, rfl⟩ | ⟨d, s₁, next, rfl, hderef, hclient, hrel⟩
  · have hadded := hacquired.addResponse (r := ⟨i, g, req, c.conn⟩) hlive (hguard.trans hg) hconn
    exact of_idle hidle (hadded.quiet (by simp [Output.Quiet]))
  · rw [MemPool.deref_of_live hlive] at hderef
    cases hderef
    rw [← hconn] at hacquired
    obtain ⟨hinv₁, c₁, ht⟩ := hacquired.onClient (e := .notFound ok) (B := []) (R := []) hlive
      trivial (by simp) (by simp) hclient
    obtain ⟨hinv₂, hrest⟩ := hinv₁.dropRights.releaseGuard hrel
    apply of_idle _ (hinv₂.quiet (by simp [Output.Quiet]))
    rw [hrest, ht.rest]
    exact hidle

theorem readData {b : ℕ} {bytes : Text} {handler ok : Bool} (hidle : s.Idle)
    (hi : Inv hist s ⟨[b], [], [], none⟩) (hlive : s.clients.live i = some c)
    (hopen : c.closing = false)
    (hs : s.onReadData parse i c b bytes handler ok = some (s', out)) :
    Settled (hist ++ out) s' := by
  obtain ⟨s₁, next, out₁, hclient, rfl, hcases⟩ := State.onReadData_cases hs
  obtain ⟨hinv₁, c₁, ht⟩ := Inv.onClient (e := .data ⟨b, bytes⟩ handler) (B := []) (R := []) hi
    hlive hopen (by simp) (by simp) hclient
  have hidle₁ : s₁.Idle := by
    rw [ht.rest]
    exact hidle
  have hlive₁ := ht.replaces.live_eq i
  rw [if_pos rfl] at hlive₁
  rcases hcases with ⟨rfl, rfl, rfl⟩ | ⟨req, key, rfl, rfl, rfl⟩ | ⟨rc, text, rfl, rfl, rfl⟩ |
    ⟨req, rfl, hinvoke⟩
  · exact of_idle hidle₁ (hinv₁.quiet (by simp [Output.Quiet]))
  · refine of_frame hidle₁ (hinv₁.quiet (by simp [Output.Quiet])) ?_ nofun
    simp only [State.hands, hlive₁, Option.map_some, ht.conn]
    rfl
  · exact of_frame hidle₁ (hinv₁.quiet (by simp [Output.Quiet])) rfl nofun
  · have hreceived : Inv (hist ++ [Output.received c.conn bytes]) s₁ ⟨[], [], [c.conn], none⟩ :=
      hinv₁.quiet (by simp [Output.Quiet])
    have hsettled := invokeFunction hidle₁ hreceived hlive₁ ht.conn ht.guard hinvoke
    rw [List.append_assoc] at hsettled
    exact hsettled

theorem readFailed {next : Next} (hidle : s.Idle) (hi : Inv hist s ⟨[], [], [], none⟩)
    (hlive : s.clients.live i = some c)
    (hs : s.onClient parse i c .readFailed = some (s', next)) : Settled (hist ++ []) s' := by
  obtain ⟨hinv₁, c₁, ht⟩ := Inv.onClient (e := .readFailed) (B := []) (R := []) hi hlive trivial
    (by simp) (by simp) hs
  apply of_idle _ hinv₁.dropRights.silent
  rw [ht.rest]
  exact hidle

theorem read {h : Handed} {nread : ReadResult} {handler ok : Bool} (hi : Settled hist s)
    (hh : s.handed = some h)
    (hs : ({ s with handed := none } : State).onRead parse h nread handler ok = some (s', out)) :
    Settled (hist ++ out) s' := by
  obtain ⟨hframe, c, hlive, hactive⟩ := hi.handed h hh
  have hinv := hi.inv
  have hopen := (hinv.clients.ok h.client c hlive).closing_of_active hactive
  simp only [State.hands, hh, hframe, Option.bind_some] at hinv
  have hidle : ({ s with handed := none } : State).Idle := ⟨rfl, hframe⟩
  have hinv₀ : Inv hist { s with handed := none } ⟨h.buffer.toList, [], [], none⟩ :=
    ⟨hinv.buffers, hinv.guards, hinv.clients, hinv.hist⟩
  obtain ⟨d, hlived, hcases⟩ := State.onRead_cases hs
  have hd : s.clients.live h.client = some d := hlived
  rw [hlive] at hd
  cases hd
  rcases hcases with ⟨b, bytes, hb, -, -, hdata⟩ | ⟨-, rfl, readBuffers, next, hrel, hclient⟩
  · rw [hb] at hinv₀
    exact readData hidle hinv₀ hlive hopen hdata
  · have hbuffers : BufferInv s.clients readBuffers [] := by
      cases hb : h.buffer with
      | none =>
        rw [hb] at hrel hinv₀
        cases hrel
        exact hinv₀.buffers
      | some b =>
        rw [hb] at hrel hinv₀
        obtain ⟨p, hp, hreleased⟩ := hinv₀.buffers.release
        have hrel' : s.readBuffers.release b = some readBuffers := hrel
        rw [hp] at hrel'
        cases hrel'
        exact hreleased
    exact readFailed (s := { s with handed := none, readBuffers }) hidle
      ⟨hbuffers, hinv.guards, hinv.clients, hinv.hist⟩ hlive hclient

/-! ## Calls from JS code and their return -/

theorem endResponse {k : ℕ} {e : ClientState.Event} (hi : Settled hist s) (h0 : s.handed = none)
    (he : ∀ c, e.Enabled c) (hbuffers : e.buffers = []) (hcost : e.cost = 1)
    (hstart : e ≠ .closeStarted) (hfinish : e ≠ .closeFinished)
    (hs : s.endResponse parse k e = some (s', out)) : Settled (hist ++ out) s' := by
  obtain ⟨r, gd, s₁, hr, hgd, rfl, hrel, hcases⟩ := State.endResponse_cases hs
  have herased := hi.inv.eraseResponse hr
  have hmem : r ∈ s.responses := List.mem_of_getElem? hr
  have herase : Steady s { s with responses := s.responses.eraseIdx k } :=
    .of_clients rfl rfl rfl
  have hdone : ∀ R, Steady s s₁ →
      Inv hist s₁ ⟨s.hands.buffers, [r.guard], R ++ s.hands.rights, s.hands.closer⟩ →
      Settled (hist ++ []) s' := by
    intro R hsteady hinv₁
    obtain ⟨hinv₂, hrest⟩ := hinv₁.dropRights.releaseGuard hrel
    have hsteady₂ : Steady s₁ s' := by
      apply Steady.of_clients <;> rw [hrest]
    exact hi.steady (hsteady.trans hsteady₂) h0 hinv₂.silent
  obtain ⟨gd', hlive'⟩ := hi.inv.guards.of_response hmem
  rw [MemPool.deref_of_live hlive'] at hgd
  cases hgd
  rcases hcases with ⟨-, rfl⟩ | ⟨halive, c, hderef, ⟨-, rfl⟩ | ⟨-, next, hclient⟩⟩
  · exact hdone [r.conn] herase herased
  · exact hdone [r.conn] herase herased
  · obtain ⟨hgconn, hcli⟩ := hi.inv.guards.response r hmem gd hlive'
    obtain ⟨c', hlive, hguard⟩ := hcli halive
    rw [MemPool.deref_of_live hlive] at hderef
    cases hderef
    have hconn : r.conn = c.conn :=
      hgconn.symm.trans (hi.inv.guards.client r.cli c r.guard gd hlive hguard hlive')
    have hbefore : Inv hist { s with responses := s.responses.eraseIdx k }
        ⟨e.buffers.map ReadBuffer.slot ++ s.hands.buffers, [r.guard],
          List.replicate e.cost c.conn ++ s.hands.rights, s.hands.closer⟩ := by
      rw [hbuffers, hcost, ← hconn]
      exact herased
    obtain ⟨hinv₁, c₁, ht⟩ := hbefore.onClient hlive (he c) hstart hfinish hclient
    exact hdone _ (herase.trans (.of_touched ht)) hinv₁

theorem wsSend {ok : Bool} {next : Next} (hi : Settled hist s) (h0 : s.handed = none)
    (hlive : s.clients.live i = some c)
    (hs : s.onClient parse i c (.sendFrame ok) = some (s', next)) : Settled (hist ++ []) s' := by
  obtain ⟨hinv, c', ht⟩ := Inv.onClient (e := .sendFrame ok) (B := s.hands.buffers)
    (R := s.hands.rights) hi.inv hlive trivial (by simp) (by simp) hs
  exact hi.steady (.of_touched ht) h0 hinv.dropRights.silent

/-- The connection inside its `onClose` handler is closed and has its guard. -/
theorem of_onClose (hi : Settled hist s) (hf : s.frame = some (.onClose i))
    (hlive : s.clients.live i = some c) : c.guard ≠ none ∧ c.closing = true := by
  have hguard : c.guard ≠ none := by
    intro hg
    have hws := hi.onClose i c hf hlive
    rw [((hi.inv.clients.ok i c hlive).guard_none hg).2.1] at hws
    cases hws
  have hcloser : s.hands.closer = some i := by simp only [State.hands, hf]
  exact ⟨hguard, (hi.inv.clients.closer_iff i c hlive hguard).mpr hcloser⟩

theorem jsReturn {f : JsFrame} {ok : Bool} (hi : Settled hist s) (h0 : s.handed = none)
    (hf : s.frame = some f)
    (hs : ({ s with frame := none } : State).onJsReturn parse f ok = some (s', out)) :
    Settled (hist ++ out) s' := by
  have hidle : ({ s with frame := none } : State).Idle := ⟨h0, rfl⟩
  have hinv : Inv hist { s with frame := none } s.hands :=
    ⟨hi.inv.buffers, hi.inv.guards, hi.inv.clients, hi.inv.hist⟩
  -- the JS functions other than `onClose` end with one event
  have hevent : ∀ {i c next} (e : ClientState.Event), s.hands = ⟨[], [], List.replicate e.cost c.conn ++ [], none⟩ →
      e.buffers = [] → (∀ c, e.Enabled c) → e ≠ .closeStarted → e ≠ .closeFinished →
      s.clients.live i = some c →
      ({ s with frame := none } : State).onClient parse i c e = some (s', next) →
      Settled (hist ++ []) s' := by
    intro i c next e hhands hbuffers he hstart hfinish hlive hclient
    have hbefore : Inv hist { s with frame := none }
        ⟨e.buffers.map ReadBuffer.slot ++ [], [], List.replicate e.cost c.conn ++ [], none⟩ := by
      rw [hbuffers]
      exact hhands ▸ hinv
    obtain ⟨hinv₁, c₁, ht⟩ := hbefore.onClient hlive (he c) hstart hfinish hclient
    apply of_idle _ hinv₁.dropRights.silent
    rw [ht.rest]
    exact hidle
  rcases State.onJsReturn_cases hs with ⟨i, c, e, next, hlive, rfl, hclient, hcases⟩ |
    ⟨i, c, rfl, hlive, hfinish⟩
  · have hlive' : s.clients.live i = some c := hlive
    rcases hcases with ⟨ws, rfl, rfl⟩ | ⟨rc, rfl, rfl⟩
    · have hhands : s.hands = ⟨[], [], [c.conn], none⟩ := by simp [State.hands, h0, hf, hlive']
      exact hevent (.handshake ws ok) hhands rfl (fun _ => trivial) nofun nofun hlive hclient
    · have hhands : s.hands = ⟨[], [], [], none⟩ := by simp [State.hands, h0, hf]
      exact hevent (.messageDone rc) hhands rfl (fun _ => trivial) nofun nofun hlive hclient
  · obtain ⟨hguard, hclosing⟩ := hi.of_onClose hf hlive
    have hhands : s.hands = ⟨[], [], [], some i⟩ := by simp [State.hands, h0, hf]
    rw [hhands] at hinv
    obtain ⟨hinv', hrest⟩ := hinv.finishClose hlive hclosing hguard hfinish
    apply of_idle _ hinv'
    rw [hrest]
    exact hidle

theorem withHttp (hi : Settled hist s) (h0 : s.handed = none) (http : HttpContext) :
    Settled (hist ++ []) { s with http } := by
  have hinv : Inv (hist ++ []) { s with http } s.hands :=
    Inv.silent ⟨hi.inv.buffers, hi.inv.guards, hi.inv.clients, hi.inv.hist⟩
  exact hi.steady (.of_clients rfl rfl rfl) h0 hinv

/-! ## Every step -/

theorem step {a : Label} (hi : Settled hist s) (hs : s.step parse a = some (s', out)) :
    Settled (hist ++ out) s' := by
  cases a with
  | peerConnected accepted named =>
    simp only [State.step] at hs
    split_ifs at hs with hidle
    exact hi.peerConnected hidle hs
  | allocBuffer i =>
    obtain ⟨hidle, c, hlive, hreading, hrun⟩ := State.onLoopEvent_spec hs
    exact hi.allocBuffer hidle hlive hreading hrun
  | read nread handler ok =>
    obtain ⟨h, hh, hrun⟩ := State.read_spec hs
    exact hi.read hh hrun
  | writeDone i ok =>
    exact hi.loopClient (e := .writeDone ok) (fun _ => trivial) rfl rfl (by simp) (by simp)
      written_quiet hs
  | shutdownDone i =>
    exact hi.loopClient (e := .shutdownDone) (fun _ => trivial) rfl rfl (by simp) (by simp)
      (fun _ _ ho => absurd ho List.not_mem_nil) hs
  | idleTimeout i =>
    exact hi.loopClient (e := .idleTimeout) (fun _ => trivial) rfl rfl (by simp) (by simp)
      (fun _ _ ho => absurd ho List.not_mem_nil) hs
  | clientClosed i =>
    obtain ⟨hidle, c, hlive, henabled, hrun⟩ := State.onLoopEvent_spec hs
    simp only [Bool.and_eq_true, beq_iff_eq] at henabled
    exact hi.clientClosed hidle hlive henabled.1.1 hrun
  | idleTimerClosed i =>
    obtain ⟨hidle, c, hlive, htimer, hrun⟩ := State.onLoopEvent_spec hs
    obtain ⟨clients, hrel, hpair⟩ := Option.map_eq_some_iff.mp hrun
    cases hpair
    exact of_idle hidle ((hi.inv_of_idle hidle).idleTimerClosed hlive (beq_iff_eq.mp htimer) hrel)
  | send k isStatic body ok =>
    simp only [State.step] at hs
    split_ifs at hs with h0
    exact hi.endResponse (e := .send isStatic body ok) h0 (fun _ => trivial) rfl rfl (by simp) (by simp) hs
  | abort k ok =>
    simp only [State.step] at hs
    split_ifs at hs with h0
    exact hi.endResponse (e := .abort ok) h0 (fun _ => trivial) rfl rfl (by simp) (by simp) hs
  | wsSend i ok =>
    obtain ⟨h0, rfl, c, next, hlive, -, hclient⟩ := State.wsSend_spec hs
    exact hi.wsSend h0 hlive hclient
  | jsReturn ok =>
    obtain ⟨h0, f, hf, hrun⟩ := State.jsReturn_spec hs
    exact hi.jsReturn h0 hf hrun
  | registerApi method uri handler =>
    simp only [State.step] at hs
    split_ifs at hs with h0
    cases hs
    exact hi.withHttp h0 _
  | registerWs uri handler =>
    simp only [State.step] at hs
    split_ifs at hs with h0
    cases hs
    exact hi.withHttp h0 _

end Settled
end CapyJs.Server
