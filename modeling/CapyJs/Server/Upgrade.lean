import CapyJs.Server.WsObjects

/-!
# Upgrade requests and the protocol of a connection

The handshake is completed for every upgrade request, also when no WebSocket handler is
registered for its URI; a handler, if there is one, assigns the JS object of the WebSocket
first. Here the server also shows which upgrade requests it takes and the handlers it finds
for them.
-/
namespace CapyJs.Server

open CapyJs.Http CapyJs.Pool CapyJs.Transition ClientState

inductive UpgradeOutput
  | server (o : Output)
  | upgrade (conn : ℕ) (uri : Text) (found : Option ℕ)
  deriving DecidableEq, Repr

/-- The upgrade request that a read completes. -/
def State.upgradeRequest (parse : Text → PhrResult) (s : State) : Label → List UpgradeOutput
  | .read (.data bytes) handler _ =>
    match s.handed with
    | some ⟨i, some b⟩ =>
      match s.clients.live i with
      | some c =>
        match c.onData parse ⟨b, bytes⟩ handler with
        | some ⟨_, _, .upgrade req _⟩ => [.upgrade c.conn req.uri (s.http.findWsRoute req.uri)]
        | _ => []
      | none => []
    | _ => []
  | _ => []

def upgradeMachine (parse : Text → PhrResult) : Machine State Label UpgradeOutput where
  init := State.Initial
  step s a := (s.step parse a).map fun r => (r.1, r.2.map .server ++ s.upgradeRequest parse a)

/-- What the server shows to every observer. -/
def shown (hist : List UpgradeOutput) : List Output :=
  hist.filterMap fun
    | .server o => some o
    | _ => none

theorem shown_append (hist out : List UpgradeOutput) :
    shown (hist ++ out) = shown hist ++ shown out := List.filterMap_append

section
variable {parse : Text → PhrResult} {s s' : State} {a : Label}

theorem shown_step (out : List Output) :
    shown (out.map .server ++ s.upgradeRequest parse a) = out := by
  have hnone : shown (s.upgradeRequest parse a) = [] := by
    unfold State.upgradeRequest
    repeat' split
    all_goals rfl
  rw [shown_append, hnone, List.append_nil, shown, List.filterMap_map]
  exact List.filterMap_some

theorem upgradeMachine_step {out : List UpgradeOutput}
    (hs : (upgradeMachine parse).step s a = some (s', out)) :
    ∃ out', s.step parse a = some (s', out') ∧
      out = out'.map .server ++ s.upgradeRequest parse a := by
  obtain ⟨⟨s₁, out'⟩, hstep, hpair⟩ := Option.map_eq_some_iff.mp hs
  cases hpair
  exact ⟨out', hstep, rfl⟩

/-- The runs are those of the server. -/
theorem reaches_upgradeMachine_iff {hist : List Output} : (machine parse).Reaches s hist ↔
    ∃ shows, (upgradeMachine parse).Reaches s shows ∧ shown shows = hist := by
  constructor
  · intro run
    induction run with
    | start h => exact ⟨[], .start h, rfl⟩
    | @next s s' a hist out _ hstep ih =>
      obtain ⟨shows, hrun, rfl⟩ := ih
      have hstep' : (upgradeMachine parse).step s a =
          some (s', out.map .server ++ s.upgradeRequest parse a) :=
        Option.map_eq_some_iff.mpr ⟨_, hstep, rfl⟩
      refine ⟨_, hrun.next hstep', ?_⟩
      rw [shown_append, shown_step]
  · rintro ⟨shows, run, rfl⟩
    induction run with
    | start h => exact .start h
    | @next s s' a hist out _ hstep ih =>
      obtain ⟨out', hstep', rfl⟩ := upgradeMachine_step hstep
      rw [shown_append, shown_step]
      exact ih.next hstep'

/-! ## Where WebSockets come from -/

/-- Only the handshake and the end of the close callback act on the protocol or the
WebSocket. -/
theorem ClientState.step_protocol {c : ClientState} {e : Event} {eff : Effect}
    (hs : c.step parse e = some eff) :
    (eff.client.connProtocol = c.connProtocol ∧ eff.client.activeWs = c.activeWs) ∨
      (∃ ws ok, e = .handshake ws ok ∧ eff.client.connProtocol = .webSocket ∧
        eff.client.activeWs = some ws) ∨
      eff.client = c.closeFinished := by
  cases e with
  | data rb handler =>
    left
    rcases onData_cases hs with ⟨-, next, hproc, -⟩ | ⟨-, rc, -, ⟨text, rfl⟩ | rfl⟩
    · rcases processHttp1Request_cases hproc with ⟨-, hc, -⟩ | ⟨-, hc, -⟩ |
        ⟨n, method, path, headers, -, -, ⟨-, hc, -⟩ | ⟨-, -, hc, -⟩⟩
      all_goals
        rw [hc]
        exact ⟨rfl, rfl⟩
    · exact ⟨rfl, rfl⟩
    · unfold finishMessage
      split_ifs <;> exact ⟨rfl, rfl⟩
  | messageDone rc =>
    cases hs
    left
    unfold finishMessage
    split_ifs <;> exact ⟨rfl, rfl⟩
  | handshake ws ok =>
    cases hs
    unfold completeProtocolUpgradeHandshake
    split_ifs
    · exact .inl ⟨rfl, rfl⟩
    · exact .inr (.inl ⟨ws, ok, rfl, rfl, rfl⟩)
  | send isStatic body ok =>
    cases hs
    left
    unfold startSend
    split_ifs <;> exact ⟨rfl, rfl⟩
  | abort ok =>
    obtain ⟨c', hc', rfl⟩ := Option.map_eq_some_iff.mp hs
    obtain ⟨socket, rfl, -⟩ := startAbort_cases hc'
    exact .inl ⟨rfl, rfl⟩
  | writeDone ok =>
    obtain ⟨c', hc', rfl⟩ := Option.map_eq_some_iff.mp hs
    obtain ⟨cb, rest, -, ⟨-, -, hproto, hws, -⟩ | ⟨-, rfl⟩ | ⟨-, rfl⟩⟩ := writeDone_cases hc'
    · exact .inl ⟨hproto, hws⟩
    · exact .inl ⟨rfl, rfl⟩
    · exact .inl ⟨rfl, rfl⟩
  | shutdownDone =>
    obtain ⟨-, socket, -, rfl⟩ := shutdownDone_spec hs
    exact .inl ⟨rfl, rfl⟩
  | closeFinished =>
    cases hs
    exact .inr (.inr rfl)
  | readFailed | notFound | sendFrame | idleTimeout | closeStarted =>
    cases hs
    exact .inl ⟨rfl, rfl⟩

/-- A step with a buffer handed out is the read for it. -/
theorem State.read_of_handed {h : Handed} {out : List Output} (hh : s.handed = some h)
    (hs : s.step parse a = some (s', out)) : ∃ nread handler ok, a = .read nread handler ok := by
  have hbusy : ¬s.Idle := by
    intro hidle
    rw [hidle.1] at hh
    cases hh
  cases a with
  | read nread handler ok => exact ⟨nread, handler, ok, rfl⟩
  | peerConnected accepted named =>
    simp only [State.step, if_neg hbusy] at hs
    cases hs
  | allocBuffer i | writeDone i ok | shutdownDone i | idleTimeout i | clientClosed i
  | idleTimerClosed i => exact absurd (onLoopEvent_spec hs).1 hbusy
  | send k isStatic body ok | abort k ok | registerApi method uri handler
  | registerWs uri handler =>
    simp only [State.step, hh, reduceCtorEq, if_false] at hs
  | wsSend i ok =>
    rw [(wsSend_spec hs).1] at hh
    cases hh
  | jsReturn ok =>
    rw [(jsReturn_spec hs).1] at hh
    cases hh

/-- A WebSocket is set up for an upgrade request of its connection, with what the handler for
the URI assigns. -/
theorem State.upgradeRequest_of_setup {out : List Output} {i : ℕ} {ws : WebSocket} {c' : ClientState}
    (hwf : s.clients.WF) (hs : s.step parse a = some (s', out))
    (hf : s'.frame = some (.setup i ws)) (hnew : s.frame ≠ some (.setup i ws))
    (hlive' : s'.clients.live i = some c') :
    ∃ uri, .upgrade c'.conn uri ws.sockJs ∈ s.upgradeRequest parse a := by
  obtain ⟨h, -, -, hh, -⟩ := (setup_origin hwf hs hf).resolve_left hnew
  obtain ⟨nread, handler, ok, rfl⟩ := read_of_handed hh hs
  obtain ⟨h', hh', hrun⟩ := read_spec hs
  cases hh.symm.trans hh'
  obtain ⟨c, hlive, ⟨b, bytes, hb, rfl, -, hdata⟩ | ⟨-, -, p, next, -, hclient⟩⟩ :=
    onRead_cases hrun
  · obtain ⟨s₁, next, out₁, hclient, -, hcases⟩ := onReadData_cases hdata
    have hframe := (samePlace_onClient hclient).2
    rcases hcases with ⟨-, -, rfl⟩ | ⟨req, key, hnext, -, rfl⟩ | ⟨rc, text, -, -, rfl⟩ |
      ⟨req, -, hinvoke⟩
    · exact absurd (hframe.symm.trans hf) hnew
    · cases hf
      have hwf₁ : ({ s with handed := none } : State).clients.WF := hwf
      obtain ⟨eff, heff, hnext', -, hlive₁⟩ := live_onClient hwf₁ hlive hclient
      have hhttp : s₁.http = s.http := by
        obtain ⟨eff, p, -, -, -, rfl⟩ := onClient_spec hclient
        rfl
      obtain rfl : eff.client = c' := Option.some.inj (hlive₁.symm.trans hlive')
      rw [(step_keeps heff).conn]
      obtain ⟨client, released, next⟩ := eff
      obtain ⟨i, buffer⟩ := h
      obtain rfl : next = .upgrade req key := hnext'.trans hnext
      obtain rfl : buffer = some b := hb
      have hdata' : c.onData parse ⟨b, bytes⟩ handler =
          some ⟨client, released, .upgrade req key⟩ := heff
      refine ⟨req.uri, ?_⟩
      rw [upgradeRequest, hh, hhttp]
      simp only [hlive, hdata', List.mem_singleton]
    · cases hf
    · exact absurd (((samePlace_invokeFunction hinvoke).2.trans hframe).symm.trans hf) hnew
  · exact absurd ((samePlace_onClient hclient).2.symm.trans hf) hnew

/-! ## The protocol along a run -/

/-- The connection has sent an upgrade request for which this WebSocket was set up. -/
def SetUpFor (hist : List UpgradeOutput) (conn : ℕ) (ws : WebSocket) : Prop :=
  ∃ uri, .upgrade conn uri ws.sockJs ∈ hist

/-- A connection has a WebSocket from its handshake to the end of its close callback. -/
structure ClientState.ModeOk (hist : List UpgradeOutput) (c : ClientState) : Prop where
  http : c.connProtocol ≠ .webSocket → c.activeWs = none
  webSocket : c.connProtocol = .webSocket → c.guard ≠ none →
    ∃ ws, c.activeWs = some ws ∧ SetUpFor hist c.conn ws

structure UpgradeInv (hist : List UpgradeOutput) (s : State) : Prop where
  settled : Settled (shown hist) s
  reads : s.HandedReads
  modes : ∀ i c, s.clients.live i = some c → c.ModeOk hist
  setup : ∀ i ws c, s.frame = some (.setup i ws) → s.clients.live i = some c →
    SetUpFor hist c.conn ws

theorem SetUpFor.append {hist : List UpgradeOutput} {conn : ℕ} {ws : WebSocket}
    (h : SetUpFor hist conn ws) (out : List UpgradeOutput) : SetUpFor (hist ++ out) conn ws := by
  obtain ⟨uri, hmem⟩ := h
  exact ⟨uri, List.mem_append_left out hmem⟩

namespace UpgradeInv
variable {hist : List UpgradeOutput} {out : List Output}

theorem modeOk_event (hi : UpgradeInv hist s) {i : ℕ} {c : ClientState} {e : Event} {eff : Effect}
    (hcause : s.Causes a i c e) (hstep : c.step parse e = some eff) (hmode : c.ModeOk hist) :
    eff.client.ModeOk hist := by
  have hconn := (step_keeps hstep).conn
  rcases step_protocol hstep with ⟨hproto, hws⟩ | ⟨ws, ok, rfl, hproto, hws⟩ | hclosed
  · refine ⟨fun hhttp => ?_, fun hwebSocket hguard => ?_⟩
    · rw [hws]
      exact hmode.http (hproto ▸ hhttp)
    · obtain ⟨-, hguard⟩ := guard_of_step hstep hguard
      rw [hws, hconn]
      exact hmode.webSocket (hproto ▸ hwebSocket) hguard
  · refine ⟨fun hhttp => absurd hproto hhttp, fun _ _ => ⟨ws, hws, ?_⟩⟩
    rw [hconn]
    cases hcause with
    | handshake hf hlive => exact hi.setup i ws c hf hlive
  · rw [hclosed]
    exact ⟨fun _ => rfl, fun _ hguard => absurd rfl hguard⟩

theorem modeOk_step (hi : UpgradeInv hist s) (hs : s.step parse a = some (s', out)) {i : ℕ}
    {c' : ClientState} (hlive' : s'.clients.live i = some c') : c'.ModeOk hist := by
  rcases hi.settled.origin hi.reads hs hlive' with ⟨-, -, g, accepted, named, rfl⟩ |
    ⟨c, hlive, -, hrun⟩
  · exact ⟨fun _ => rfl, nofun⟩
  · refine hrun.invariant (K := fun c _ => c.ModeOk hist) ?_ (fun c u _ hK => hK)
      (hi.settled.inv.clients.ok i c hlive) (hi.modes i c hlive)
    intro d e eff u hcause _ _ hstep hmode
    exact hi.modeOk_event hcause hstep hmode

theorem setup_step (hi : UpgradeInv hist s) (hs : s.step parse a = some (s', out)) {i : ℕ}
    {ws : WebSocket} {c' : ClientState} (hf : s'.frame = some (.setup i ws))
    (hlive' : s'.clients.live i = some c') :
    SetUpFor (hist ++ (out.map .server ++ s.upgradeRequest parse a)) c'.conn ws := by
  by_cases hold : s.frame = some (.setup i ws)
  · rcases hi.settled.origin hi.reads hs hlive' with ⟨hidle, -⟩ | ⟨c, hlive, hconn, -⟩
    · rw [hidle.2] at hold
      cases hold
    · rw [hconn]
      exact (hi.setup i ws c hold hlive).append _
  · obtain ⟨uri, hmem⟩ :=
      State.upgradeRequest_of_setup hi.settled.inv.clients.wf hs hf hold hlive'
    exact ⟨uri, List.mem_append_right _ (List.mem_append_right _ hmem)⟩

theorem step (hi : UpgradeInv hist s) (hs : s.step parse a = some (s', out)) :
    UpgradeInv (hist ++ (out.map .server ++ s.upgradeRequest parse a)) s' where
  settled := by
    rw [shown_append, shown_step]
    exact hi.settled.step hs
  reads := .step hi.settled.inv.clients.wf hs
  modes i c' hlive' := by
    have hmode := hi.modeOk_step hs hlive'
    refine ⟨hmode.http, fun hwebSocket hguard => ?_⟩
    obtain ⟨ws, hws, hsetup⟩ := hmode.webSocket hwebSocket hguard
    exact ⟨ws, hws, hsetup.append _⟩
  setup i ws c' hf hlive' := hi.setup_step hs hf hlive'

end UpgradeInv

theorem reaches_upgradeInv {hist : List UpgradeOutput}
    (run : (upgradeMachine parse).Reaches s hist) : UpgradeInv hist s := by
  refine run.invariant ?_ ?_
  · intro s₀ h
    have hstart : (machine parse).Reaches s₀ [] := .start h
    obtain ⟨hsettled, hreads⟩ := reaches_handedReads hstart
    refine ⟨hsettled, hreads, fun i c hlive => ?_, fun i ws c hf => ?_⟩
    · obtain ⟨m, clientJunk, bufferJunk, guardJunk, hclients, -, -⟩ := h.pools
      rw [MemPool.live_new hclients] at hlive
      cases hlive
    · rw [h.frame] at hf
      cases hf
  · intro hist s a s' out hi hstep
    obtain ⟨out', hs, rfl⟩ := upgradeMachine_step hstep
    exact hi.step hs

/-- A connection in WebSocket mode has a WebSocket until the end of its close callback. It was
set up for an upgrade request of that connection, and when a handler was registered for the URI,
that handler has assigned its JS object. Every other connection has none. -/
theorem activeWs_of_webSocket {hist : List UpgradeOutput}
    (run : (upgradeMachine parse).Reaches s hist) {i : ℕ} {c : ClientState}
    (hlive : s.clients.live i = some c) :
    (c.connProtocol = .webSocket → c.guard ≠ none → ∃ ws uri found, c.activeWs = some ws ∧
      .upgrade c.conn uri found ∈ hist ∧
      ∀ handler, found = some handler → ws.sockJs = some handler) ∧
    (c.connProtocol ≠ .webSocket ∨ c.guard = none → c.activeWs = none) := by
  have hi := reaches_upgradeInv run
  have hmode := hi.modes i c hlive
  constructor
  · intro hwebSocket hguard
    obtain ⟨ws, hws, uri, hmem⟩ := hmode.webSocket hwebSocket hguard
    exact ⟨ws, uri, ws.sockJs, hws, hmem, fun handler hfound => hfound⟩
  · rintro (hhttp | hguard)
    · exact hmode.http hhttp
    · exact ((hi.settled.inv.clients.ok i c hlive).guard_none hguard).2.1

end

/-! ## One connection -/

/-- The server after one upgrade request for `/`, for which it has found `found`. -/
def upgradedRoot (http : HttpContext) (found : Option ℕ) : State :=
  { oneConnection with
    clients := ⟨[⟨{ State.newClient 0 0 true true with
      writeInFlight := true
      socket := ⟨.active, true, true, [.freeRequest], false⟩
      activeWs := some ⟨0, found⟩
      connProtocol := .webSocket }, sizeMax, true⟩], sizeMax, 1, 1⟩
    guards := ⟨[⟨⟨true, 1, 0⟩, sizeMax, true⟩], sizeMax, 1, 1⟩
    http
    nextConn := 1 }

theorem upgradedRoot_reachable : (upgradeMachine parseUpgradeRoot).Reaches
    (upgradedRoot (oneConnection.http.registerWsCb (ascii "/") 0) (some 0))
    [.server (.accepted 0), .server (.received 0 upgradeRoot),
      .upgrade 0 (ascii "/") (some 0)] :=
  Machine.reaches_exec [.registerWs (ascii "/") 0, .peerConnected true true, .allocBuffer 0,
    .read (.data upgradeRoot) true true, .jsReturn true] oneConnection_initial rfl

theorem activeWs_of_webSocket_root : ∃ s c hist,
    (upgradeMachine parseUpgradeRoot).Reaches s hist ∧ s.clients.live 0 = some c ∧
      .upgrade 0 (ascii "/") (some 0) ∈ hist ∧
      ∃ ws uri found, c.activeWs = some ws ∧ .upgrade c.conn uri found ∈ hist ∧
        ∀ handler, found = some handler → ws.sockJs = some handler := by
  refine ⟨_, _, _, upgradedRoot_reachable, rfl, by simp, ?_⟩
  exact (activeWs_of_webSocket (i := 0) upgradedRoot_reachable rfl).1 rfl nofun

/-- No handler is registered for `/`, and the connection is in WebSocket mode all the same; with
a handler, the connection stays in that mode when its close callback has freed the
WebSocket. -/
theorem webSocket_without_object :
    (∃ s c, (upgradeMachine parseUpgradeRoot).Reaches s
        [.server (.accepted 0), .server (.received 0 upgradeRoot), .upgrade 0 (ascii "/") none] ∧
      s.clients.live 0 = some c ∧ c.connProtocol = .webSocket ∧ c.activeWs = some ⟨0, none⟩) ∧
    ∃ s c, (upgradeMachine parseUpgradeRoot).Reaches s
        [.server (.accepted 0), .server (.received 0 upgradeRoot),
          .upgrade 0 (ascii "/") (some 0), .server (.closed 0)] ∧
      s.clients.live 0 = some c ∧ c.connProtocol = .webSocket ∧ c.activeWs = none := by
  constructor
  · refine ⟨upgradedRoot oneConnection.http none, _, ?_, rfl, rfl, rfl⟩
    exact Machine.reaches_exec [.peerConnected true true, .allocBuffer 0,
      .read (.data upgradeRoot) true true, .jsReturn true] oneConnection_initial rfl
  · let labels : List Label := [.allocBuffer 0, .read .eof true true, .writeDone 0 true,
      .clientClosed 0, .jsReturn true]
    have hrun : (upgradeMachine parseUpgradeRoot).exec
        (upgradedRoot (oneConnection.http.registerWsCb (ascii "/") 0) (some 0)) labels =
      some (_, [.server (.closed 0)]) := rfl
    exact ⟨_, _, upgradedRoot_reachable.exec hrun, rfl, rfl, rfl⟩

end CapyJs.Server
