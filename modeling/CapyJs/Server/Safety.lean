import CapyJs.Server.Reachable

/-!
# Late responses and the pools

A response that finds its guard alive finds its own connection, open; and the
slots in use of the three pools are accounted for in every reachable state.
-/
namespace CapyJs.Server

open CapyJs.Http CapyJs.Pool ClientState

variable {parse : Text → PhrResult} {hist : List Output} {s : State}

theorem State.Initial.settled (h : s.Initial) : Settled [] s := by
  obtain ⟨m, clientJunk, bufferJunk, guardJunk, hclients, hbuffers, hguards⟩ := h.pools
  have hnoClient : ∀ i c, s.clients.live i ≠ some c := by
    intro i c
    rw [MemPool.live_new hclients]
    exact nofun
  have hnoGuard : ∀ g gd, s.guards.live g ≠ some gd := by
    intro g gd
    rw [MemPool.live_new hguards]
    exact nofun
  have hnoResponse : ∀ r, r ∉ s.responses := by
    intro r
    rw [h.responses]
    exact List.not_mem_nil
  refine .of_idle ⟨h.handed, h.frame⟩ ⟨⟨MemPool.new_wf hbuffers, fun f => ?_⟩,
    ⟨MemPool.new_wf hguards, fun g => ?_, fun i c _ _ hc => absurd hc (hnoClient i c),
      fun r hr => absurd hr (hnoResponse r)⟩,
    ⟨MemPool.new_wf hclients, fun i c hc => absurd hc (hnoClient i c),
      fun i c hc => absurd hc (hnoClient i c), fun r hr => absurd hr (hnoResponse r), nofun,
      fun i _ c _ hc => absurd hc (hnoClient i c), fun i c hc => absurd hc (hnoClient i c),
      fun i c hc => absurd hc (hnoClient i c)⟩,
    ⟨⟨?_, fun i c hc => absurd hc (hnoClient i c), nofun, nofun⟩,
      fun i c hc => absurd hc (hnoClient i c), fun g gd hgd => absurd hgd (hnoGuard g gd),
      fun g gd hgd => absurd hgd (hnoGuard g gd), nofun⟩⟩
  · rw [MemPool.total_new hbuffers, MemPool.total_new hclients]
    rfl
  · rw [MemPool.live_new hguards, h.responses]
    exact ⟨MemPool.total_new hclients _, rfl, rfl⟩
  · rw [(MemPool.new_wf hclients).count_eq, MemPool.total_new hclients]
    rfl

theorem reaches_settled (run : (machine parse).Reaches s hist) : Settled hist s := by
  apply run.invariant (I := Settled)
  · intro s₀ h
    exact State.Initial.settled h
  · intro hist s a s' out hi hs
    exact hi.step hs

/-! ## Late responses -/

/-- A connection that has been answered for cannot have a WebSocket. -/
theorem Settled.activeWs_none_of_response (hi : Settled hist s) {i : ℕ} {c : ClientState}
    {r : ResponseObject} (hlive : s.clients.live i = some c) (hr : r ∈ s.responses)
    (hconn : r.conn = c.conn) : ¬c.activeWs.isSome := by
  intro hws
  have hbudget := hi.inv.clients.budget i c hlive
  have hpos : 0 < answers s.responses c.conn :=
    List.countP_pos_iff.mpr ⟨r, hr, by simp [hconn]⟩
  simp only [Budget, hws, if_true] at hbudget
  split_ifs at hbudget <;> omega

/-- Whatever has been closed, released and acquired again since the request arrived: a
response whose guard reads as alive still has its own guard, and behind it the
connection of the request, not closing. -/
theorem response_finds_own_connection (run : (machine parse).Reaches s hist)
    {r : ResponseObject} (hr : r ∈ s.responses) {gd : ConnGuard}
    (hgd : s.guards.deref r.guard = some gd) (halive : gd.alive = true) :
    (s.guards.live r.guard = some gd ∧ gd.conn = r.conn) ∧
      ∃ c, s.clients.live r.cli = some c ∧ c.conn = r.conn ∧ c.guard = some r.guard ∧
        c.closing = false := by
  have hi := reaches_settled run
  obtain ⟨gd', hlive⟩ := hi.inv.guards.of_response hr
  rw [MemPool.deref_of_live hlive] at hgd
  cases hgd
  obtain ⟨hgconn, hcli⟩ := hi.inv.guards.response r hr gd hlive
  obtain ⟨c, hc, hguard⟩ := hcli halive
  have hconn : c.conn = r.conn :=
    (hi.inv.guards.client r.cli c r.guard gd hc hguard hlive).symm.trans hgconn
  refine ⟨⟨hlive, hgconn⟩, c, hc, hconn, hguard, ?_⟩
  by_contra hclosing
  rw [Bool.not_eq_false] at hclosing
  -- only the connection inside its `onClose` handler is closing with a guard
  have hguard' : c.guard ≠ none := by
    rw [hguard]
    exact Option.some_ne_none _
  have hcloser := (hi.inv.clients.closer_iff r.cli c hc hguard').mp hclosing
  have hframe := State.frame_of_closer hcloser
  exact hi.activeWs_none_of_response hc hr hconn.symm (hi.onClose r.cli c hframe hc)

/-- A server for one connection that has a handler for `GET /`. -/
def oneConnection : State where
  clients := ⟨[⟨MemSet.zeroed, sizeMax, false⟩], 0, 1, 0⟩
  readBuffers := ⟨(List.range 8).map fun i => ⟨(), if i < 7 then i + 1 else sizeMax, false⟩, 0, 8, 0⟩
  guards := ⟨[⟨MemSet.zeroed, sizeMax, false⟩], 0, 1, 0⟩
  responses := []
  handed := none
  frame := none
  http := HttpContext.empty.registerApiFunction [71, 69, 84] [47] 0
  nextConn := 0

theorem oneConnection_initial : oneConnection.Initial where
  pools := ⟨1, fun _ => MemSet.zeroed, fun _ => (), fun _ => MemSet.zeroed, rfl, rfl, rfl⟩
  responses := rfl
  handed := rfl
  frame := rfl
  nextConn := rfl

/-- The request `GET / HTTP/1.1` without headers. -/
def getRoot : Text := [71, 69, 84, 32, 47, 32, 72, 84, 84, 80, 47, 49, 46, 49, 13, 10, 13, 10]

/-- What the parser makes of that request and whatever follows it. -/
def parseGetRoot (bytes : Text) : PhrResult :=
  if getRoot.isPrefixOf bytes then .request getRoot.length [71, 69, 84] [47] [] else .incomplete

/-- One connection has sent one request and waits for the response. -/
def oneRequest : State :=
  { oneConnection with
    clients := ⟨[⟨{ State.newClient 0 0 true true with writeInFlight := true }, sizeMax, true⟩],
      sizeMax, 1, 1⟩
    guards := ⟨[⟨⟨true, 2, 0⟩, sizeMax, true⟩], sizeMax, 1, 1⟩
    responses := [⟨0, 0, ⟨[71, 69, 84], [47]⟩, 0⟩]
    nextConn := 1 }

theorem oneRequest_reachable : (machine parseGetRoot).Reaches oneRequest
    [.accepted 0, .received 0 getRoot, .invoked 0 ⟨[71, 69, 84], [47]⟩ (some 0)] :=
  Transition.Machine.reaches_exec
    [.peerConnected true true, .allocBuffer 0, .read (.data getRoot) true true]
    oneConnection_initial rfl

/-- The same server with room for two connections. -/
def twoConnections : State :=
  { oneConnection with
    clients := ⟨[⟨MemSet.zeroed, 1, false⟩, ⟨MemSet.zeroed, sizeMax, false⟩], 0, 2, 0⟩
    readBuffers :=
      ⟨(List.range 16).map fun i => ⟨(), if i < 15 then i + 1 else sizeMax, false⟩, 0, 16, 0⟩
    guards := ⟨[⟨MemSet.zeroed, 1, false⟩, ⟨MemSet.zeroed, sizeMax, false⟩], 0, 2, 0⟩ }

theorem twoConnections_initial : twoConnections.Initial where
  pools := ⟨2, fun _ => MemSet.zeroed, fun _ => (), fun _ => MemSet.zeroed, rfl, rfl, rfl⟩
  responses := rfl
  handed := rfl
  frame := rfl
  nextConn := rfl

/-- The first connection has left before its response was sent. A second connection has come
into its slot and sent a request of its own. -/
def slotReused : State :=
  { twoConnections with
    clients := ⟨[⟨{ State.newClient 1 1 true true with writeInFlight := true }, sizeMax, true⟩,
      ⟨MemSet.zeroed, sizeMax, false⟩], 1, 2, 1⟩
    guards := ⟨[⟨⟨false, 1, 0⟩, sizeMax, true⟩, ⟨⟨true, 2, 1⟩, sizeMax, true⟩], sizeMax, 2, 2⟩
    responses := [⟨0, 0, ⟨[71, 69, 84], [47]⟩, 0⟩, ⟨0, 1, ⟨[71, 69, 84], [47]⟩, 1⟩]
    nextConn := 2 }

def slotReusedHist : List Output :=
  [.accepted 0, .received 0 getRoot, .invoked 0 ⟨[71, 69, 84], [47]⟩ (some 0), .closed 0,
    .timerClosed 0, .accepted 1, .received 1 getRoot, .invoked 1 ⟨[71, 69, 84], [47]⟩ (some 0)]

theorem slotReused_reachable : (machine parseGetRoot).Reaches slotReused slotReusedHist :=
  Transition.Machine.reaches_exec
    [.peerConnected true true, .allocBuffer 0, .read (.data getRoot) true true,
      .allocBuffer 0, .read .eof true true, .clientClosed 0, .idleTimerClosed 0,
      .peerConnected true true, .allocBuffer 0, .read (.data getRoot) true true]
    twoConnections_initial rfl

/-- Both responses point to slot 0. The guard of the first one is dead, and the second one finds
the second connection. -/
theorem response_finds_own_connection_slotReused :
    slotReused.responses.map (·.cli) = [0, 0] ∧
      slotReused.guards.live 0 = some ⟨false, 1, 0⟩ ∧
      slotReused.guards.live 1 = some ⟨true, 2, 1⟩ ∧
      ∃ c, slotReused.clients.live 0 = some c ∧ c.conn = 1 ∧ c.closing = false := by
  obtain ⟨⟨hlive, -⟩, c, hc, hconn, -, hopen⟩ := response_finds_own_connection
    slotReused_reachable (List.mem_cons_of_mem _ (List.mem_singleton.mpr rfl)) rfl rfl
  exact ⟨rfl, rfl, hlive, c, hc, hconn, hopen⟩

/-! ## The pools -/

/-- Every slot in use is accounted for. -/
structure Conserved (hist : List Output) (s : State) : Prop where
  clients : s.clients.inUseCount = (openConns hist).card
  readBuffers : s.readBuffers.inUseCount =
    s.clients.total (fun _ c => c.recv.length) + (s.handed.bind Handed.buffer).toList.length
  refCount : ∀ g gd, s.guards.live g = some gd →
    gd.refCount = ((if .closed gd.conn ∈ hist then 0 else 1) + responseRefs s.responses g : ℕ) ∧
      0 < gd.refCount
  guards : s.guards.inUseCount = (List.range s.guards.capacity).countP fun g =>
    0 < holders s.clients g + responseRefs s.responses g
  /-- nothing is left behind -/
  quiescent : openConns hist = ∅ → s.responses = [] →
    s.clients.inUseCount = 0 ∧ s.readBuffers.inUseCount = 0 ∧ s.guards.inUseCount = 0

namespace Settled

theorem readBuffers_count (hi : Settled hist s) : s.readBuffers.inUseCount =
    s.clients.total (fun _ c => c.recv.length) + (s.handed.bind Handed.buffer).toList.length := by
  have howned := hi.inv.buffers.owned fun _ => 1
  rw [hi.inv.buffers.wf.count_eq, howned]
  simp [weigh, State.hands]

/-- A guard is outstanding exactly while something refers to it. -/
theorem guard_isSome_iff (hi : Settled hist s) (g : ℕ) :
    (s.guards.live g).isSome ↔ 0 < holders s.clients g + responseRefs s.responses g := by
  have hlaw := hi.inv.guards.law g
  cases hg : s.guards.live g with
  | none =>
    rw [hg] at hlaw
    obtain ⟨h1, h2, -⟩ := hlaw
    simp [h1, h2]
  | some gd =>
    rw [hg] at hlaw
    obtain ⟨-, hrefs, hpos⟩ := hlaw
    simp only [State.hands, List.count_nil] at hrefs
    simp only [Option.isSome_some, true_iff]
    omega

theorem holders_eq (hi : Settled hist s) {g : ℕ} {gd : ConnGuard}
    (hgd : s.guards.live g = some gd) :
    holders s.clients g = if .closed gd.conn ∈ hist then 0 else 1 := by
  have hlaw := hi.inv.guards.law g
  rw [hgd] at hlaw
  rw [hlaw.1]
  have hdead := hi.inv.hist.guard g gd hgd
  by_cases hclosed : .closed gd.conn ∈ hist
  · simp [hclosed, hdead.mpr hclosed]
  · rw [← hdead, Bool.not_eq_false] at hclosed
    simp [hclosed, ← hdead]

/-- No connection, no slot with a connection in it. -/
theorem clients_total_eq_zero (hi : Settled hist s) (hopen : openConns hist = ∅)
    (f : ℕ → ClientState → ℕ) : s.clients.total f = 0 := by
  by_contra hne
  obtain ⟨i, c, hc, -⟩ := MemPool.exists_live_of_total_pos (Nat.pos_of_ne_zero hne)
  have hmem := hi.inv.hist.opened.live i c hc
  rw [hopen] at hmem
  exact absurd hmem (Finset.notMem_empty _)

theorem handed_eq_none (hi : Settled hist s) (hopen : openConns hist = ∅) : s.handed = none := by
  cases hh : s.handed with
  | none => rfl
  | some h =>
    obtain ⟨-, c, hc, -⟩ := hi.handed h hh
    have hmem := hi.inv.hist.opened.live h.client c hc
    rw [hopen] at hmem
    exact absurd hmem (Finset.notMem_empty _)

theorem guards_count (hi : Settled hist s) : s.guards.inUseCount =
    (List.range s.guards.capacity).countP fun g =>
      0 < holders s.clients g + responseRefs s.responses g := by
  rw [MemPool.inUseCount_eq_countP hi.inv.guards.wf]
  apply List.countP_congr
  intro g _
  rw [decide_eq_true_iff]
  exact hi.guard_isSome_iff g

end Settled

theorem pools_conserved (run : (machine parse).Reaches s hist) : Conserved hist s := by
  have hi := reaches_settled run
  refine ⟨hi.inv.hist.opened.count, hi.readBuffers_count, ?_, hi.guards_count, ?_⟩
  · intro g gd hgd
    have hlaw := hi.inv.guards.law g
    rw [hgd] at hlaw
    obtain ⟨-, hrefs, hpos⟩ := hlaw
    rw [hi.holders_eq hgd] at hrefs
    exact ⟨hrefs, hpos⟩
  · intro hopen hresponses
    have hholders : ∀ g, holders s.clients g = 0 := fun g => hi.clients_total_eq_zero hopen _
    refine ⟨?_, ?_, ?_⟩
    · rw [hi.inv.hist.opened.count, hopen]
      rfl
    · rw [hi.readBuffers_count, hi.clients_total_eq_zero hopen, hi.handed_eq_none hopen]
      rfl
    · rw [hi.guards_count, List.countP_eq_zero]
      intro g _
      simp [hholders, hresponses, responseRefs]

theorem pools_conserved_slotReused : Conserved slotReusedHist slotReused :=
  pools_conserved slotReused_reachable

end CapyJs.Server
