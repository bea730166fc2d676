import CapyJs.Server.LocalRun

/-!
# What JS code can do with WebSocket objects it keeps

The JS object that a WebSocket handler is given points to a `WebSocket`, which points to
the stream of its connection. JS code may keep the object for as long as it likes, but
`on_client_closed_cb` frees the `WebSocket`, and the slot of the connection is used
again. Here the server runs together with all the objects it has given out.
-/
namespace CapyJs.Server

open CapyJs.Http CapyJs.Pool CapyJs.Transition ClientState

/-- A `WebSocket` that JS code has an object for. -/
structure WsObject where
  cli : ℕ
  freed : Bool
  /-- ghost: the connection it was opened on -/
  conn : ℕ
  deriving DecidableEq, Repr

structure WsState where
  server : State
  objects : List WsObject

/-- A step of the server, or the call of `send` on an object. `stale` is the slot that
the `cli` pointer leads to when it is read from freed memory. -/
inductive WsLabel
  | server (a : Label)
  | send (w stale : ℕ) (ok : Bool)

/-- `sendFrame` shows the object it was called for, as it is then, and the connection
whose stream was written to. -/
inductive WsOutput
  | server (o : Output)
  | sendFrame (o : WsObject) (stream : Option ℕ)
  deriving DecidableEq, Repr

namespace WsState

/-- The object that the step from `s` to `s'` hands to a WebSocket handler. -/
def opened (s s' : State) : List WsObject :=
  match s.frame, s'.frame with
  | none, some (.setup i ⟨_, some _⟩) =>
    (s'.clients.live i).toList.map fun c => ⟨i, false, c.conn⟩
  | _, _ => []

/-- The slot of the connection whose WebSocket the step frees. -/
def freedSlot (s : State) : Label → Option ℕ
  | .jsReturn _ =>
    match s.frame with
    | some (.onClose i) => some i
    | _ => none
  | _ => none

def free (slot : Option ℕ) (o : WsObject) : WsObject :=
  if slot = some o.cli then { o with freed := true } else o

@[simp] theorem free_conn (slot : Option ℕ) (o : WsObject) : (free slot o).conn = o.conn := by
  unfold free
  split_ifs <;> rfl

@[simp] theorem free_cli (slot : Option ℕ) (o : WsObject) : (free slot o).cli = o.cli := by
  unfold free
  split_ifs <;> rfl

theorem free_freed_iff {slot : Option ℕ} {o : WsObject} :
    (free slot o).freed = true ↔ o.freed = true ∨ slot = some o.cli := by
  unfold free
  split_ifs with hslot <;> simp [hslot]

@[simp] theorem free_none : free none = id := by
  funext o
  exact if_neg nofun

theorem opened_of_frame {s s' : State} (hframe : s'.frame = s.frame) : opened s s' = [] := by
  unfold opened
  split
  · next hnone hf =>
    rw [hframe, hnone] at hf
    cases hf
  · rfl

def after (h : WsState) (a : Label) (s' : State) : WsState :=
  ⟨s', h.objects.map (free (freedSlot h.server a)) ++ opened h.server s'⟩

/-- The `send` method. Nothing tells it whether the `WebSocket` is still there. -/
def send (parse : Text → PhrResult) (h : WsState) (w stale : ℕ) (ok : Bool) :
    Option (WsState × List WsOutput) :=
  match h.server.handed, h.objects[w]? with
  | none, some o =>
    let cli := if o.freed then stale else o.cli
    match h.server.clients.live cli with
    | none => some (h, [.sendFrame o none])
    | some c =>
      (h.server.onClient parse cli c (.sendFrame ok)).map fun r =>
        ({ h with server := r.1 }, [.sendFrame o (some c.conn)])
  | _, _ => none

theorem object_of_send {parse : Text → PhrResult} {h h' : WsState} {w stale : ℕ} {ok : Bool}
    {o : WsObject} {stream : Option ℕ}
    (hs : h.send parse w stale ok = some (h', [.sendFrame o stream])) : h.objects[w]? = some o := by
  unfold send at hs
  split at hs
  · next o' _ ho =>
    simp only at hs
    split at hs
    · cases hs
      exact ho
    · obtain ⟨r, -, hpair⟩ := Option.map_eq_some_iff.mp hs
      cases hpair
      exact ho
  · cases hs

def step (parse : Text → PhrResult) (h : WsState) : WsLabel → Option (WsState × List WsOutput)
  | .server (.wsSend _ _) => none
  | .server a => (h.server.step parse a).map fun r => (h.after a r.1, r.2.map .server)
  | .send w stale ok => h.send parse w stale ok

/-- The connection of an object is in its slot and has not given up its guard, which it
does at the end of `on_client_closed_cb`. -/
def holdsGuard (h : WsState) (w : ℕ) : Bool :=
  match h.objects[w]? with
  | none => false
  | some o =>
    match h.server.clients.live o.cli with
    | none => false
    | some c => c.conn == o.conn && c.guard.isSome

/-- JS code calls `send` on an object only while its connection holds its guard. -/
def sendsGuarded (h : WsState) : WsLabel → Bool
  | .send w _ _ => h.holdsGuard w
  | .server _ => true

end WsState

def wsMachine (parse : Text → PhrResult) : Machine WsState WsLabel WsOutput where
  init h := h.server.Initial ∧ h.objects = []
  step := WsState.step parse

/-- What the server emits. -/
def served (hist : List WsOutput) : List Output :=
  hist.filterMap fun
    | .server o => some o
    | _ => none

@[simp] theorem served_append (hist out : List WsOutput) :
    served (hist ++ out) = served hist ++ served out := List.filterMap_append

@[simp] theorem served_map (out : List Output) : served (out.map .server) = out := by
  simp [served, List.filterMap_map]

@[simp] theorem served_sendFrame (o : WsObject) (stream : Option ℕ) :
    served [.sendFrame o stream] = [] := rfl

/-! ## Connections that come and go -/

section
variable {parse : Text → PhrResult} {hist out : List Output} {s s' : State} {a : Label}

/-- Nothing but its return ends a JS function that the server waits for. -/
theorem Settled.frame_running (hi : Settled hist s) (hs : s.step parse a = some (s', out))
    {f : JsFrame} (hf : s.frame = some f) (ha : ∀ ok, a ≠ .jsReturn ok) : s'.frame = some f := by
  have hbusy : ¬s.Idle := by
    intro hidle
    rw [hidle.2] at hf
    cases hf
  cases a with
  | peerConnected accepted named =>
    simp only [State.step, if_neg hbusy] at hs
    cases hs
  | allocBuffer i | writeDone i ok | shutdownDone i | idleTimeout i | clientClosed i
  | idleTimerClosed i => exact absurd (State.onLoopEvent_spec hs).1 hbusy
  | read nread handler ok =>
    obtain ⟨h, hh, -⟩ := State.read_spec hs
    rw [(hi.handed h hh).1] at hf
    cases hf
  | send k isStatic body ok | abort k ok =>
    simp only [State.step] at hs
    split_ifs at hs
    exact (State.samePlace_endResponse hs).2.trans hf
  | wsSend i ok =>
    obtain ⟨-, -, c, next, -, -, hclient⟩ := State.wsSend_spec hs
    exact (State.samePlace_onClient hclient).2.trans hf
  | jsReturn ok => exact absurd rfl (ha ok)
  | registerApi method uri handler | registerWs uri handler =>
    simp only [State.step] at hs
    split_ifs at hs
    cases hs
    exact hf

/-- The timer is closed after the connection. -/
theorem Settled.closed_of_timerClosed (hi : Settled hist s)
    (hs : s.step parse a = some (s', out)) {n : ℕ} (hn : .timerClosed n ∈ out) :
    .closed n ∈ hist := by
  cases State.shows_of_step hi.inv.clients.wf hs hn with
  | @timerClosed i c hlive htimer =>
    apply (hi.inv.hist.client i c hlive).mp
    by_contra hguard
    rw [(hi.inv.clients.ok i c hlive).guard_some hguard] at htimer
    cases htimer
  | peerConnected ho => rcases ho with h | h <;> cases h
  | read ho => cases ho

/-- The handshake makes the WebSocket that was set up the one of its connection. -/
theorem Settled.activeWs_of_setup (hi : Settled hist s) {ok : Bool}
    (hs : s.step parse (.jsReturn ok) = some (s', out)) {i : ℕ} {ws : WebSocket}
    (hf : s.frame = some (.setup i ws)) {c' : ClientState} (hlive' : s'.clients.live i = some c')
    (hguard : c'.guard ≠ none) : c'.activeWs.isSome := by
  obtain ⟨-, f, hf', hrun⟩ := State.jsReturn_spec hs
  rw [hf] at hf'
  cases hf'
  rcases State.onJsReturn_cases hrun with ⟨j, c, e, next, hlive, -, hclient, hcases⟩ |
    ⟨j, c, hf', -⟩
  · rcases hcases with ⟨ws', hframe, rfl⟩ | ⟨rc, hframe, -⟩
    · cases hframe
      have hwf : ({ s with frame := none } : State).clients.WF := hi.inv.clients.wf
      obtain ⟨eff, heff, -, -, hlive₁⟩ := State.live_onClient hwf hlive hclient
      rw [hlive'] at hlive₁
      cases heff
      cases hlive₁
      have hopen : c.closing = false := by
        by_contra hclosing
        rw [Bool.not_eq_false] at hclosing
        rw [completeProtocolUpgradeHandshake, if_pos hclosing] at hguard
        have hcloser := (hi.inv.clients.closer_iff i c hlive hguard).mp hclosing
        simp [State.hands, hf] at hcloser
      simp [completeProtocolUpgradeHandshake, hopen]
    · cases hframe
  · cases hf'

end

/-! ## The objects of a run -/

/-- What the history and the connections tell about an object. -/
structure WsObject.Sound (hist : List Output) (s : State) (o : WsObject) : Prop where
  accepted : .accepted o.conn ∈ hist
  freed_iff : o.freed = true ↔ .closed o.conn ∈ hist
  slot : ∀ i c, s.clients.live i = some c → c.conn = o.conn →
    i = o.cli ∧ (c.guard ≠ none → c.activeWs.isSome ∨ s.inSetup i)

structure WsInv (hist : List Output) (h : WsState) : Prop where
  settled : Settled hist h.server
  reads : h.server.HandedReads
  timers : ∀ n, .timerClosed n ∈ hist → .closed n ∈ hist
  objects : ∀ o ∈ h.objects, o.Sound hist h.server

namespace WsInv
variable {parse : Text → PhrResult} {hist out : List Output} {h : WsState} {s' : State}
  {a : Label} {o : WsObject}

/-- The connection of a WebSocket that has not been freed. -/
theorem exists_live (hi : WsInv hist h) (ho : o ∈ h.objects) (hfreed : o.freed = false) :
    ∃ c, h.server.clients.live o.cli = some c ∧ c.conn = o.conn ∧ c.guard ≠ none := by
  have hsound := hi.objects o ho
  have hclosed : .closed o.conn ∉ hist := by
    intro hmem
    rw [hsound.freed_iff.mpr hmem] at hfreed
    cases hfreed
  have hopen : o.conn ∈ openConns hist :=
    mem_openConns.mpr ⟨hsound.accepted, fun hmem => hclosed (hi.timers _ hmem)⟩
  obtain ⟨i, c, hlive, hconn⟩ := hi.settled.exists_live hopen
  obtain ⟨rfl, -⟩ := hsound.slot i c hlive hconn
  refine ⟨c, hlive, hconn, fun hguard => ?_⟩
  apply hclosed
  rw [← hconn]
  exact (hi.settled.inv.hist.client _ c hlive).mp hguard

theorem not_freed (hi : WsInv hist h) (ho : o ∈ h.objects) {i : ℕ} {c : ClientState}
    (hlive : h.server.clients.live i = some c) (hconn : c.conn = o.conn)
    (hguard : c.guard ≠ none) : o.freed = false := by
  by_contra hfreed
  rw [Bool.not_eq_false, (hi.objects o ho).freed_iff, ← hconn] at hfreed
  exact hguard ((hi.settled.inv.hist.client i c hlive).mpr hfreed)

/-- The step that ends the close callback of a connection is the one that frees its
WebSocket. -/
theorem closed_iff (hi : WsInv hist h) (hs : h.server.step parse a = some (s', out))
    (ho : o ∈ h.objects) (hfreed : o.freed = false) :
    .closed o.conn ∈ out ↔ WsState.freedSlot h.server a = some o.cli := by
  have hsound := hi.objects o ho
  constructor
  · intro hclosed
    generalize hn : o.conn = n at hclosed
    cases State.shows_of_step hi.settled.inv.clients.wf hs hclosed with
    | peerConnected heq => rcases heq with heq | heq <;> cases heq
    | read hread => cases hread
    | @closed i c hidle hlive hws =>
      -- a connection with an object has a WebSocket as long as it has its guard
      obtain ⟨c', hlive', hconn', hguard⟩ := hi.exists_live ho hfreed
      obtain ⟨rfl, -⟩ := hsound.slot i c hlive hn.symm
      rw [hlive] at hlive'
      cases hlive'
      rcases (hsound.slot _ c hlive hn.symm).2 hguard with hsome | hsetup
      · rw [hws] at hsome
        cases hsome
      · simp [State.inSetup, hidle.2] at hsetup
    | @closeReturned i ok c hf hlive =>
      obtain ⟨rfl, -⟩ := hsound.slot i c hlive hn.symm
      simp only [WsState.freedSlot, hf]
  · intro hslot
    cases a with
    | jsReturn ok =>
      simp only [WsState.freedSlot] at hslot
      split at hslot
      · next i hf =>
        cases hslot
        obtain ⟨-, f, hf', hrun⟩ := State.jsReturn_spec hs
        rw [hf] at hf'
        cases hf'
        obtain ⟨c, hlive, hconn, -⟩ := hi.exists_live ho hfreed
        rcases State.onJsReturn_cases hrun with
          ⟨i, d, e, next, -, -, -, ⟨ws, heq, -⟩ | ⟨rc, heq, -⟩⟩ | ⟨i, d, heq, hlived, hfinish⟩
        · cases heq
        · cases heq
        · cases heq
          have hd : h.server.clients.live o.cli = some d := hlived
          rw [hlive] at hd
          cases hd
          rw [(State.finishClose_spec hfinish).1, hconn]
          exact List.mem_singleton.mpr rfl
      · cases hslot
    | _ => cases hslot

/-- A connection has its WebSocket until it gives up its guard. -/
theorem slot_step (hi : WsInv hist h) (hs : h.server.step parse a = some (s', out))
    (ho : o ∈ h.objects) {i : ℕ} {c' : ClientState} (hlive' : s'.clients.live i = some c')
    (hconn' : c'.conn = o.conn) :
    i = o.cli ∧ (c'.guard ≠ none → c'.activeWs.isSome ∨ s'.inSetup i) := by
  have hsound := hi.objects o ho
  rcases hi.settled.origin hi.reads hs hlive' with ⟨-, -, g, accepted, named, rfl⟩ |
    ⟨c, hlive, hconn, hrun⟩
  · -- the objects are older than a new connection
    have hlt := hi.settled.inv.hist.opened.accepted_lt _ hsound.accepted
    rw [← hconn'] at hlt
    exact absurd hlt (Nat.lt_irrefl _)
  · obtain ⟨hcli, hws⟩ := hsound.slot i c hlive (hconn.symm.trans hconn')
    refine ⟨hcli, fun hguard' => ?_⟩
    by_cases hsetup : h.server.inSetup i = true
    · obtain ⟨ws, hf⟩ := State.frame_of_inSetup hsetup
      by_cases ha : ∀ ok, a ≠ .jsReturn ok
      · right
        simp [State.inSetup, hi.settled.frame_running hs hf ha]
      · simp only [not_forall, not_not] at ha
        obtain ⟨ok, rfl⟩ := ha
        exact .inl (hi.settled.activeWs_of_setup hs hf hlive' hguard')
    · left
      have hbefore : c.guard ≠ none → c.activeWs.isSome :=
        fun hguard => (hws hguard).resolve_right hsetup
      have hafter := hrun.invariant
        (K := fun c _ => c.guard ≠ none → c.activeWs.isSome)
        ?_ (fun c u _ hK => hK) (hi.settled.inv.clients.ok i c hlive) hbefore
      · exact hafter hguard'
      · intro d e eff u _ _ _ hstep hK hguard
        obtain ⟨he, hguard⟩ := guard_of_step hstep hguard
        exact (step_keeps hstep).activeWs he (hK hguard)

theorem freed_step (hi : WsInv hist h) (hs : h.server.step parse a = some (s', out))
    (ho : o ∈ h.objects) : (WsState.free (WsState.freedSlot h.server a) o).freed = true ↔
      .closed o.conn ∈ hist ++ out := by
  rw [WsState.free_freed_iff, List.mem_append, ← (hi.objects o ho).freed_iff]
  by_cases hfreed : o.freed = true
  · simp [hfreed]
  · rw [hi.closed_iff hs ho (by simpa using hfreed)]

/-- The object that a handler is given belongs to an open connection. -/
theorem sound_opened (hi : WsInv hist h) (hs : h.server.step parse a = some (s', out))
    (ho : o ∈ WsState.opened h.server s') : o.Sound (hist ++ out) s' := by
  have hi' := hi.settled.step hs
  unfold WsState.opened at ho
  split at ho
  · next i cli handler hnone hf =>
    obtain ⟨c', hmem, rfl⟩ := List.mem_map.mp ho
    have hlive' : s'.clients.live i = some c' := by simpa using hmem
    rcases State.setup_origin hi.settled.inv.clients.wf hs hf with hf₀ |
      ⟨hd, c, d, hh, rfl, hlive, hd', hsocket⟩
    · rw [hnone] at hf₀
      cases hf₀
    · rw [hd'] at hlive'
      cases hlive'
      obtain ⟨-, c₀, hlive₀, hactive⟩ := hi.settled.handed hd hh
      rw [hlive] at hlive₀
      cases hlive₀
      have hok := hi'.inv.clients.ok _ c' hd'
      have hopen := hok.closing_of_active (hsocket ▸ hactive)
      have hguard : c'.guard ≠ none := by
        intro hg
        rw [(hok.guard_none hg).1] at hopen
        cases hopen
      refine ⟨(mem_openConns.mp (hi'.inv.hist.opened.live _ c' hd')).1, ?_,
        fun j e hlivee hconn => ?_⟩
      · exact iff_of_false nofun fun hclosed =>
          hguard ((hi'.inv.hist.client _ c' hd').mpr hclosed)
      · obtain rfl := hi'.inv.clients.inj j hd.client e c' hlivee hd' hconn
        exact ⟨rfl, fun _ => .inr (by simp [State.inSetup, hf])⟩
  · cases ho

theorem after (hi : WsInv hist h) (hs : h.server.step parse a = some (s', out)) :
    WsInv (hist ++ out) (h.after a s') := by
  refine ⟨hi.settled.step hs, .step hi.settled.inv.clients.wf hs, fun n hn => ?_, fun o ho => ?_⟩
  · apply List.mem_append_left
    rcases List.mem_append.mp hn with hold | hnew
    · exact hi.timers n hold
    · exact hi.settled.closed_of_timerClosed hs hnew
  · rcases List.mem_append.mp ho with hmem | hmem
    · obtain ⟨old, hold, rfl⟩ := List.mem_map.mp hmem
      constructor
      · rw [WsState.free_conn]
        exact List.mem_append_left _ (hi.objects old hold).accepted
      · rw [WsState.free_conn]
        exact hi.freed_step hs hold
      · intro i c' hlive' hconn'
        rw [WsState.free_conn] at hconn'
        rw [WsState.free_cli]
        exact hi.slot_step hs hold hlive' hconn'
    · exact hi.sound_opened hs hmem

/-- A call of `send` while the connection holds its guard is the one that the server's
own machine has. -/
theorem send_guarded (hi : WsInv hist h) {w stale : ℕ} {ok : Bool} {h' : WsState}
    {emitted : List WsOutput} (hguarded : h.holdsGuard w = true)
    (hs : h.send parse w stale ok = some (h', emitted)) :
    ∃ o, h.objects[w]? = some o ∧ o.freed = false ∧ emitted = [.sendFrame o (some o.conn)] ∧
      h.server.step parse (.wsSend o.cli ok) = some (h'.server, []) ∧ h'.objects = h.objects := by
  unfold WsState.holdsGuard at hguarded
  split at hguarded
  · cases hguarded
  · next o ho =>
    split at hguarded
    · cases hguarded
    · next c hlive =>
      obtain ⟨hconn, hguard⟩ := Bool.and_eq_true_iff.mp hguarded
      have hmem := List.mem_of_getElem? ho
      have hsome : c.guard ≠ none := Option.isSome_iff_ne_none.mp hguard
      have hfreed := hi.not_freed hmem hlive (beq_iff_eq.mp hconn) hsome
      have hws := ((hi.objects o hmem).slot _ c hlive (beq_iff_eq.mp hconn)).2 hsome
      refine ⟨o, ho, hfreed, ?_⟩
      simp only [WsState.send, ho] at hs
      split at hs
      · next o' hhanded heq =>
        cases heq
        simp only [hfreed, Bool.false_eq_true, if_false, hlive] at hs
        obtain ⟨⟨s₁, next⟩, hclient, hpair⟩ := Option.map_eq_some_iff.mp hs
        cases hpair
        rw [beq_iff_eq.mp hconn]
        refine ⟨rfl, ?_, rfl⟩
        have hopen : (c.activeWs.isSome || h.server.inSetup o.cli) = true :=
          Bool.or_eq_true_iff.mpr hws
        simp only [State.step, hhanded, hlive, hopen, if_true, hclient, Option.map_some]
      · cases hs

theorem send (hi : WsInv hist h) {w stale : ℕ} {ok : Bool} {h' : WsState}
    {emitted : List WsOutput} (hguarded : h.holdsGuard w = true)
    (hs : h.send parse w stale ok = some (h', emitted)) : WsInv hist h' := by
  obtain ⟨o, -, -, -, hstep, hobjects⟩ := hi.send_guarded hguarded hs
  have hafter := hi.after hstep
  obtain ⟨-, -, c, next, -, -, hclient⟩ := State.wsSend_spec hstep
  have hsame : h.after (.wsSend o.cli ok) h'.server = h' := by
    simp [WsState.after, WsState.freedSlot,
      WsState.opened_of_frame (State.samePlace_onClient hclient).2, ← hobjects]
  rw [hsame, List.append_nil] at hafter
  exact hafter

end WsInv

section
variable {parse : Text → PhrResult} {h h' : WsState} {hist out : List WsOutput}

theorem WsState.step_server {a : Label} (hs : h.step parse (.server a) = some (h', out)) :
    ∃ s' out', h.server.step parse a = some (s', out') ∧ h' = h.after a s' ∧
      out = out'.map .server := by
  unfold WsState.step at hs
  split at hs
  · cases hs
  · next b _ heq =>
    cases heq
    obtain ⟨⟨s', out'⟩, hstep, hpair⟩ := Option.map_eq_some_iff.mp hs
    cases hpair
    exact ⟨s', out', hstep, rfl, rfl⟩
  · next heq => cases heq

/-- A frame that is sent for a WebSocket that is still there, on its own connection. -/
def WsOutput.Proper : WsOutput → Prop
  | .server _ => True
  | .sendFrame o stream => o.freed = false ∧ stream = some o.conn

theorem reaches_wsInv
    (run : ((wsMachine parse).guarded fun h a => h.sendsGuarded a = true).Reaches h hist) :
    WsInv (served hist) h ∧ ∀ o ∈ hist, o.Proper := by
  apply run.invariant (I := fun hist h => WsInv (served hist) h ∧ ∀ o ∈ hist, o.Proper)
  · intro h₀ ⟨hserver, hobjects⟩
    have hstart : (machine parse).Reaches h₀.server [] := .start hserver
    obtain ⟨hsettled, hreads⟩ := reaches_handedReads hstart
    refine ⟨⟨hsettled, hreads, nofun, ?_⟩, nofun⟩
    rw [hobjects]
    exact nofun
  · intro hist h a h' out ⟨hi, hproper⟩ hstep
    obtain ⟨hguarded, hstep⟩ := Machine.guarded_step.mp hstep
    rw [served_append]
    cases a with
    | server a =>
      obtain ⟨s', out', hs, rfl, rfl⟩ := WsState.step_server hstep
      rw [served_map]
      refine ⟨hi.after hs, fun o ho => ?_⟩
      rcases List.mem_append.mp ho with hold | hnew
      · exact hproper o hold
      · obtain ⟨o', -, rfl⟩ := List.mem_map.mp hnew
        trivial
    | send w stale ok =>
      have hi' := hi.send hguarded hstep
      obtain ⟨o, -, hfreed, rfl, -⟩ := hi.send_guarded hguarded hstep
      rw [served_sendFrame, List.append_nil]
      refine ⟨hi', fun o' ho => ?_⟩
      rcases List.mem_append.mp ho with hold | hnew
      · exact hproper o' hold
      · cases List.mem_singleton.mp hnew
        exact ⟨hfreed, rfl⟩

/-- As long as JS code calls `send` only on objects whose connections hold their guards,
every frame is sent for a WebSocket that has not been freed, on the stream of the
connection it was opened on. Any other call is one for a WebSocket that has been
freed. -/
theorem sendFrame_proper_iff
    (run : ((wsMachine parse).guarded fun h a => h.sendsGuarded a = true).Reaches h hist) :
    (∀ o stream, .sendFrame o stream ∈ hist → o.freed = false ∧ stream = some o.conn) ∧
      ∀ w stale ok h₁ o stream, h.send parse w stale ok = some (h₁, [.sendFrame o stream]) →
        ((o.freed = false ∧ stream = some o.conn) ↔ h.holdsGuard w = true) := by
  obtain ⟨hi, hproper⟩ := reaches_wsInv run
  refine ⟨fun o stream => hproper (.sendFrame o stream), fun w stale ok h₁ o stream hs => ?_⟩
  constructor
  · rintro ⟨hfreed, -⟩
    have ho := WsState.object_of_send hs
    obtain ⟨c, hlive, hconn, hguard⟩ := hi.exists_live (List.mem_of_getElem? ho) hfreed
    simp [WsState.holdsGuard, ho, hlive, hconn, Option.isSome_iff_ne_none.mpr hguard]
  · intro hguarded
    obtain ⟨o', -, hfreed, heq, -⟩ := hi.send_guarded hguarded hs
    cases heq
    exact ⟨hfreed, rfl⟩

end

/-! ## One connection -/

/-- The request for a WebSocket on `/`. -/
def upgradeRoot : Text :=
  ascii "GET / HTTP/1.1\r\nUpgrade: websocket\r\nConnection: Upgrade\r\n" ++
    ascii "Sec-WebSocket-Key: a\r\n\r\n"

def parseUpgradeRoot (bytes : Text) : PhrResult :=
  if upgradeRoot.isPrefixOf bytes then
    .request upgradeRoot.length (ascii "GET") (ascii "/")
      [⟨ascii "Upgrade", ascii "websocket"⟩, ⟨ascii "Connection", ascii "Upgrade"⟩,
        ⟨ascii "Sec-WebSocket-Key", ascii "a"⟩]
  else .incomplete

/-- A WebSocket has been opened, and the handler that set it up has sent a frame. -/
def opened : WsState where
  server :=
    { oneConnection with
      clients := ⟨[⟨{ State.newClient 0 0 true true with
        writeInFlight := true
        socket := ⟨.active, true, true, [.freeRequest, .freeRequest], false⟩
        activeWs := some ⟨0, some 0⟩
        connProtocol := .webSocket }, sizeMax, true⟩], sizeMax, 1, 1⟩
      guards := ⟨[⟨⟨true, 1, 0⟩, sizeMax, true⟩], sizeMax, 1, 1⟩
      http := oneConnection.http.registerWsCb (ascii "/") 0
      nextConn := 1 }
  objects := [⟨0, false, 0⟩]

theorem opened_reachable :
    ((wsMachine parseUpgradeRoot).guarded fun h a => h.sendsGuarded a = true).Reaches opened
      [.server (.accepted 0), .server (.received 0 upgradeRoot),
        .sendFrame ⟨0, false, 0⟩ (some 0)] :=
  Machine.reaches_exec (s := ⟨oneConnection, []⟩)
    [.server (.registerWs (ascii "/") 0), .server (.peerConnected true true),
      .server (.allocBuffer 0), .server (.read (.data upgradeRoot) true true), .send 0 0 true,
      .server (.jsReturn true)] ⟨oneConnection_initial, rfl⟩ rfl

theorem sendFrame_proper_iff_opened : ∃ hist : List WsOutput,
    .sendFrame ⟨0, false, 0⟩ (some 0) ∈ hist ∧
    (∀ o stream, .sendFrame o stream ∈ hist → o.freed = false ∧ stream = some o.conn) ∧
      opened.holdsGuard 0 = true := by
  refine ⟨_, ?_, (sendFrame_proper_iff opened_reachable).1, rfl⟩
  simp

/-- The peer goes away, the close callback runs to its end and another peer connects. JS
code then sends on the first WebSocket, whose freed memory still holds the old pointer. -/
theorem frame_reaches_other_connection : ∃ h hist,
    (wsMachine parseUpgradeRoot).Reaches h hist ∧
      .sendFrame ⟨0, true, 0⟩ (some 1) ∈ hist := by
  let labels : List WsLabel := [.server (.allocBuffer 0), .server (.read .eof true true),
    .server (.writeDone 0 true), .server (.writeDone 0 true), .server (.clientClosed 0),
    .server (.jsReturn true), .server (.idleTimerClosed 0), .server (.peerConnected true true),
    .send 0 0 true]
  have hrun : (wsMachine parseUpgradeRoot).exec opened labels =
      some (_, [.server (.closed 0), .server (.timerClosed 0), .server (.accepted 1),
        .sendFrame ⟨0, true, 0⟩ (some 1)]) := rfl
  exact ⟨_, _, opened_reachable.of_guarded.exec hrun, by simp⟩

end CapyJs.Server
