import CapyJs.Server.Observation
import CapyJs.Server.RequestLog
import CapyJs.Server.Safety

/-!
# Keep-alive connections

Every connection of the server agrees with its observer, whatever happens on the
other connections and whenever handlers answer: each request that is completed
while no response is on its way leads to one call of `invoke_function`, in order.
-/
namespace CapyJs.Server

open CapyJs.Http CapyJs.Pool CapyJs.Transition ClientState

/-! ## The server and the observer -/

section
variable {parse : Text → PhrResult}

/-- While connection `n` is open and receives the bytes of the requests `rs`, its observer
is right about it, and it waits for no JS function. -/
structure Agrees (n : ℕ) (rs : List (KeepAliveRequest parse)) (hist : List Output) (s : State) :
    Prop where
  tracks : ∀ i c, s.clients.live i = some c → c.conn = n → c.socket.phase = .active →
    received n hist <+: KeepAliveRequest.wire rs → Tracks n rs hist c
  frame : ∀ f c, s.frame = some f → s.clients.live f.slot = some c → c.conn = n →
    c.socket.phase = .active → ¬received n hist <+: KeepAliveRequest.wire rs
  fresh : ∀ o ∈ hist, ∀ m, o.concerns = some m → m < s.nextConn

namespace Agrees
variable {n : ℕ} {rs : List (KeepAliveRequest parse)} {hist out : List Output} {s s' : State}
  {i : ℕ} {c : ClientState}

theorem calm (h : Agrees n rs hist s) (hc : Calm n s s') (hnext : s'.nextConn = s.nextConn)
    (hout : ∀ o ∈ out, ∀ m, o.concerns = some m → m ≠ n ∧ m < s.nextConn) :
    Agrees n rs (hist ++ out) s' := by
  have hother : ∀ o ∈ out, o.concerns ≠ some n := fun o ho hn => (hout o ho n hn).1 rfl
  have hreceived : received n (hist ++ out) = received n hist := by
    rw [received_append, received_of_irrelevant hother, List.append_nil]
  refine ⟨?_, ?_, ?_⟩
  · intro i c' hlive hn hactive hpre
    rw [hreceived] at hpre
    obtain ⟨c, hc', hn', hactive', hobs⟩ := hc.client i c' hlive hn hactive
    have htracks := (h.tracks i c hc' hn' hactive' hpre).irrelevant hother
    simp only [observed, Prod.mk.injEq] at hobs
    exact htracks.congr hobs.1 hobs.2.1 hobs.2.2
  · intro f c' hf hlive hn hactive hpre
    rw [hreceived] at hpre
    rcases hc.frame f hf with hf' | hnone
    · obtain ⟨c, hc', hn', hactive', -⟩ := hc.client f.slot c' hlive hn hactive
      exact h.frame f c hf' hc' hn' hactive' hpre
    · exact hnone c' hlive hn hactive
  · intro o ho m hm
    rw [hnext]
    rcases List.mem_append.mp ho with hold | hnew
    · exact h.fresh o hold m hm
    · exact (hout o hnew m hm).2

theorem silent (h : Agrees n rs hist s) (hc : Calm n s s') (hnext : s'.nextConn = s.nextConn) :
    Agrees n rs (hist ++ []) s' :=
  h.calm hc hnext fun _ ho => absurd ho List.not_mem_nil

/-- The peer sends something else. -/
theorem off (hpre : ¬received n hist <+: KeepAliveRequest.wire rs)
    (hfresh : ∀ o ∈ hist, ∀ m, o.concerns = some m → m < s.nextConn) : Agrees n rs hist s :=
  ⟨fun _ _ _ _ _ h => absurd h hpre, fun _ _ _ _ _ _ => hpre, hfresh⟩

/-- An event on the connection itself, from what the observer makes of it. -/
theorem observed {e : Event} {next : Next} (h : Agrees n rs hist s)
    (hinj : ∀ i j c d, s.clients.live i = some c → s.clients.live j = some d →
      c.conn = d.conn → i = j)
    (hwf : s.clients.WF) (hidle : s.Idle) (hlive : s.clients.live i = some c) (hn : c.conn = n)
    (hs : s.onClient parse i c e = some (s', next))
    (hout : ∀ o ∈ out, ∀ m, o.concerns = some m → m < s.nextConn)
    (htracks : ∀ eff, c.step parse e = some eff → c.socket.phase = .active →
      received n (hist ++ out) <+: KeepAliveRequest.wire rs →
      Tracks n rs (hist ++ out) eff.client) : Agrees n rs (hist ++ out) s' := by
  obtain ⟨eff, p, heff, rfl, -, rfl⟩ := State.onClient_spec hs
  obtain ⟨hr, -⟩ := MemPool.modify_spec hwf hlive fun _ => eff.client
  refine ⟨?_, ?_, ?_⟩
  · intro j c' hlive' hn' hactive hpre
    have hlive'' : (s.clients.modify i fun _ => eff.client).live j = some c' := hlive'
    rw [hr.live_eq] at hlive''
    split_ifs at hlive'' with hj
    · cases hlive''
      exact htracks eff heff (step_active heff hactive) hpre
    · exact absurd (hinj j i c' c hlive'' hlive (hn'.trans hn.symm)) hj
  · intro f c' hf
    have hf' : s.frame = some f := hf
    rw [hidle.2] at hf'
    cases hf'
  · intro o ho m hm
    rcases List.mem_append.mp ho with hold | hnew
    · exact h.fresh o hold m hm
    · exact hout o hnew m hm

theorem peerConnected {accepted named : Bool} (h : Agrees n rs hist s) (hwf : s.clients.WF)
    (hidle : s.Idle) (hs : s.onPeerConnected accepted named = some (s', out)) :
    Agrees n rs (hist ++ out) s' := by
  obtain ⟨⟨-, hframe, -⟩, -, ⟨rfl, hnext, hlive⟩ | ⟨i, g, rfl, hnext, hlive⟩⟩ :=
    State.onPeerConnected_cases hwf hs
  · refine h.calm ⟨fun j c' hc' hn hactive => ?_, fun f hf => ?_⟩ hnext (by simp [Output.concerns])
    · rw [hlive] at hc'
      exact ⟨c', hc', hn, hactive, rfl⟩
    · rw [hframe] at hf
      exact .inl hf
  · have hreceived : received n (hist ++ [Output.accepted s.nextConn]) = received n hist := by
      rw [received_append]
      exact List.append_nil _
    have hquiet : ∀ m, ∀ o ∈ [Output.accepted s.nextConn], o.concerns ≠ some m := by
      simp [Output.concerns]
    refine ⟨?_, ?_, ?_⟩
    · intro j c' hc' hn hactive hpre
      rw [hreceived] at hpre
      rw [hlive] at hc'
      split_ifs at hc'
      · -- the new connection: nothing has been heard of its number
        cases hc'
        refine (Tracks.fresh ?_ rfl rfl rfl).irrelevant (hquiet n)
        intro o ho hconcerns
        have hlt := h.fresh o ho n hconcerns
        rw [← hn] at hlt
        exact Nat.lt_irrefl _ hlt
      · exact (h.tracks j c' hc' hn hactive hpre).irrelevant (hquiet n)
    · intro f c' hf
      rw [hframe, hidle.2] at hf
      cases hf
    · intro o ho m hm
      rw [hnext]
      rcases List.mem_append.mp ho with hold | hnew
      · exact Nat.lt_succ_of_lt (h.fresh o hold m hm)
      · exact absurd hm (hquiet m o hnew)

/-- An event of the loop that the observer does not see. -/
theorem plain {enabled : ClientState → Bool} {e : Event} (h : Agrees n rs hist s)
    (hwf : s.clients.WF) (he : e.Plain)
    (hs : s.onLoopEvent i enabled (fun c => (s.onClient parse i c e).map fun r => (r.1, [])) =
      some (s', out)) : Agrees n rs (hist ++ out) s' := by
  obtain ⟨-, c, hlive, -, hrun⟩ := State.onLoopEvent_spec hs
  obtain ⟨⟨s₁, next⟩, hclient, hpair⟩ := Option.map_eq_some_iff.mp hrun
  cases hpair
  exact h.silent (.onClient hwf hlive (.inr (.inl he)) hclient) (State.nextConn_onClient hclient)

theorem concerns_of_mem_written {c : ClientState} {o : Output} (ho : o ∈ c.written) :
    o.concerns = some c.conn := by
  unfold ClientState.written at ho
  split at ho
  · cases List.mem_singleton.mp ho
    rfl
  · cases List.mem_singleton.mp ho
    rfl
  · cases ho

theorem received_written (n : ℕ) (c : ClientState) : received n c.written = [] := by
  unfold ClientState.written
  split <;> rfl

theorem writeDone {enabled : ClientState → Bool} {ok : Bool} (h : Agrees n rs hist s)
    (hi : Settled hist s)
    (hs : s.onLoopEvent i enabled (fun c =>
      (s.onClient parse i c (.writeDone ok)).map fun r => (r.1, c.written)) = some (s', out)) :
    Agrees n rs (hist ++ out) s' := by
  obtain ⟨hidle, c, hlive, -, hrun⟩ := State.onLoopEvent_spec hs
  obtain ⟨⟨s₁, next⟩, hclient, hpair⟩ := Option.map_eq_some_iff.mp hrun
  cases hpair
  have hclients := hi.inv.clients
  have hlt : ∀ o ∈ c.written, ∀ m, o.concerns = some m → m < s.nextConn := by
    intro o ho m hm
    rw [concerns_of_mem_written ho] at hm
    cases hm
    exact hclients.conn_lt i c hlive
  by_cases hn : c.conn = n
  · apply h.observed hclients.inj hclients.wf hidle hlive hn hclient hlt
    intro eff heff hactive hpre
    obtain ⟨c', hc', rfl⟩ := Option.map_eq_some_iff.mp heff
    rw [received_append, received_written, List.append_nil] at hpre
    exact (h.tracks i c hlive hn hactive hpre).writeDone hn hc'
  · apply h.calm (.onClient hclients.wf hlive (.inl hn) hclient) (State.nextConn_onClient hclient)
    intro o ho m hm
    refine ⟨?_, hlt o ho m hm⟩
    rw [concerns_of_mem_written ho] at hm
    cases hm
    exact hn

/-! ### Reads -/

theorem invokeFunction_calm {req : RequestObject} {ok : Bool} {c' : ClientState}
    (hwf : s.clients.WF) (hlive : s.clients.live i = some c')
    (hs : s.invokeFunction parse i c req ok = some (s', out)) :
    Calm n s s' ∧ s'.nextConn = s.nextConn ∧ ∃ found, out = [.invoked c.conn req found] := by
  obtain ⟨g, -, ⟨handler, rfl, rfl⟩ | ⟨d, s₁, next, rfl, hderef, hclient, hrel⟩⟩ :=
    State.invokeFunction_cases hs
  · exact ⟨.of_clients rfl fun f hf => hf, rfl, some handler, rfl⟩
  · rw [MemPool.deref_of_live hlive] at hderef
    cases hderef
    have hcalm : Calm n (s.acquireGuard g) s₁ :=
      .onClient (e := .notFound ok) hwf hlive (.inr (.inl trivial)) hclient
    have hnext := State.nextConn_onClient hclient
    obtain ⟨guards, -, rfl⟩ := Option.map_eq_some_iff.mp hrel
    exact ⟨⟨hcalm.client, hcalm.frame⟩, hnext, none, rfl⟩

/-- Everything a read with data shows belongs to its connection. -/
theorem onReadData_outputs {b : ℕ} {bytes : Text} {handler ok : Bool} (hwf : s.clients.WF)
    (hlive : s.clients.live i = some c)
    (hs : s.onReadData parse i c b bytes handler ok = some (s', out)) :
    s'.nextConn = s.nextConn ∧ (∀ o ∈ out, ∀ m, o.concerns = some m → m = c.conn) ∧
      received c.conn out = bytes := by
  obtain ⟨s₁, next, out₁, hclient, rfl, hcases⟩ := State.onReadData_cases hs
  have hnext := State.nextConn_onClient hclient
  rcases hcases with ⟨-, rfl, rfl⟩ | ⟨req, key, -, rfl, rfl⟩ | ⟨rc, text, -, rfl, rfl⟩ |
    ⟨req, -, hinvoke⟩
  · exact ⟨hnext, by simp [Output.concerns], by simp [received]⟩
  · exact ⟨hnext, by simp [Output.concerns], by simp [received]⟩
  · exact ⟨hnext, by simp [Output.concerns], by simp [received]⟩
  · obtain ⟨eff, -, -, hwf', hlive'⟩ := State.live_onClient hwf hlive hclient
    obtain ⟨-, hnext', found, rfl⟩ := invokeFunction_calm (n := c.conn) hwf' hlive' hinvoke
    exact ⟨hnext'.trans hnext, by simp [Output.concerns], by simp [received]⟩

/-- A read on another connection. -/
theorem readOther {b : ℕ} {bytes : Text} {handler ok : Bool} (h : Agrees n rs hist s)
    (hclients : ClientsInv s.clients s.responses s.nextConn [] none)
    (hlive : s.clients.live i = some c) (hn : c.conn ≠ n)
    (hs : s.onReadData parse i c b bytes handler ok = some (s', out)) :
    Agrees n rs (hist ++ out) s' := by
  obtain ⟨hnext, hconcerns, -⟩ := onReadData_outputs hclients.wf hlive hs
  have hout : ∀ o ∈ out, ∀ m, o.concerns = some m → m ≠ n ∧ m < s.nextConn := by
    intro o ho m hm
    rw [hconcerns o ho m hm]
    exact ⟨hn, hclients.conn_lt i c hlive⟩
  apply h.calm _ hnext hout
  obtain ⟨s₁, next, out₁, hclient, rfl, hcases⟩ := State.onReadData_cases hs
  have hcalm : Calm n s s₁ := .onClient hclients.wf hlive (.inl hn) hclient
  obtain ⟨eff, heff, -, hwf', hlive'⟩ := State.live_onClient hclients.wf hlive hclient
  have hslot : ∀ c', s₁.clients.live i = some c' → c'.conn ≠ n := by
    intro c' hc'
    rw [hlive'] at hc'
    cases hc'
    rw [(step_keeps heff).conn]
    exact hn
  rcases hcases with ⟨-, -, rfl⟩ | ⟨req, key, -, -, rfl⟩ | ⟨rc, text, -, -, rfl⟩ |
    ⟨req, -, hinvoke⟩
  · exact hcalm
  · refine hcalm.trans ⟨fun j c' hc' hn' hactive => ⟨c', hc', hn', hactive, rfl⟩, ?_⟩
    rintro f ⟨⟩
    exact .inr fun c' hc' hn' => absurd hn' (hslot c' hc')
  · refine hcalm.trans ⟨fun j c' hc' hn' hactive => ⟨c', hc', hn', hactive, rfl⟩, ?_⟩
    rintro f ⟨⟩
    exact .inr fun c' hc' hn' => absurd hn' (hslot c' hc')
  · exact hcalm.trans (invokeFunction_calm hwf' hlive' hinvoke).1

/-- A read on the connection itself. -/
theorem readOwn {b : ℕ} {bytes : Text} {handler ok : Bool} (h : Agrees n rs hist s)
    (hclients : ClientsInv s.clients s.responses s.nextConn [] none) (hidle : s.Idle)
    (hlive : s.clients.live i = some c) (hactive : c.socket.phase = .active) (hn : c.conn = n)
    (hne : bytes ≠ [])
    (hends : ∀ k method path headers,
      parse (c.flattenBuffer ++ bytes) = .request k method path headers →
      k = (c.flattenBuffer ++ bytes).length)
    (hs : s.onReadData parse i c b bytes handler ok = some (s', out)) :
    Agrees n rs (hist ++ out) s' := by
  obtain ⟨hnext, hconcerns, hbytes⟩ := onReadData_outputs hclients.wf hlive hs
  have hlt := hclients.conn_lt i c hlive
  have hreceived : received n (hist ++ out) = received n hist ++ bytes := by
    rw [received_append, ← hn, hbytes]
  by_cases hpre : received n hist ++ bytes <+: KeepAliveRequest.wire rs
  · have htracks := h.tracks i c hlive hn hactive ((List.prefix_append _ _).trans hpre)
    have hopen := (hclients.ok i c hlive).closing_of_active hactive
    obtain ⟨s₁, next, out₁, hclient, rfl, hcases⟩ := State.onReadData_cases hs
    obtain ⟨eff, heff, rfl, hwf', hlive'⟩ := State.live_onClient hclients.wf hlive hclient
    rcases htracks.data ⟨b, bytes⟩ hopen hne hpre hends heff with
      ⟨hdone, htracks'⟩ | ⟨req, hreq, htracks'⟩
    · rw [hdone] at hcases
      rcases hcases with ⟨-, rfl, rfl⟩ | ⟨_, _, hno, -⟩ | ⟨_, _, hno, -⟩ | ⟨_, hno, -⟩
      · apply h.observed hclients.inj hclients.wf hidle hlive hn hclient
        · intro o ho m hm
          rw [hconcerns o ho m hm]
          exact hlt
        · intro eff' heff' _ _
          rw [heff] at heff'
          cases heff'
          rw [hn]
          exact htracks'
      · cases hno
      · cases hno
      · cases hno
    · rw [hreq] at hcases
      rcases hcases with ⟨hno, -⟩ | ⟨_, _, hno, -⟩ | ⟨_, _, hno, -⟩ | ⟨req', heq, hinvoke⟩
      · cases hno
      · cases hno
      · cases hno
      · cases heq
        obtain ⟨hcalm, hnext₂, found, rfl⟩ := invokeFunction_calm (n := n) hwf' hlive' hinvoke
        have hobserved : Agrees n rs
            (hist ++ [Output.received c.conn bytes, .invoked c.conn req found]) s₁ := by
          apply h.observed hclients.inj hclients.wf hidle hlive hn hclient
          · intro o ho m hm
            rw [hconcerns o ho m hm]
            exact hlt
          · intro eff' heff' _ _
            rw [heff] at heff'
            cases heff'
            rw [hn]
            exact htracks' found
        have hend := hobserved.silent hcalm hnext₂
        rw [List.append_nil] at hend
        exact hend
  · apply off
    · rw [hreceived]
      exact hpre
    · intro o ho m hm
      rw [hnext]
      rcases List.mem_append.mp ho with hold | hnew
      · exact h.fresh o hold m hm
      · rw [hconcerns o hnew m hm]
        exact hlt

theorem readFailed {next : Next} (h : Agrees n rs hist s) (hwf : s.clients.WF)
    (hlive : s.clients.live i = some c)
    (hs : s.onClient parse i c .readFailed = some (s', next)) : Agrees n rs (hist ++ []) s' :=
  h.silent (.onClient (e := .readFailed) hwf hlive (.inr (.inl trivial)) hs)
    (State.nextConn_onClient hs)

end Agrees

/-- In a read with data on connection `n`, the request that the parser finds ends where the
read ends. -/
def requestEndsRead (parse : Text → PhrResult) (n : ℕ) (s : State) : Label → Bool
  | .read (.data bytes) _ _ =>
    match s.handed.bind fun h => s.clients.live h.client with
    | none => true
    | some c =>
      match parse (c.flattenBuffer ++ bytes) with
      | .request k _ _ _ => c.conn != n || k == (c.flattenBuffer ++ bytes).length
      | _ => true
  | _ => true

namespace Agrees
variable {n : ℕ} {rs : List (KeepAliveRequest parse)} {hist out : List Output} {s s' : State}
  {i : ℕ} {c : ClientState}

theorem read {h : Handed} {nread : ReadResult} {handler ok : Bool} (ha : Agrees n rs hist s)
    (hi : Settled hist s) (hh : s.handed = some h)
    (hends : requestEndsRead parse n s (.read nread handler ok) = true)
    (hs : ({ s with handed := none } : State).onRead parse h nread handler ok = some (s', out)) :
    Agrees n rs (hist ++ out) s' := by
  obtain ⟨hframe, c, hlive, hactive⟩ := hi.handed h hh
  have hclients := hi.inv.clients
  simp only [State.hands, hframe] at hclients
  have hidle : ({ s with handed := none } : State).Idle := ⟨rfl, hframe⟩
  have ha₀ : Agrees n rs hist { s with handed := none } := ⟨ha.tracks, ha.frame, ha.fresh⟩
  obtain ⟨d, hlived, hcases⟩ := State.onRead_cases hs
  have hd : s.clients.live h.client = some d := hlived
  rw [hlive] at hd
  cases hd
  rcases hcases with ⟨b, bytes, -, rfl, hne, hdata⟩ | ⟨-, rfl, readBuffers, next, -, hclient⟩
  · by_cases hn : c.conn = n
    · apply ha₀.readOwn hclients hidle hlive hactive hn (List.length_pos_iff.mp hne) _ hdata
      intro k method path headers hparse
      simpa [requestEndsRead, hh, hlive, hparse, hn] using hends
    · exact ha₀.readOther hclients hlive hn hdata
  · have ha₁ : Agrees n rs hist { s with handed := none, readBuffers } :=
      ⟨ha.tracks, ha.frame, ha.fresh⟩
    exact ha₁.readFailed hclients.wf hlive hclient

/-! ### Closing, answering and returning from JS -/

theorem finishClose (h : Agrees n rs hist s) (hwf : s.clients.WF)
    (hlive : s.clients.live i = some c)
    (hs : s.finishClose parse i c = some (s', out)) : Agrees n rs (hist ++ out) s' := by
  obtain ⟨rfl, guards, next, -, hclient⟩ := State.finishClose_spec hs
  have hdropped : Calm n s { s with guards } := .of_clients rfl fun f hf => hf
  have hevent : Calm n { s with guards } s' :=
    .onClient (e := .closeFinished) hwf hlive (.inr (.inl trivial)) hclient
  have hnext := State.nextConn_onClient hclient
  apply h.calm (hdropped.trans hevent) hnext
  simp [Output.concerns]

theorem clientClosed (h : Agrees n rs hist s) (hwf : s.clients.WF)
    (hlive : s.clients.live i = some c) (hs : s.onClientClosed parse i c = some (s', out)) :
    Agrees n rs (hist ++ out) s' := by
  obtain ⟨s₁, next, hstart, hcases⟩ := State.onClientClosed_cases hs
  have hcalm : Calm n s s₁ := .onClient (e := .closeStarted) hwf hlive (.inr (.inl trivial)) hstart
  have hnext := State.nextConn_onClient hstart
  obtain ⟨eff, heff, -, hwf', hlive'⟩ := State.live_onClient hwf hlive hstart
  cases heff
  rcases hcases with ⟨-, hfinish⟩ | ⟨-, rfl, rfl⟩
  · have hagrees := h.silent hcalm hnext
    rw [List.append_nil] at hagrees
    exact hagrees.finishClose hwf' hlive' hfinish
  · refine h.silent (hcalm.trans ⟨fun j c' hc' hn hactive => ⟨c', hc', hn, hactive, rfl⟩, ?_⟩) hnext
    rintro f ⟨⟩
    refine .inr fun c' hc' _ => ?_
    -- the connection inside its `onClose` handler is closed
    have hc'' : s₁.clients.live i = some c' := hc'
    rw [hlive'] at hc''
    cases hc''
    exact nofun

theorem idleTimerClosed {clients : MemPool ClientState} (h : Agrees n rs hist s)
    (hwf : s.clients.WF) (hlive : s.clients.live i = some c)
    (hs : s.clients.release i = some clients) :
    Agrees n rs (hist ++ [Output.timerClosed c.conn]) { s with clients } := by
  obtain ⟨p, hp, hr, -⟩ := MemPool.release_spec hwf hlive
  rw [hs] at hp
  cases hp
  refine h.calm ⟨?_, fun f hf => .inl hf⟩ rfl (by simp [Output.concerns])
  intro j c' hc' hn hactive
  have hc'' : clients.live j = some c' := hc'
  rw [hr.live_eq] at hc''
  split_ifs at hc''
  exact ⟨c', hc'', hn, hactive, rfl⟩

theorem endResponse {k : ℕ} {e : Event} (h : Agrees n rs hist s) (hi : Settled hist s)
    (he : e.Plain) (hs : s.endResponse parse k e = some (s', out)) :
    Agrees n rs (hist ++ out) s' := by
  obtain ⟨r, gd, s₁, hr, hgd, rfl, hrel, hcases⟩ := State.endResponse_cases hs
  have hreleased : Calm n s s₁ → s₁.nextConn = s.nextConn → Agrees n rs (hist ++ []) s' := by
    intro hcalm hnext
    obtain ⟨p, -, rfl⟩ := Option.map_eq_some_iff.mp hrel
    exact h.silent ⟨hcalm.client, hcalm.frame⟩ hnext
  have herased : Calm n s { s with responses := s.responses.eraseIdx k } :=
    .of_clients rfl fun f hf => hf
  have hmem : r ∈ s.responses := List.mem_of_getElem? hr
  obtain ⟨gd', hlive'⟩ := hi.inv.guards.of_response hmem
  rw [MemPool.deref_of_live hlive'] at hgd
  cases hgd
  rcases hcases with ⟨-, rfl⟩ | ⟨halive, c, hderef, ⟨-, rfl⟩ | ⟨-, next, hclient⟩⟩
  · exact hreleased herased rfl
  · exact hreleased herased rfl
  · obtain ⟨c', hlive, -⟩ := (hi.inv.guards.response r hmem gd hlive').2 halive
    rw [MemPool.deref_of_live hlive] at hderef
    cases hderef
    have hcalm : Calm n { s with responses := s.responses.eraseIdx k } s₁ :=
      .onClient hi.inv.clients.wf hlive (.inr (.inl he)) hclient
    have hnext := State.nextConn_onClient hclient
    exact hreleased (herased.trans hcalm) hnext

theorem onJsReturn_outputs {f : JsFrame} {ok : Bool}
    (hs : s.onJsReturn parse f ok = some (s', out)) :
    s'.nextConn = s.nextConn ∧ ∀ o ∈ out, o.concerns = none := by
  rcases State.onJsReturn_cases hs with ⟨i, c, e, next, -, rfl, hclient, -⟩ | ⟨i, c, -, -, hfinish⟩
  · exact ⟨State.nextConn_onClient hclient, nofun⟩
  · obtain ⟨rfl, guards, next, -, hclient⟩ := State.finishClose_spec hfinish
    have hnext := State.nextConn_onClient hclient
    exact ⟨hnext, by simp [Output.concerns]⟩

/-- The return of a JS function is an event on a connection that is not the one observed or
is not open. -/
theorem jsReturn {f : JsFrame} {ok : Bool} (h : Agrees n rs hist s) (hi : Settled hist s)
    (hf : s.frame = some f)
    (hs : ({ s with frame := none } : State).onJsReturn parse f ok = some (s', out)) :
    Agrees n rs (hist ++ out) s' := by
  have hwf := hi.inv.clients.wf
  have hagrees : Agrees n rs hist { s with frame := none } := by
    refine ⟨h.tracks, fun g c hg => ?_, h.fresh⟩
    cases hg
  by_cases hpre : received n hist <+: KeepAliveRequest.wire rs
  · rcases State.onJsReturn_cases hs with ⟨i, c, e, next, hlive, rfl, hclient, hcases⟩ |
      ⟨i, c, -, hlive, hfinish⟩
    · have hslot : f.slot = i := by
        rcases hcases with ⟨ws, rfl, -⟩ | ⟨rc, rfl, -⟩ <;> rfl
      apply hagrees.silent (.onClient hwf hlive _ hclient) (State.nextConn_onClient hclient)
      by_cases hn : c.conn = n
      · exact .inr (.inr fun hactive => h.frame f c hf (hslot ▸ hlive) hn hactive hpre)
      · exact .inl hn
    · exact hagrees.finishClose hwf hlive hfinish
  · obtain ⟨hnext, hnone⟩ := onJsReturn_outputs hs
    have hirrelevant : received n out = [] := by
      apply received_of_irrelevant
      intro o ho
      rw [hnone o ho]
      exact nofun
    apply off
    · rw [received_append, hirrelevant, List.append_nil]
      exact hpre
    · intro o ho m hm
      rw [hnext]
      rcases List.mem_append.mp ho with hold | hnew
      · exact h.fresh o hold m hm
      · rw [hnone o hnew] at hm
        cases hm

theorem step {a : Label} (h : Agrees n rs hist s) (hi : Settled hist s)
    (hends : requestEndsRead parse n s a = true) (hs : s.step parse a = some (s', out)) :
    Agrees n rs (hist ++ out) s' := by
  have hwf := hi.inv.clients.wf
  cases a with
  | peerConnected accepted named =>
    simp only [State.step] at hs
    split_ifs at hs with hidle
    exact h.peerConnected hwf hidle hs
  | allocBuffer i =>
    obtain ⟨-, c, -, -, hrun⟩ := State.onLoopEvent_spec hs
    obtain ⟨rfl, buffer, readBuffers, -, rfl⟩ := State.onAllocBuffer_spec hrun
    exact h.silent (.of_clients rfl fun f hf => hf) rfl
  | read nread handler ok =>
    obtain ⟨hd, hh, hrun⟩ := State.read_spec hs
    exact h.read hi hh hends hrun
  | writeDone i ok => exact h.writeDone hi hs
  | shutdownDone i => exact h.plain (e := .shutdownDone) hwf trivial hs
  | idleTimeout i => exact h.plain (e := .idleTimeout) hwf trivial hs
  | clientClosed i =>
    obtain ⟨-, c, hlive, -, hrun⟩ := State.onLoopEvent_spec hs
    exact h.clientClosed hwf hlive hrun
  | idleTimerClosed i =>
    obtain ⟨-, c, hlive, -, hrun⟩ := State.onLoopEvent_spec hs
    obtain ⟨clients, hrel, hpair⟩ := Option.map_eq_some_iff.mp hrun
    cases hpair
    exact h.idleTimerClosed hwf hlive hrel
  | send k isStatic body ok =>
    simp only [State.step] at hs
    split_ifs at hs
    exact h.endResponse (e := .send isStatic body ok) hi trivial hs
  | abort k ok =>
    simp only [State.step] at hs
    split_ifs at hs
    exact h.endResponse (e := .abort ok) hi trivial hs
  | wsSend i ok =>
    obtain ⟨-, rfl, c, next, hlive, -, hclient⟩ := State.wsSend_spec hs
    exact h.silent (.onClient (e := .sendFrame ok) hwf hlive (.inr (.inl trivial)) hclient)
      (State.nextConn_onClient hclient)
  | jsReturn ok =>
    obtain ⟨-, f, hf, hrun⟩ := State.jsReturn_spec hs
    exact h.jsReturn hi hf hrun
  | registerApi method uri handler =>
    simp only [State.step] at hs
    split_ifs at hs
    cases hs
    exact h.silent (.of_clients rfl fun f hf => hf) rfl
  | registerWs uri handler =>
    simp only [State.step] at hs
    split_ifs at hs
    cases hs
    exact h.silent (.of_clients rfl fun f hf => hf) rfl

theorem of_initial (h : s.Initial) : Agrees n rs [] s := by
  obtain ⟨m, clientJunk, bufferJunk, guardJunk, hclients, -, -⟩ := h.pools
  refine ⟨?_, ?_, nofun⟩
  · intro i c hc
    rw [MemPool.live_new hclients] at hc
    cases hc
  · intro f c hf
    rw [h.frame] at hf
    cases hf

end Agrees

/-- On every open connection that receives the bytes of well-formed requests, whatever else
happens: each request completed while no response is on its way leads to one call of
`invoke_function`, in order and with its method and path cut to size. -/
theorem invocations_eq_taken (n : ℕ) (rs : List (KeepAliveRequest parse)) {s : State}
    {hist : List Output}
    (run : ((machine parse).guarded fun s a => requestEndsRead parse n s a = true).Reaches s hist)
    {i : ℕ} {c : ClientState} (hlive : s.clients.live i = some c) (hn : c.conn = n)
    (hopen : c.socket.phase = .active)
    (hwire : received n hist <+: KeepAliveRequest.wire rs) :
    invocations n hist = (RequestLog.of n rs hist).taken.map KeepAliveRequest.object ∧
      received n hist = KeepAliveRequest.wire ((RequestLog.of n rs hist).completed.map Prod.fst) ++
        (RequestLog.of n rs hist).buf ∧
      (RequestLog.of n rs hist).completed.map Prod.fst <+: rs ∧
      ∀ r ∈ (RequestLog.of n rs hist).todo.head?,
        (RequestLog.of n rs hist).buf.length < r.bytes.length := by
  have hagrees : Settled hist s ∧ Agrees n rs hist s := by
    apply run.invariant (I := fun hist s => Settled hist s ∧ Agrees n rs hist s)
    · intro s₀ h
      exact ⟨State.Initial.settled h, .of_initial h⟩
    · intro hist s a s' out h hstep
      obtain ⟨hends, hstep'⟩ := Machine.guarded_step.mp hstep
      exact ⟨h.1.step hstep', h.2.step h.1 hends hstep'⟩
  have htracks := hagrees.2.tracks i c hlive hn hopen hwire
  exact ⟨htracks.invoked, htracks.bytes, ⟨_, htracks.all⟩, htracks.short⟩

end

/-- `GET /` for the parser of the examples. -/
def getRootRequest : KeepAliveRequest parseGetRoot where
  bytes := getRoot
  method := [71, 69, 84]
  path := [47]
  headers := []
  nonempty := by decide
  complete rest := if_pos (List.isPrefixOf_iff_prefix.mpr (List.prefix_append _ _))
  incomplete p _ hlt := by
    apply if_neg
    intro hpre
    have hle := (List.isPrefixOf_iff_prefix.mp hpre).length_le
    omega
  noUpgrade := rfl
  noZero := by decide

/-- A request, its response and another request. -/
def twoRequests : List Output :=
  [.accepted 0, .received 0 getRoot, .invoked 0 ⟨[71, 69, 84], [47]⟩ (some 0), .written 0,
    .received 0 getRoot, .invoked 0 ⟨[71, 69, 84], [47]⟩ (some 0)]

theorem invocations_eq_taken_twoRequests :
    invocations 0 twoRequests =
      (RequestLog.of 0 [getRootRequest, getRootRequest] twoRequests).taken.map
        KeepAliveRequest.object := by
  have run : ((machine parseGetRoot).guarded fun s a =>
      requestEndsRead parseGetRoot 0 s a = true).Reaches oneRequest twoRequests :=
    Machine.reaches_exec [.peerConnected true true, .allocBuffer 0, .read (.data getRoot) true true,
      .send 0 true [] true, .writeDone 0 true, .allocBuffer 0, .read (.data getRoot) true true]
      oneConnection_initial rfl
  have hwire : received 0 twoRequests <+:
      KeepAliveRequest.wire [getRootRequest, getRootRequest] := by decide
  have hlive : oneRequest.clients.live 0 =
      some { State.newClient 0 0 true true with writeInFlight := true } := rfl
  exact (invocations_eq_taken 0 [getRootRequest, getRootRequest] run hlive rfl rfl hwire).1

/-- The connection after a request that came too early. -/
def oneDropped : State :=
  { oneRequest with
    clients := ⟨[⟨{ State.newClient 0 0 true true with
        writeInFlight := true
        socket := ⟨.active, true, false, [], false⟩ }, sizeMax, true⟩], sizeMax, 1, 1⟩ }

/-- The second of two requests, sent before the response to the first: the connection is
open, all bytes have arrived, and `invoke_function` has been called once. -/
theorem early_request_dropped : ∃ hist c,
    (machine parseGetRoot).Reaches oneDropped hist ∧ oneDropped.clients.live 0 = some c ∧
      c.socket.phase = .active ∧
      received 0 hist = KeepAliveRequest.wire [getRootRequest, getRootRequest] ∧
      invocations 0 hist ≠ [getRootRequest, getRootRequest].map KeepAliveRequest.object := by
  refine ⟨_, _, Machine.reaches_exec [.peerConnected true true, .allocBuffer 0,
    .read (.data getRoot) true true, .allocBuffer 0, .read (.data getRoot) true true]
    oneConnection_initial rfl, rfl, rfl, ?_, ?_⟩
  · decide
  · decide

end CapyJs.Server
