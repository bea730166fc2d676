import CapyJs.Server.Machine

/-!
# The callbacks of the server, case by case

What each callback and each call from JS code can have done when it was carried out,
as events on connections and changes to the rest of the state.
-/
namespace CapyJs.Server

open CapyJs.Http CapyJs.Pool ClientState

/-- Shown by `on_read_cb` only. -/
def Output.ofRead : Output → Bool
  | .received _ _ | .invoked _ _ _ | .message _ _ => true
  | _ => false

namespace State
variable {parse : Text → PhrResult} {s s' : State} {i : ℕ} {c : ClientState} {out : List Output}

theorem onClient_spec {e : Event} {next : Next} (h : s.onClient parse i c e = some (s', next)) :
    ∃ eff p, c.step parse e = some eff ∧ eff.next = next ∧
      releaseAll s.readBuffers eff.released = some p ∧
      s' = { s with clients := s.clients.modify i fun _ => eff.client, readBuffers := p } := by
  unfold onClient at h
  split at h
  · cases h
  · next eff heff =>
    obtain ⟨s'', hrel, hpair⟩ := Option.map_eq_some_iff.mp h
    obtain ⟨p, hp, rfl⟩ := Option.map_eq_some_iff.mp hrel
    cases hpair
    exact ⟨eff, p, heff, rfl, hp, rfl⟩

theorem nextConn_onClient {e : Event} {next : Next}
    (h : s.onClient parse i c e = some (s', next)) : s'.nextConn = s.nextConn := by
  obtain ⟨eff, p, -, -, -, rfl⟩ := onClient_spec h
  rfl

theorem live_onClient {e : Event} {next : Next} (hwf : s.clients.WF)
    (hlive : s.clients.live i = some c) (h : s.onClient parse i c e = some (s', next)) :
    ∃ eff, c.step parse e = some eff ∧ eff.next = next ∧ s'.clients.WF ∧
      s'.clients.live i = some eff.client := by
  obtain ⟨eff, p, heff, hnext, -, rfl⟩ := onClient_spec h
  obtain ⟨hr, hwf'⟩ := MemPool.modify_spec hwf hlive fun _ => eff.client
  exact ⟨eff, heff, hnext, hwf', (hr.live_eq i).trans (if_pos rfl)⟩

theorem releaseGuard_spec {g : ℕ} (h : s.releaseGuard g = some s') :
    s' = { s with guards := s'.guards } := by
  obtain ⟨p, -, rfl⟩ := Option.map_eq_some_iff.mp h
  rfl

theorem onLoopEvent_spec {enabled : ClientState → Bool}
    {run : ClientState → Option (State × List Output)} {r : State × List Output}
    (h : s.onLoopEvent i enabled run = some r) :
    s.Idle ∧ ∃ c, s.clients.live i = some c ∧ enabled c = true ∧ run c = some r := by
  unfold onLoopEvent at h
  split_ifs at h with hidle
  split at h
  · cases h
  · next c hc =>
    split_ifs at h with henabled
    exact ⟨hidle, c, hc, henabled, h⟩

theorem onAllocBuffer_spec (h : s.onAllocBuffer i = some (s', out)) :
    out = [] ∧ ∃ buffer readBuffers, s.readBuffers.acquire = some (buffer, readBuffers) ∧
      s' = { s with readBuffers, handed := some ⟨i, buffer⟩ } := by
  unfold onAllocBuffer at h
  split at h
  · cases h
  · next buffer readBuffers hacq =>
    cases h
    exact ⟨rfl, buffer, readBuffers, hacq, rfl⟩

/-- No buffer is handed out, the server is inside the same JS function as before, and there are
as many slots for clients. -/
structure SamePlace (s s' : State) : Prop where
  handed : s'.handed = s.handed
  frame : s'.frame = s.frame
  capacity : s'.clients.capacity = s.clients.capacity

theorem onPeerConnected_cases {accepted named : Bool} (hwf : s.clients.WF)
    (hs : s.onPeerConnected accepted named = some (s', out)) :
    s.SamePlace s' ∧ s'.responses = s.responses ∧
      ((out = [.rejected] ∧ s'.nextConn = s.nextConn ∧
          ∀ j, s'.clients.live j = s.clients.live j) ∨
        ∃ i g, out = [.accepted s.nextConn] ∧ s'.nextConn = s.nextConn + 1 ∧
          ∀ j, s'.clients.live j =
            if j = i then some (newClient g s.nextConn accepted named)
            else s.clients.live j) := by
  unfold State.onPeerConnected at hs
  split at hs
  · cases hs
  · next clients hacq =>
    cases hs
    obtain ⟨rfl, -⟩ := MemPool.eq_of_acquire_none hacq
    exact ⟨⟨rfl, rfl, rfl⟩, rfl, .inl ⟨rfl, rfl, fun j => rfl⟩⟩
  · next i clients hacq =>
    obtain ⟨hr, hwf', -⟩ := MemPool.acquire_spec hwf hacq
    have hslot := hr.live_eq i
    rw [if_pos rfl] at hslot
    split at hs
    · cases hs
    · obtain ⟨clients', hrel, hpair⟩ := Option.map_eq_some_iff.mp hs
      cases hpair
      obtain ⟨p, hp, hr', -⟩ := MemPool.release_spec hwf' hslot
      rw [hrel] at hp
      cases hp
      refine ⟨⟨rfl, rfl, (hr.trans hr').capacity_eq⟩, rfl, .inl ⟨rfl, rfl, fun j => ?_⟩⟩
      rw [(hr.trans hr').live_eq]
      split_ifs with hj
      · rw [hj, hr.before]
      · rfl
    · next g guards _ =>
      cases hs
      obtain ⟨hr', -⟩ := MemPool.modify_spec hwf' hslot
        fun _ => newClient g s.nextConn accepted named
      exact ⟨⟨rfl, rfl, (hr.trans hr').capacity_eq⟩, rfl,
        .inr ⟨i, g, rfl, rfl, (hr.trans hr').live_eq⟩⟩

/-! ## Reads -/

theorem invokeFunction_cases {req : RequestObject} {ok : Bool}
    (h : s.invokeFunction parse i c req ok = some (s', out)) :
    ∃ g, c.guard = some g ∧
      ((∃ handler, out = [.invoked c.conn req (some handler)] ∧
          s' = { s.acquireGuard g with responses := s.responses ++ [⟨i, g, req, c.conn⟩] }) ∨
        ∃ c' s₁ next, out = [.invoked c.conn req none] ∧ s.clients.deref i = some c' ∧
          (s.acquireGuard g).onClient parse i c' (.notFound ok) = some (s₁, next) ∧
          s₁.releaseGuard g = some s') := by
  unfold invokeFunction at h
  split at h
  · cases h
  · next g hg =>
    refine ⟨g, hg, ?_⟩
    simp only at h
    split at h
    · next handler _ =>
      cases h
      exact .inl ⟨handler, rfl, rfl⟩
    · split at h
      · cases h
      · next c' hderef =>
        split at h
        · cases h
        · next s₁ next hclient =>
          obtain ⟨s₂, hrel, hpair⟩ := Option.map_eq_some_iff.mp h
          cases hpair
          exact .inr ⟨c', s₁, next, rfl, hderef, hclient, hrel⟩

theorem onReadData_cases {b : ℕ} {bytes : Text} {handler ok : Bool}
    (h : s.onReadData parse i c b bytes handler ok = some (s', out)) :
    ∃ s₁ next out₁, s.onClient parse i c (.data ⟨b, bytes⟩ handler) = some (s₁, next) ∧
      out = .received c.conn bytes :: out₁ ∧
      ((next = .done ∧ out₁ = [] ∧ s' = s₁) ∨
        (∃ req key, next = .upgrade req key ∧ out₁ = [] ∧
          s' = { s₁ with frame := some (.setup i ⟨i, s₁.http.findWsRoute req.uri⟩) }) ∨
        (∃ rc text, next = .message rc text ∧ out₁ = [.message c.conn text] ∧
          s' = { s₁ with frame := some (.message i rc) }) ∨
        ∃ req, next = .request req ∧ s₁.invokeFunction parse i c req ok = some (s', out₁)) := by
  unfold onReadData at h
  split at h
  · cases h
  · next s₁ hclient =>
    cases h
    exact ⟨_, .done, [], hclient, rfl, .inl ⟨rfl, rfl, rfl⟩⟩
  · next s₁ req key hclient =>
    cases h
    exact ⟨s₁, .upgrade req key, [], hclient, rfl, .inr (.inl ⟨req, key, rfl, rfl, rfl⟩)⟩
  · next s₁ rc text hclient =>
    cases h
    exact ⟨s₁, .message rc text, _, hclient, rfl, .inr (.inr (.inl ⟨rc, text, rfl, rfl, rfl⟩))⟩
  · next s₁ req hclient =>
    obtain ⟨⟨s₂, out₂⟩, hinvoke, hpair⟩ := Option.map_eq_some_iff.mp h
    cases hpair
    exact ⟨s₁, .request req, out₂, hclient, rfl, .inr (.inr (.inr ⟨req, rfl, hinvoke⟩))⟩

/-- A read that brings no data gives its buffer back, if it was given one. -/
theorem onRead_cases {h : Handed} {nread : ReadResult} {handler ok : Bool}
    (hs : s.onRead parse h nread handler ok = some (s', out)) :
    ∃ c, s.clients.live h.client = some c ∧
      ((∃ b bytes, h.buffer = some b ∧ nread = .data bytes ∧ 1 ≤ bytes.length ∧
          s.onReadData parse h.client c b bytes handler ok = some (s', out)) ∨
        ((∀ bytes, nread ≠ .data bytes) ∧ out = [] ∧ ∃ readBuffers next,
          (match h.buffer with
            | none => some s.readBuffers
            | some b => s.readBuffers.release b) = some readBuffers ∧
          ({ s with readBuffers } : State).onClient parse h.client c .readFailed =
            some (s', next))) := by
  have hfailed : ∀ {c readBuffers},
      (({ s with readBuffers } : State).onClient parse h.client c .readFailed).map
        (fun r => (r.1, ([] : List Output))) = some (s', out) →
      out = [] ∧ ∃ next,
        ({ s with readBuffers } : State).onClient parse h.client c .readFailed =
          some (s', next) := by
    intro c readBuffers hrun
    obtain ⟨⟨s₁, next⟩, hclient, hpair⟩ := Option.map_eq_some_iff.mp hrun
    cases hpair
    exact ⟨rfl, next, hclient⟩
  unfold onRead at hs
  split at hs
  · cases hs
  · next c hlive =>
    refine ⟨c, hlive, ?_⟩
    split at hs
    · next bytes b hb =>
      split_ifs at hs with hsize
      exact .inl ⟨b, bytes, hb, rfl, hsize.1, hs⟩
    · cases hs
    · next hb =>
      obtain ⟨hout, next, hclient⟩ := hfailed hs
      rw [hb]
      exact .inr ⟨nofun, hout, s.readBuffers, next, rfl, hclient⟩
    · cases hs
    · cases hs
    · next b hdata _ hb =>
      split at hs
      · cases hs
      · next readBuffers hrel =>
        obtain ⟨hout, next, hclient⟩ := hfailed hs
        rw [hb]
        exact .inr ⟨fun bytes heq => hdata bytes heq, hout, readBuffers, next, hrel, hclient⟩

/-! ## The close callback -/

theorem finishClose_spec (h : s.finishClose parse i c = some (s', out)) :
    out = [.closed c.conn] ∧ ∃ guards next,
      (match c.guard with
        | none => some s.guards
        | some g => ConnGuard.release (ConnGuard.invalidate s.guards g) g) = some guards ∧
      ({ s with guards } : State).onClient parse i c .closeFinished = some (s', next) := by
  unfold finishClose at h
  cases hg : c.guard with
  | none =>
    simp only [hg] at h
    obtain ⟨⟨s₂, next⟩, hclient, hpair⟩ := Option.map_eq_some_iff.mp h
    cases hpair
    exact ⟨rfl, s.guards, next, rfl, hclient⟩
  | some g =>
    simp only [hg] at h
    split at h
    · cases h
    · next s₁ hdropped =>
      obtain ⟨guards, hguards, rfl⟩ := Option.map_eq_some_iff.mp hdropped
      obtain ⟨⟨s₂, next⟩, hclient, hpair⟩ := Option.map_eq_some_iff.mp h
      cases hpair
      exact ⟨rfl, guards, next, hguards, hclient⟩

theorem onClientClosed_cases (h : s.onClientClosed parse i c = some (s', out)) :
    ∃ s₁ next, s.onClient parse i c .closeStarted = some (s₁, next) ∧
      ((c.activeWs = none ∧ s₁.finishClose parse i c.closeStarted = some (s', out)) ∨
        (c.activeWs.isSome ∧ out = [] ∧ s' = { s₁ with frame := some (.onClose i) })) := by
  unfold onClientClosed at h
  split at h
  · cases h
  · next s₁ next hstart =>
    refine ⟨s₁, next, hstart, ?_⟩
    split at h
    · next hws => exact .inl ⟨hws, h⟩
    · cases h
    · next hws =>
      cases h
      exact .inr ⟨by rw [hws]; rfl, rfl, rfl⟩

/-! ## Calls from JS code and their return -/

/-- Whatever else happens, the response gives up its reference in the end. -/
theorem endResponse_cases {k : ℕ} {e : Event} (h : s.endResponse parse k e = some (s', out)) :
    ∃ r gd s₁, s.responses[k]? = some r ∧ s.guards.deref r.guard = some gd ∧ out = [] ∧
      s₁.releaseGuard r.guard = some s' ∧
      ((gd.alive = false ∧ s₁ = { s with responses := s.responses.eraseIdx k }) ∨
        (gd.alive = true ∧ ∃ c, s.clients.deref r.cli = some c ∧
          ((c.closing = true ∧ s₁ = { s with responses := s.responses.eraseIdx k }) ∨
            (c.closing = false ∧ ∃ next,
              ({ s with responses := s.responses.eraseIdx k } : State).onClient parse r.cli c e =
                some (s₁, next))))) := by
  unfold endResponse at h
  split at h
  · cases h
  · next r hr =>
    simp only at h
    split at h
    · cases h
    · next gd hgd =>
      split_ifs at h with hdead
      · obtain ⟨s₂, hrel, hpair⟩ := Option.map_eq_some_iff.mp h
        cases hpair
        exact ⟨r, gd, _, hr, hgd, rfl, hrel, .inl ⟨by simpa using hdead, rfl⟩⟩
      · have halive : gd.alive = true := by simpa using hdead
        split at h
        · cases h
        · next c hc =>
          split_ifs at h with hclosing
          · obtain ⟨s₂, hrel, hpair⟩ := Option.map_eq_some_iff.mp h
            cases hpair
            exact ⟨r, gd, _, hr, hgd, rfl, hrel, .inr ⟨halive, c, hc, .inl ⟨hclosing, rfl⟩⟩⟩
          · split at h
            · cases h
            · next s₁ next hclient =>
              obtain ⟨s₂, hrel, hpair⟩ := Option.map_eq_some_iff.mp h
              cases hpair
              exact ⟨r, gd, s₁, hr, hgd, rfl, hrel, .inr ⟨halive, c, hc,
                .inr ⟨by simpa using hclosing, next, hclient⟩⟩⟩

theorem onJsReturn_cases {f : JsFrame} {ok : Bool} (h : s.onJsReturn parse f ok = some (s', out)) :
    (∃ i c e next, s.clients.live i = some c ∧ out = [] ∧
      s.onClient parse i c e = some (s', next) ∧
      ((∃ ws, f = .setup i ws ∧ e = .handshake ws ok) ∨
        ∃ rc, f = .message i rc ∧ e = .messageDone rc)) ∨
    ∃ i c, f = .onClose i ∧ s.clients.live i = some c ∧
      s.finishClose parse i c = some (s', out) := by
  cases f with
  | setup i ws =>
    simp only [onJsReturn] at h
    split at h
    · cases h
    · next c hlive =>
      obtain ⟨⟨s₁, next⟩, hclient, hpair⟩ := Option.map_eq_some_iff.mp h
      cases hpair
      exact .inl ⟨i, c, _, next, hlive, rfl, hclient, .inl ⟨ws, rfl, rfl⟩⟩
  | message i rc =>
    simp only [onJsReturn] at h
    split at h
    · cases h
    · next c hlive =>
      obtain ⟨⟨s₁, next⟩, hclient, hpair⟩ := Option.map_eq_some_iff.mp h
      cases hpair
      exact .inl ⟨i, c, _, next, hlive, rfl, hclient, .inr ⟨rc, rfl, rfl⟩⟩
  | onClose i =>
    simp only [onJsReturn] at h
    split at h
    · cases h
    · next c hlive => exact .inr ⟨i, c, rfl, hlive, h⟩

theorem wsSend_spec {ok : Bool} (h : s.step parse (.wsSend i ok) = some (s', out)) :
    s.handed = none ∧ out = [] ∧ ∃ c next, s.clients.live i = some c ∧
      (c.activeWs.isSome || s.inSetup i) = true ∧
      s.onClient parse i c (.sendFrame ok) = some (s', next) := by
  simp only [step] at h
  split at h
  · next c h0 hlive =>
    split_ifs at h with hopen
    obtain ⟨⟨s₁, next⟩, hclient, hpair⟩ := Option.map_eq_some_iff.mp h
    cases hpair
    exact ⟨h0, rfl, c, next, hlive, hopen, hclient⟩
  · cases h

theorem jsReturn_spec {ok : Bool} (h : s.step parse (.jsReturn ok) = some (s', out)) :
    s.handed = none ∧ ∃ f, s.frame = some f ∧
      ({ s with frame := none } : State).onJsReturn parse f ok = some (s', out) := by
  simp only [step] at h
  split at h
  · next f h0 hf => exact ⟨h0, f, hf, h⟩
  · cases h

theorem read_spec {nread : ReadResult} {handler ok : Bool}
    (h : s.step parse (.read nread handler ok) = some (s', out)) :
    ∃ hd, s.handed = some hd ∧
      ({ s with handed := none } : State).onRead parse hd nread handler ok = some (s', out) := by
  simp only [step] at h
  split at h
  · cases h
  · next hd hh => exact ⟨hd, hh, h⟩

/-! ## Where the server is afterwards

Only `on_alloc_buffer_cb` hands out a buffer, and only reads and the close callback call
JS functions that the server waits for. -/

theorem samePlace_onClient {e : Event} {next : Next}
    (h : s.onClient parse i c e = some (s', next)) : s.SamePlace s' := by
  obtain ⟨eff, p, -, -, -, rfl⟩ := onClient_spec h
  exact ⟨rfl, rfl, rfl⟩

theorem samePlace_releaseGuard {g : ℕ} (h : s.releaseGuard g = some s') : s.SamePlace s' := by
  rw [releaseGuard_spec h]
  exact ⟨rfl, rfl, rfl⟩

theorem SamePlace.trans {s₁ s₂ s₃ : State} (h : s₁.SamePlace s₂) (h' : s₂.SamePlace s₃) :
    s₁.SamePlace s₃ :=
  ⟨h'.1.trans h.1, h'.2.trans h.2, h'.3.trans h.3⟩

theorem samePlace_invokeFunction {req : RequestObject} {ok : Bool}
    (h : s.invokeFunction parse i c req ok = some (s', out)) : s.SamePlace s' := by
  obtain ⟨g, -, ⟨handler, -, rfl⟩ | ⟨d, s₁, next, -, -, hclient, hrel⟩⟩ := invokeFunction_cases h
  · exact ⟨rfl, rfl, rfl⟩
  · have hacquired : s.SamePlace (s.acquireGuard g) := ⟨rfl, rfl, rfl⟩
    exact (hacquired.trans (samePlace_onClient hclient)).trans (samePlace_releaseGuard hrel)

theorem samePlace_finishClose (h : s.finishClose parse i c = some (s', out)) :
    s.SamePlace s' := by
  obtain ⟨-, guards, next, -, hclient⟩ := finishClose_spec h
  have hdropped : s.SamePlace { s with guards } := ⟨rfl, rfl, rfl⟩
  exact hdropped.trans (samePlace_onClient hclient)

theorem samePlace_endResponse {k : ℕ} {e : Event} (h : s.endResponse parse k e = some (s', out)) :
    s.SamePlace s' := by
  obtain ⟨r, gd, s₁, -, -, -, hrel, hcases⟩ := endResponse_cases h
  have herased : s.SamePlace { s with responses := s.responses.eraseIdx k } := ⟨rfl, rfl, rfl⟩
  have hrel' := samePlace_releaseGuard hrel
  rcases hcases with ⟨-, rfl⟩ | ⟨-, c, -, ⟨-, rfl⟩ | ⟨-, next, hclient⟩⟩
  · exact herased.trans hrel'
  · exact herased.trans hrel'
  · exact (herased.trans (samePlace_onClient hclient)).trans hrel'

/-- No step changes the number of slots, and a buffer is handed out by one label only. -/
theorem place_step {a : Label} (hwf : s.clients.WF) (hs : s.step parse a = some (s', out)) :
    s'.clients.capacity = s.clients.capacity ∧
      ((∀ i, a ≠ .allocBuffer i) → s'.handed = none) := by
  have hsame : s.SamePlace s' → s.handed = none → s'.clients.capacity = s.clients.capacity ∧
      ((∀ i, a ≠ .allocBuffer i) → s'.handed = none) :=
    fun hplace h0 => ⟨hplace.capacity, fun _ => hplace.handed.trans h0⟩
  cases a with
  | allocBuffer i =>
    obtain ⟨-, c, -, -, hrun⟩ := onLoopEvent_spec hs
    obtain ⟨-, buffer, readBuffers, -, rfl⟩ := onAllocBuffer_spec hrun
    exact ⟨rfl, fun ha => absurd rfl (ha i)⟩
  | peerConnected accepted named =>
    simp only [step] at hs
    split_ifs at hs with hidle
    exact hsame (onPeerConnected_cases hwf hs).1 hidle.1
  | read nread handler ok =>
    obtain ⟨h, -, hrun⟩ := read_spec hs
    obtain ⟨c, -, ⟨b, bytes, -, -, -, hdata⟩ | ⟨-, -, p, next, -, hclient⟩⟩ := onRead_cases hrun
    · obtain ⟨s₁, next, out₁, hclient, -, hcases⟩ := onReadData_cases hdata
      have hplace := samePlace_onClient hclient
      rcases hcases with ⟨-, -, rfl⟩ | ⟨req, key, -, -, rfl⟩ | ⟨rc, text, -, -, rfl⟩ |
        ⟨req, -, hinvoke⟩
      · exact ⟨hplace.capacity, fun _ => hplace.handed⟩
      · exact ⟨hplace.capacity, fun _ => hplace.handed⟩
      · exact ⟨hplace.capacity, fun _ => hplace.handed⟩
      · have hplace' := hplace.trans (samePlace_invokeFunction hinvoke)
        exact ⟨hplace'.capacity, fun _ => hplace'.handed⟩
    · have hplace := samePlace_onClient hclient
      exact ⟨hplace.capacity, fun _ => hplace.handed⟩
  | writeDone i ok | shutdownDone i | idleTimeout i =>
    obtain ⟨hidle, c, -, -, hrun⟩ := onLoopEvent_spec hs
    obtain ⟨⟨s₁, next⟩, hclient, hpair⟩ := Option.map_eq_some_iff.mp hrun
    cases hpair
    exact hsame (samePlace_onClient hclient) hidle.1
  | clientClosed i =>
    obtain ⟨hidle, c, -, -, hrun⟩ := onLoopEvent_spec hs
    obtain ⟨s₁, next, hstart, ⟨-, hfinish⟩ | ⟨-, -, rfl⟩⟩ := onClientClosed_cases hrun
    · exact hsame ((samePlace_onClient hstart).trans (samePlace_finishClose hfinish)) hidle.1
    · have hplace := samePlace_onClient hstart
      exact ⟨hplace.capacity, fun _ => hplace.handed.trans hidle.1⟩
  | idleTimerClosed i =>
    obtain ⟨hidle, c, hlive, -, hrun⟩ := onLoopEvent_spec hs
    obtain ⟨clients, hrel, hpair⟩ := Option.map_eq_some_iff.mp hrun
    cases hpair
    obtain ⟨p, hp, hr, -⟩ := MemPool.release_spec hwf hlive
    rw [hrel] at hp
    cases hp
    exact ⟨hr.capacity_eq, fun _ => hidle.1⟩
  | send k isStatic body ok | abort k ok =>
    simp only [step] at hs
    split_ifs at hs with h0
    exact hsame (samePlace_endResponse hs) h0
  | wsSend i ok =>
    obtain ⟨h0, -, c, next, -, -, hclient⟩ := wsSend_spec hs
    exact hsame (samePlace_onClient hclient) h0
  | jsReturn ok =>
    obtain ⟨h0, f, -, hrun⟩ := jsReturn_spec hs
    have hplace : ({ s with frame := none } : State).SamePlace s' := by
      rcases onJsReturn_cases hrun with ⟨i, c, e, next, -, -, hclient, -⟩ | ⟨i, c, -, -, hfinish⟩
      · exact samePlace_onClient hclient
      · exact samePlace_finishClose hfinish
    exact ⟨hplace.capacity, fun _ => hplace.handed.trans h0⟩
  | registerApi method uri handler | registerWs uri handler =>
    simp only [step] at hs
    split_ifs at hs with h0
    cases hs
    exact hsame ⟨rfl, rfl, rfl⟩ h0

theorem frame_of_inSetup (h : s.inSetup i = true) : ∃ ws, s.frame = some (.setup i ws) := by
  unfold inSetup at h
  split at h
  · next j ws hf =>
    rw [beq_iff_eq.mp h] at hf
    exact ⟨ws, hf⟩
  · cases h

/-- A WebSocket is set up in a read, which leaves the socket as it was. -/
theorem setup_origin {a : Label} {ws : WebSocket} (hwf : s.clients.WF)
    (hs : s.step parse a = some (s', out)) (hf : s'.frame = some (.setup i ws)) :
    s.frame = some (.setup i ws) ∨ ∃ h c c', s.handed = some h ∧ h.client = i ∧
      s.clients.live i = some c ∧ s'.clients.live i = some c' ∧ c'.socket = c.socket := by
  have hsame : s.SamePlace s' → s.frame = some (.setup i ws) := fun h => h.2.symm.trans hf
  cases a with
  | allocBuffer j =>
    obtain ⟨-, c, -, -, hrun⟩ := onLoopEvent_spec hs
    obtain ⟨-, buffer, readBuffers, -, rfl⟩ := onAllocBuffer_spec hrun
    exact .inl hf
  | peerConnected accepted named =>
    simp only [step] at hs
    split_ifs at hs
    obtain ⟨hplace, -⟩ := onPeerConnected_cases hwf hs
    exact .inl (hplace.frame.symm.trans hf)
  | read nread handler ok =>
    obtain ⟨h, hh, hrun⟩ := read_spec hs
    obtain ⟨c, hlive, ⟨b, bytes, -, -, -, hdata⟩ | ⟨-, -, p, next, -, hclient⟩⟩ := onRead_cases hrun
    · obtain ⟨s₁, next, out₁, hclient, -, hcases⟩ := onReadData_cases hdata
      have hframe := (samePlace_onClient hclient).2
      rcases hcases with ⟨-, -, rfl⟩ | ⟨req, key, hnext, -, rfl⟩ | ⟨rc, text, -, -, rfl⟩ |
        ⟨req, -, hinvoke⟩
      · exact .inl (hframe.symm.trans hf)
      · cases hf
        obtain ⟨eff, p, heff, hnext', -, rfl⟩ := onClient_spec hclient
        obtain ⟨hr, -⟩ := MemPool.modify_spec hwf hlive fun _ => eff.client
        exact .inr ⟨h, c, eff.client, hh, rfl, hlive, (hr.live_eq _).trans (if_pos rfl),
          socket_of_upgrade heff (hnext'.trans hnext)⟩
      · cases hf
      · exact .inl (((samePlace_invokeFunction hinvoke).2.trans hframe).symm.trans hf)
    · exact .inl ((samePlace_onClient hclient).2.symm.trans hf)
  | writeDone j ok | shutdownDone j | idleTimeout j =>
    obtain ⟨-, c, -, -, hrun⟩ := onLoopEvent_spec hs
    obtain ⟨⟨s₁, next⟩, hclient, hpair⟩ := Option.map_eq_some_iff.mp hrun
    cases hpair
    exact .inl (hsame (samePlace_onClient hclient))
  | clientClosed j =>
    obtain ⟨-, c, -, -, hrun⟩ := onLoopEvent_spec hs
    obtain ⟨s₁, next, hstart, ⟨-, hfinish⟩ | ⟨-, -, rfl⟩⟩ := onClientClosed_cases hrun
    · exact .inl (hsame ((samePlace_onClient hstart).trans (samePlace_finishClose hfinish)))
    · cases hf
  | idleTimerClosed j =>
    obtain ⟨-, c, -, -, hrun⟩ := onLoopEvent_spec hs
    obtain ⟨clients, -, hpair⟩ := Option.map_eq_some_iff.mp hrun
    cases hpair
    exact .inl hf
  | send k isStatic body ok | abort k ok =>
    simp only [step] at hs
    split_ifs at hs
    exact .inl (hsame (samePlace_endResponse hs))
  | wsSend j ok =>
    obtain ⟨-, -, c, next, -, -, hclient⟩ := wsSend_spec hs
    exact .inl (hsame (samePlace_onClient hclient))
  | jsReturn ok =>
    obtain ⟨-, f, -, hrun⟩ := jsReturn_spec hs
    rcases onJsReturn_cases hrun with ⟨j, c, e, next, -, -, hclient, -⟩ | ⟨j, c, -, -, hfinish⟩
    · rw [(samePlace_onClient hclient).2] at hf
      cases hf
    · rw [(samePlace_finishClose hfinish).2] at hf
      cases hf
  | registerApi method uri handler | registerWs uri handler =>
    simp only [step] at hs
    split_ifs at hs
    cases hs
    exact .inl hf

/-! ## What an observer sees -/

/-- What each label can show. -/
inductive Shows (s : State) : Label → Output → Prop
  | peerConnected {accepted named : Bool} {o : Output}
      (ho : o = .rejected ∨ o = .accepted s.nextConn) : Shows s (.peerConnected accepted named) o
  | read {bytes : Text} {handler ok : Bool} {o : Output} (ho : o.ofRead = true) :
      Shows s (.read (.data bytes) handler ok) o
  | written {i : ℕ} {ok : Bool} {c : ClientState} : Shows s (.writeDone i ok) (.written c.conn)
  | closed {i : ℕ} {c : ClientState} (hidle : s.Idle) (hlive : s.clients.live i = some c)
      (hws : c.activeWs = none) : Shows s (.clientClosed i) (.closed c.conn)
  | closeReturned {i : ℕ} {ok : Bool} {c : ClientState} (hf : s.frame = some (.onClose i))
      (hlive : s.clients.live i = some c) : Shows s (.jsReturn ok) (.closed c.conn)
  | timerClosed {i : ℕ} {c : ClientState} (hlive : s.clients.live i = some c)
      (htimer : c.idleTimer = .closing) : Shows s (.idleTimerClosed i) (.timerClosed c.conn)

theorem ofRead_onReadData {b : ℕ} {bytes : Text} {handler ok : Bool} {o : Output}
    (h : s.onReadData parse i c b bytes handler ok = some (s', out)) (ho : o ∈ out) :
    o.ofRead = true := by
  obtain ⟨s₁, next, out₁, -, rfl, hcases⟩ := onReadData_cases h
  rcases List.mem_cons.mp ho with rfl | hmem
  · rfl
  · rcases hcases with ⟨-, rfl, -⟩ | ⟨req, key, -, rfl, -⟩ | ⟨rc, text, -, rfl, -⟩ |
      ⟨req, -, hinvoke⟩
    · cases hmem
    · cases hmem
    · cases List.mem_singleton.mp hmem
      rfl
    · obtain ⟨g, -, ⟨handler, rfl, -⟩ | ⟨d, s₂, next, rfl, -⟩⟩ := invokeFunction_cases hinvoke
      · cases List.mem_singleton.mp hmem
        rfl
      · cases List.mem_singleton.mp hmem
        rfl

theorem shows_of_step {a : Label} {o : Output} (hwf : s.clients.WF)
    (hs : s.step parse a = some (s', out)) (ho : o ∈ out) : s.Shows a o := by
  have hsilent : out ≠ [] := List.ne_nil_of_mem ho
  cases a with
  | allocBuffer i =>
    obtain ⟨-, c, -, -, hrun⟩ := onLoopEvent_spec hs
    exact absurd (onAllocBuffer_spec hrun).1 hsilent
  | peerConnected accepted named =>
    simp only [step] at hs
    split_ifs at hs
    obtain ⟨-, -, ⟨rfl, -⟩ | ⟨i, g, rfl, -⟩⟩ := onPeerConnected_cases hwf hs
    · exact .peerConnected (.inl (List.mem_singleton.mp ho))
    · exact .peerConnected (.inr (List.mem_singleton.mp ho))
  | read nread handler ok =>
    obtain ⟨h, -, hrun⟩ := read_spec hs
    obtain ⟨c, -, ⟨b, bytes, -, rfl, -, hdata⟩ | ⟨-, hout, -⟩⟩ := onRead_cases hrun
    · exact .read (ofRead_onReadData hdata ho)
    · exact absurd hout hsilent
  | writeDone i ok =>
    obtain ⟨-, c, -, -, hrun⟩ := onLoopEvent_spec hs
    obtain ⟨⟨s₁, next⟩, -, hpair⟩ := Option.map_eq_some_iff.mp hrun
    cases hpair
    unfold ClientState.written at ho
    split at ho
    · cases List.mem_singleton.mp ho
      exact .written
    · cases List.mem_singleton.mp ho
      exact .written
    · cases ho
  | shutdownDone i | idleTimeout i =>
    obtain ⟨-, c, -, -, hrun⟩ := onLoopEvent_spec hs
    obtain ⟨⟨s₁, next⟩, -, hpair⟩ := Option.map_eq_some_iff.mp hrun
    cases hpair
    cases ho
  | clientClosed i =>
    obtain ⟨hidle, c, hlive, -, hrun⟩ := onLoopEvent_spec hs
    obtain ⟨s₁, next, -, ⟨hws, hfinish⟩ | ⟨-, hout, -⟩⟩ := onClientClosed_cases hrun
    · obtain ⟨rfl, -⟩ := finishClose_spec hfinish
      cases List.mem_singleton.mp ho
      exact Shows.closed (c := c) hidle hlive hws
    · exact absurd hout hsilent
  | idleTimerClosed i =>
    obtain ⟨-, c, hlive, htimer, hrun⟩ := onLoopEvent_spec hs
    obtain ⟨clients, -, hpair⟩ := Option.map_eq_some_iff.mp hrun
    cases hpair
    cases List.mem_singleton.mp ho
    exact .timerClosed hlive (beq_iff_eq.mp htimer)
  | send k isStatic body ok | abort k ok =>
    simp only [step] at hs
    split_ifs at hs
    obtain ⟨r, gd, s₁, -, -, hout, -⟩ := endResponse_cases hs
    exact absurd hout hsilent
  | wsSend i ok => exact absurd (wsSend_spec hs).2.1 hsilent
  | jsReturn ok =>
    obtain ⟨-, f, hf, hrun⟩ := jsReturn_spec hs
    rcases onJsReturn_cases hrun with ⟨i, c, e, next, -, hout, -⟩ | ⟨i, c, rfl, hlive, hfinish⟩
    · exact absurd hout hsilent
    · obtain ⟨rfl, -⟩ := finishClose_spec hfinish
      cases List.mem_singleton.mp ho
      exact .closeReturned hf hlive
  | registerApi method uri handler | registerWs uri handler =>
    simp only [step] at hs
    split_ifs at hs
    cases hs
    cases ho

theorem read_of_output {a : Label} {o : Output} (hwf : s.clients.WF)
    (hs : s.step parse a = some (s', out)) (ho : o ∈ out) (hread : o.ofRead = true) :
    ∃ h c b bytes handler ok, a = .read (.data bytes) handler ok ∧ s.handed = some h ∧
      s.clients.live h.client = some c ∧
      ({ s with handed := none } : State).onReadData parse h.client c b bytes handler ok =
        some (s', out) := by
  cases shows_of_step hwf hs ho with
  | @read bytes handler ok =>
    obtain ⟨h, hh, hrun⟩ := read_spec hs
    obtain ⟨c, hlive, ⟨b, bytes', -, heq, -, hdata⟩ | ⟨hnone, -⟩⟩ := onRead_cases hrun
    · cases heq
      exact ⟨h, c, b, bytes, handler, ok, rfl, hh, hlive, hdata⟩
    · exact absurd rfl (hnone bytes)
  | peerConnected ho => rcases ho with rfl | rfl <;> cases hread
  | written | closed | closeReturned | timerClosed => cases hread

theorem received_of_step {a : Label} {n : ℕ} {bytes : Text} (hwf : s.clients.WF)
    (hs : s.step parse a = some (s', out)) (ho : .received n bytes ∈ out) :
    ∃ h c, s.handed = some h ∧ s.clients.live h.client = some c ∧ c.conn = n := by
  obtain ⟨h, c, b, bytes', handler, ok, -, hh, hlive, hdata⟩ := read_of_output hwf hs ho rfl
  refine ⟨h, c, hh, hlive, ?_⟩
  obtain ⟨s₁, next, out₁, -, rfl, hcases⟩ := onReadData_cases hdata
  rcases List.mem_cons.mp ho with heq | hmem
  · cases heq
    rfl
  · rcases hcases with ⟨-, rfl, -⟩ | ⟨req, key, -, rfl, -⟩ | ⟨rc, text, -, rfl, -⟩ |
      ⟨req, -, hinvoke⟩
    · cases hmem
    · cases hmem
    · cases List.mem_singleton.mp hmem
    · obtain ⟨g, -, ⟨handler, rfl, -⟩ | ⟨d, s₂, next, rfl, -⟩⟩ := invokeFunction_cases hinvoke
      · cases List.mem_singleton.mp hmem
      · cases List.mem_singleton.mp hmem

/-- `invoke_function` is called for a request that was taken. -/
theorem invoked_of_step {a : Label} {n : ℕ} {req : RequestObject} {found : Option ℕ}
    (hwf : s.clients.WF) (hs : s.step parse a = some (s', out)) (ho : .invoked n req found ∈ out) :
    ∃ h c, s.handed = some h ∧ s.clients.live h.client = some c ∧ c.conn = n ∧
      c.writeInFlight = false := by
  obtain ⟨h, c, b, bytes, handler, ok, -, hh, hlive, hdata⟩ := read_of_output hwf hs ho rfl
  refine ⟨h, c, hh, hlive, ?_⟩
  obtain ⟨s₁, next, out₁, hclient, rfl, hcases⟩ := onReadData_cases hdata
  rcases List.mem_cons.mp ho with heq | hmem
  · cases heq
  · rcases hcases with ⟨-, rfl, -⟩ | ⟨req, key, -, rfl, -⟩ | ⟨rc, text, -, rfl, -⟩ |
      ⟨req, rfl, hinvoke⟩
    · cases hmem
    · cases hmem
    · cases List.mem_singleton.mp hmem
    · obtain ⟨eff, -, heff, hnext, -⟩ := onClient_spec hclient
      obtain ⟨g, -, ⟨handler, rfl, -⟩ | ⟨d, s₂, next, rfl, -⟩⟩ := invokeFunction_cases hinvoke
      · cases List.mem_singleton.mp hmem
        exact ⟨rfl, idle_of_request heff hnext⟩
      · cases List.mem_singleton.mp hmem
        exact ⟨rfl, idle_of_request heff hnext⟩

end State
end CapyJs.Server
