import CapyJs.Resource.Log
import CapyJs.Server.Safety

/-!
# What a request allocates and what becomes of it

The path of a request from `process_http_1_request` to the end of its response, as the
log of what it allocates and frees by hand. What decides the path is the request itself,
its route, and the state of the connection when the response is ended.
-/
namespace CapyJs.Server

open CapyJs.Resource

/-- What is freed by hand. `guardRef` is the reference that the response holds, and header
`i` is that of the `i`-th call of `setHeader`: the map is ordered by the addresses of the
keys, so no call replaces another's entry. -/
inductive Allocation
  | request
  | response
  | guardRef
  | headerKey (i : ℕ)
  | headerValue (i : ℕ)
  | responseBuffer
  | pendingWriteBuffer
  deriving DecidableEq, Repr

/-- The connection when a response is ended, and what `uv_write` will say. -/
structure Moment where
  alive : Bool
  closing : Bool
  writeOk : Bool
  deriving DecidableEq, Repr

/-- A handler written in JS sets headers and calls `end`, whose buffer may not be had. -/
inductive Route
  | missing
  | staticFile
  | js (headers : ℕ) (bufferOk : Bool)
  deriving DecidableEq, Repr

namespace Allocation
open Op

def responseSetHeader (i : ℕ) : List (Op Allocation) :=
  [acquire (headerKey i), acquire (headerValue i)]

def setHeaders (n : ℕ) : List (Op Allocation) := (List.range n).flatMap responseSetHeader

/-- The loop of `send` over the headers. -/
def freeHeaders (n : ℕ) : List (Op Allocation) :=
  (List.range n).flatMap fun i => [release (headerKey i), release (headerValue i)]

def onWriteCb : List (Op Allocation) := [release pendingWriteBuffer]

/-- `ResponseObject::send` of a response with `n` headers. When `uv_write` accepts a
dynamic response, `on_write_cb` follows. -/
def send (isStatic : Bool) (n : ℕ) (m : Moment) : List (Op Allocation) :=
  if !m.alive then [release guardRef, release request, release response]
  else if m.closing then [release guardRef, release request, release response]
  else
    release request ::
      if isStatic then [release guardRef, release response]
      else
        freeHeaders n ++ [acquire pendingWriteBuffer, release responseBuffer] ++
          if m.writeOk then [release guardRef, release response] ++ onWriteCb
          else [release guardRef, release response]

def abort (m : Moment) : List (Op Allocation) :=
  if !m.alive then [release guardRef, release response]
  else if m.closing then [release guardRef, release response]
  else [release guardRef, release response]

def respWith404 : List (Op Allocation) := [release guardRef, release response]

/-- `response_end`; without a buffer it aborts. -/
def responseEnd (n : ℕ) (bufferOk : Bool) (m : Moment) : List (Op Allocation) :=
  if bufferOk then acquire responseBuffer :: send false n m else abort m

def invokeFunction (route : Route) (m : Moment) : List (Op Allocation) :=
  match route with
  | .missing => respWith404
  | .staticFile => send true 0 m
  | .js n bufferOk => setHeaders n ++ responseEnd n bufferOk m

/-- `process_http_1_request` from where it has taken a request to the end of the response. -/
def processHttp1Request (isUpgrade : Bool) (route : Route) (m : Moment) : List (Op Allocation) :=
  [acquire request, acquire response] ++
    if isUpgrade then [release response] else acquire guardRef :: invokeFunction route m

/-! ## The headers -/

/-- The key or the value of a header. -/
def isHeader : Allocation → Bool
  | headerKey _ | headerValue _ => true
  | _ => false

theorem uses_setHeaders_of_not {r : Allocation} (h : r.isHeader = false) (n : ℕ) :
    uses r (setHeaders n) = [] := by
  apply uses_range_eq_nil
  intro i
  cases r <;> first | rfl | cases h

theorem uses_freeHeaders_of_not {r : Allocation} (h : r.isHeader = false) (n : ℕ) :
    uses r (freeHeaders n) = [] := by
  apply uses_range_eq_nil
  intro i
  cases r <;> first | rfl | cases h

theorem uses_setHeaders {r : Allocation} {j : ℕ} (h : r = headerKey j ∨ r = headerValue j) (n : ℕ) :
    uses r (setHeaders n) = if j < n then [acquire r] else [] := by
  apply uses_range
  intro i
  rcases h with rfl | rfl
  all_goals
    by_cases hi : i = j
    · simp [responseSetHeader, uses_cons, resource, hi]
    · simp [responseSetHeader, uses_cons, resource, hi]

theorem uses_freeHeaders {r : Allocation} {j : ℕ} (h : r = headerKey j ∨ r = headerValue j)
    (n : ℕ) : uses r (freeHeaders n) = if j < n then [release r] else [] := by
  apply uses_range
  intro i
  rcases h with rfl | rfl
  all_goals
    by_cases hi : i = j
    · simp [uses_cons, resource, hi]
    · simp [uses_cons, resource, hi]

/-! ## Which paths release everything -/

/-- The paths without a leak: a static file, or a dynamic response that is accepted by
`uv_write` on a connection that is still there. -/
def Clean (isUpgrade : Bool) (route : Route) (m : Moment) : Prop :=
  isUpgrade = false ∧
    match route with
    | .missing => False
    | .staticFile => True
    | .js _ bufferOk => bufferOk = true ∧ m.alive = true ∧ m.closing = false ∧ m.writeOk = true

/-- Without the headers the path of a dynamic response is the same for any number of them. -/
theorem uses_js_of_not {r : Allocation} (h : r.isHeader = false) (n : ℕ) (bufferOk : Bool)
    (m : Moment) : uses r (processHttp1Request false (.js n bufferOk) m) =
      uses r (processHttp1Request false (.js 0 bufferOk) m) := by
  have hset := uses_setHeaders_of_not h n
  have hfree := uses_freeHeaders_of_not h n
  have hset₀ := uses_setHeaders_of_not h 0
  have hfree₀ := uses_freeHeaders_of_not h 0
  obtain ⟨alive, closing, writeOk⟩ := m
  cases bufferOk
  · simp [processHttp1Request, invokeFunction, responseEnd, uses_cons, hset, hset₀]
  · cases alive <;> cases closing <;>
      simp [processHttp1Request, invokeFunction, responseEnd, send, uses_cons, hset, hset₀, hfree,
        hfree₀]

theorem releasedOnce_dynamic (n : ℕ) :
    ReleasedOnce (processHttp1Request false (.js n true) ⟨true, false, true⟩) := by
  rw [releasedOnce_iff]
  intro r
  have hheader : ∀ j, r = headerKey j ∨ r = headerValue j →
      uses r (processHttp1Request false (.js n true) ⟨true, false, true⟩) = [] ∨
        uses r (processHttp1Request false (.js n true) ⟨true, false, true⟩) =
          [acquire r, release r] := by
    intro j hr
    have huses : uses r (processHttp1Request false (.js n true) ⟨true, false, true⟩) =
        uses r (setHeaders n) ++ uses r (freeHeaders n) := by
      rcases hr with rfl | rfl <;>
        simp [processHttp1Request, invokeFunction, responseEnd, send, onWriteCb, uses_cons, resource]
    rw [huses, uses_setHeaders hr, uses_freeHeaders hr]
    by_cases hj : j < n
    · rw [if_pos hj, if_pos hj]
      exact .inr rfl
    · rw [if_neg hj, if_neg hj]
      exact .inl rfl
  cases r with
  | headerKey j => exact hheader j (.inl rfl)
  | headerValue j => exact hheader j (.inr rfl)
  | _ =>
    rw [uses_js_of_not rfl]
    exact .inr rfl

/-- The `RequestObject` of an upgrade, of a 404 and of an abort is not deleted. -/
theorem request_leaks {isUpgrade : Bool} {route : Route} (m : Moment)
    (h : isUpgrade = true ∨ route = .missing ∨ ∃ n, route = .js n false) :
    ¬ReleasedOnce (processHttp1Request isUpgrade route m) := by
  apply not_releasedOnce_of_leak (r := request)
  cases isUpgrade with
  | true => rfl
  | false =>
    rcases h with hupgrade | rfl | ⟨n, rfl⟩
    · cases hupgrade
    · rfl
    · rw [uses_js_of_not rfl]
      obtain ⟨alive, closing, writeOk⟩ := m
      cases alive <;> cases closing <;> rfl

/-- A dynamic response that is dropped leaves its buffer behind, and one that `uv_write`
does not accept leaves the copy of it. -/
theorem buffer_leaks {n : ℕ} {m : Moment}
    (h : ¬(m.alive = true ∧ m.closing = false ∧ m.writeOk = true)) :
    ¬ReleasedOnce (processHttp1Request false (.js n true) m) := by
  obtain ⟨alive, closing, writeOk⟩ := m
  cases alive
  · apply not_releasedOnce_of_leak (r := responseBuffer)
    rw [uses_js_of_not rfl]
    rfl
  cases closing
  · apply not_releasedOnce_of_leak (r := pendingWriteBuffer)
    cases writeOk
    · rw [uses_js_of_not rfl]
      rfl
    · exact absurd ⟨rfl, rfl, rfl⟩ h
  · apply not_releasedOnce_of_leak (r := responseBuffer)
    rw [uses_js_of_not rfl]
    rfl

/-- For every request and every way it can end: everything that it allocates is released
exactly once if and only if the path is one of those. -/
theorem releasedOnce_iff_clean (isUpgrade : Bool) (route : Route) (m : Moment) :
    ReleasedOnce (processHttp1Request isUpgrade route m) ↔ Clean isUpgrade route m := by
  cases isUpgrade with
  | true => exact iff_of_false (request_leaks m (.inl rfl)) fun h => absurd h.1 nofun
  | false =>
    cases route with
    | missing => exact iff_of_false (request_leaks m (.inr (.inl rfl))) fun h => h.2
    | staticFile =>
      refine iff_of_true ?_ ⟨rfl, trivial⟩
      obtain ⟨alive, closing, writeOk⟩ := m
      cases alive <;> cases closing <;> cases writeOk <;> decide
    | js n bufferOk =>
      cases bufferOk with
      | false =>
        exact iff_of_false (request_leaks m (.inr (.inr ⟨n, rfl⟩))) fun h => absurd h.2.1 nofun
      | true =>
        by_cases hm : m.alive = true ∧ m.closing = false ∧ m.writeOk = true
        · refine iff_of_true ?_ ⟨rfl, rfl, hm⟩
          obtain ⟨alive, closing, writeOk⟩ := m
          obtain ⟨rfl, rfl, rfl⟩ := hm
          exact releasedOnce_dynamic n
        · exact iff_of_false (buffer_leaks hm) fun h => hm h.2.2

/-- A request for a URI without a handler. -/
theorem request_of_404_leaks :
    ¬ReleasedOnce (processHttp1Request false .missing ⟨true, false, true⟩) := by
  decide

/-! ## The log and the server -/

theorem mem_send_acquire {isStatic : Bool} {n : ℕ} {m : Moment} :
    acquire pendingWriteBuffer ∈ send isStatic n m ↔
      isStatic = false ∧ m.alive = true ∧ m.closing = false := by
  obtain ⟨alive, closing, writeOk⟩ := m
  cases alive <;> cases closing <;> cases isStatic <;> cases writeOk <;>
    simp [send, freeHeaders, onWriteCb]

theorem mem_send_release {isStatic : Bool} {n : ℕ} {m : Moment} :
    release pendingWriteBuffer ∈ send isStatic n m ↔
      isStatic = false ∧ m.alive = true ∧ m.closing = false ∧ m.writeOk = true := by
  obtain ⟨alive, closing, writeOk⟩ := m
  cases alive <;> cases closing <;> cases isStatic <;> cases writeOk <;>
    simp [send, freeHeaders, onWriteCb]

end Allocation

/-- The moment at which response `r` is ended in a state of the server. -/
def State.moment (s : State) (r : ResponseObject) (ok : Bool) : Moment where
  alive := (s.guards.live r.guard).any (·.alive)
  closing := (s.clients.live r.cli).any (·.closing)
  writeOk := ok && (s.clients.live r.cli).any (·.socket.connected)

section
open CapyJs.Http CapyJs.Pool ClientState

/-- The server does with `pending_write_buffer` what the log says: the body is put there
when the log acquires it, and `on_write_cb` is pending when the log releases it. -/
theorem Settled.send_log {parse : Text → PhrResult} {hist out : List Output} {s s' : State}
    {k : ℕ} {isStatic ok : Bool} {body : Text} {r : ResponseObject} {c : ClientState}
    (hi : Settled hist s) (hr : s.responses[k]? = some r) (hlive : s.clients.live r.cli = some c)
    (hs : s.step parse (.send k isStatic body ok) = some (s', out)) (n : ℕ) :
    ∃ c', s'.clients.live r.cli = some c' ∧
      c'.pendingWriteBuffer =
        (if .acquire .pendingWriteBuffer ∈ Allocation.send isStatic n (s.moment r ok)
          then some body else c.pendingWriteBuffer) ∧
      (.release .pendingWriteBuffer ∈ Allocation.send isStatic n (s.moment r ok) ↔
        c'.socket.writes = c.socket.writes ++ [WriteCb.onWrite]) := by
  simp only [State.step] at hs
  split_ifs at hs
  obtain ⟨r', gd, s₁, hr', hderef, -, hrel, hcases⟩ := State.endResponse_cases hs
  rw [hr] at hr'
  cases hr'
  obtain ⟨gd', hgd⟩ := hi.inv.guards.of_response (List.mem_of_getElem? hr)
  rw [MemPool.deref_of_live hgd] at hderef
  cases hderef
  rw [State.releaseGuard_spec hrel]
  -- a response that is dropped leaves the connection alone
  have hdropped : s₁ = { s with responses := s.responses.eraseIdx k } →
      ¬((s.moment r ok).alive = true ∧ (s.moment r ok).closing = false) →
      ∃ c', s₁.clients.live r.cli = some c' ∧
        c'.pendingWriteBuffer =
          (if .acquire .pendingWriteBuffer ∈ Allocation.send isStatic n (s.moment r ok)
            then some body else c.pendingWriteBuffer) ∧
        (.release .pendingWriteBuffer ∈ Allocation.send isStatic n (s.moment r ok) ↔
          c'.socket.writes = c.socket.writes ++ [WriteCb.onWrite]) := by
    rintro rfl hgone
    refine ⟨c, hlive, ?_, ?_⟩
    · rw [if_neg fun hmem => hgone (Allocation.mem_send_acquire.mp hmem).2]
    · refine iff_of_false (fun hmem => ?_) (by simp)
      obtain ⟨-, halive, hopen, -⟩ := Allocation.mem_send_release.mp hmem
      exact hgone ⟨halive, hopen⟩
  rcases hcases with ⟨hdead, hs₁⟩ | ⟨halive, d, hd, ⟨hclosing, hs₁⟩ | ⟨hopen, next, hclient⟩⟩
  · apply hdropped hs₁
    simp [State.moment, hgd, hdead]
  · rw [MemPool.deref_of_live hlive] at hd
    cases hd
    apply hdropped hs₁
    simp [State.moment, hlive, hclosing]
  · rw [MemPool.deref_of_live hlive] at hd
    cases hd
    obtain ⟨eff, p, heff, -, -, rfl⟩ := State.onClient_spec hclient
    cases heff
    obtain ⟨hrep, -⟩ := MemPool.modify_spec hi.inv.clients.wf hlive fun _ =>
      c.startSend isStatic body ok
    refine ⟨_, (hrep.live_eq r.cli).trans (if_pos rfl), ?_, ?_⟩
    · simp only [Allocation.mem_send_acquire]
      cases isStatic <;> simp [startSend, State.moment, hgd, halive, hlive, hopen]
    · rw [Allocation.mem_send_release]
      cases isStatic <;> cases ok <;> cases hconnected : c.socket.connected <;>
        simp [startSend, Socket.write, State.moment, hgd, halive, hlive, hopen, hconnected]

end
end CapyJs.Server
