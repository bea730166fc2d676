import CapyJs.Server.ConnectionInvariant
import CapyJs.Server.Machine
import CapyJs.Stream.Framing

/-!
# The requests of one connection as an observer counts them

The observer knows the requests the peer sends and sees the bytes of each read,
the calls of `invoke_function` and the responses that have been written. From
that follows which requests are complete, and which of them were completed while
a response was still on its way. The connection agrees with the observer as long
as no read carries bytes beyond the end of the request it completes.
-/
namespace CapyJs.Server

open CapyJs.Http ClientState

/-- A request without a body that is not an upgrade, and what the parser makes of it. -/
structure KeepAliveRequest (parse : Text → PhrResult) where
  bytes : Text
  method : Text
  path : Text
  headers : List Header
  nonempty : bytes ≠ []
  complete : ∀ rest, parse (bytes ++ rest) = .request bytes.length method path headers
  incomplete : ∀ p, p <+: bytes → p.length < bytes.length → parse p = .incomplete
  noUpgrade : (parseWSUpgrade headers).isUpgrade = false
  noZero : 0 ∉ method ∧ 0 ∉ path

variable {parse : Text → PhrResult}

namespace KeepAliveRequest

def message (r : KeepAliveRequest parse) : Stream.Message UInt8 (Text × Text) :=
  ⟨r.bytes, r.method, r.path⟩

/-- The bytes of a sequence of requests. -/
def wire (rs : List (KeepAliveRequest parse)) : Text := Stream.wire (rs.map message)

@[simp] theorem wire_nil : wire ([] : List (KeepAliveRequest parse)) = [] := rfl

@[simp] theorem wire_cons (r : KeepAliveRequest parse) (rs : List (KeepAliveRequest parse)) :
    wire (r :: rs) = r.bytes ++ wire rs := rfl

theorem wire_append (rs rs' : List (KeepAliveRequest parse)) :
    wire (rs ++ rs') = wire rs ++ wire rs' := by
  simp [wire, Stream.wire]

/-- What `invoke_function` is called with: 15 bytes of the method, 511 of the path. -/
def object (r : KeepAliveRequest parse) : RequestObject := ⟨r.method.take 15, r.path.take 511⟩

theorem fill_eq_object (r : KeepAliveRequest parse) : .fill r.method r.path = r.object := by
  have hmethod : 0 ∉ r.method.take 15 := fun h => r.noZero.1 (List.mem_of_mem_take h)
  have hpath : 0 ∉ r.path.take 511 := fun h => r.noZero.2 (List.mem_of_mem_take h)
  rw [RequestObject.fill, cString_eq_self hmethod, cString_eq_self hpath]
  rfl

end KeepAliveRequest

/-! ## The observer -/

/-- The requests not yet complete, the bytes of the first of them that have arrived,
whether a response is on its way, and the requests completed, each with whether a response
was on its way at that time. -/
structure RequestLog (parse : Text → PhrResult) where
  todo : List (KeepAliveRequest parse)
  buf : Text
  busy : Bool
  completed : List (KeepAliveRequest parse × Bool)

namespace RequestLog

def receive (log : RequestLog parse) (bytes : Text) : RequestLog parse :=
  match log.todo with
  | [] => { log with buf := log.buf ++ bytes }
  | r :: rest =>
    if log.buf ++ bytes = r.bytes then
      { log with todo := rest, buf := [], completed := log.completed ++ [(r, log.busy)] }
    else { log with buf := log.buf ++ bytes }

def step (n : ℕ) (log : RequestLog parse) : Output → RequestLog parse
  | .received m bytes => if m = n then log.receive bytes else log
  | .invoked m _ _ => if m = n then { log with busy := true } else log
  | .written m => if m = n then { log with busy := false } else log
  | _ => log

/-- What the observer of connection `n` knows after a history. -/
def of (n : ℕ) (rs : List (KeepAliveRequest parse)) (hist : List Output) : RequestLog parse :=
  hist.foldl (step n) ⟨rs, [], false, []⟩

/-- The requests completed while no response was on its way. -/
def taken (log : RequestLog parse) : List (KeepAliveRequest parse) :=
  (log.completed.filter fun e => !e.2).map Prod.fst

end RequestLog

/-- The connection whose bytes, calls or responses an output shows. -/
def Output.concerns : Output → Option ℕ
  | .received m _ | .invoked m _ _ | .written m => some m
  | _ => none

/-- The bytes that connection `n` has received. -/
def received (n : ℕ) (hist : List Output) : Text :=
  hist.flatMap fun
    | .received m bytes => if m = n then bytes else []
    | _ => []

/-- The calls of `invoke_function` for connection `n`. -/
def invocations (n : ℕ) (hist : List Output) : List RequestObject :=
  hist.filterMap fun
    | .invoked m req _ => if m = n then some req else none
    | _ => none

theorem received_append (n : ℕ) (hist out : List Output) :
    received n (hist ++ out) = received n hist ++ received n out :=
  List.flatMap_append

theorem invocations_append (n : ℕ) (hist out : List Output) :
    invocations n (hist ++ out) = invocations n hist ++ invocations n out :=
  List.filterMap_append

section Irrelevant
variable {n : ℕ} {out : List Output}

theorem received_of_irrelevant (h : ∀ o ∈ out, o.concerns ≠ some n) : received n out = [] := by
  apply List.flatMap_eq_nil_iff.mpr
  intro o ho
  have hn := h o ho
  cases o with
  | received m bytes => exact if_neg fun hm => hn (congrArg some hm)
  | _ => rfl

theorem invocations_of_irrelevant (h : ∀ o ∈ out, o.concerns ≠ some n) :
    invocations n out = [] := by
  apply List.filterMap_eq_nil_iff.mpr
  intro o ho
  have hn := h o ho
  cases o with
  | invoked m req handler => exact if_neg fun hm => hn (congrArg some hm)
  | _ => rfl

theorem foldl_step_of_irrelevant (h : ∀ o ∈ out, o.concerns ≠ some n) (log : RequestLog parse) :
    out.foldl (RequestLog.step n) log = log := by
  induction out with
  | nil => rfl
  | cons o out ih =>
    have hn := h o List.mem_cons_self
    have hstep : log.step n o = log := by
      cases o with
      | received m bytes => exact if_neg fun hm => hn (congrArg some hm)
      | invoked m req handler => exact if_neg fun hm => hn (congrArg some hm)
      | written m => exact if_neg fun hm => hn (congrArg some hm)
      | _ => rfl
    rw [List.foldl_cons, hstep]
    exact ih fun o' ho' => h o' (List.mem_cons_of_mem _ ho')

end Irrelevant

/-! ## A connection and its observer -/

/-- The connection and the observer of its history agree. -/
structure Tracks (n : ℕ) (rs : List (KeepAliveRequest parse)) (hist : List Output)
    (c : ClientState) : Prop where
  http : c.connProtocol = .http1
  buf : c.flattenBuffer = (RequestLog.of n rs hist).buf
  busy : c.writeInFlight = (RequestLog.of n rs hist).busy
  invoked : invocations n hist = (RequestLog.of n rs hist).taken.map KeepAliveRequest.object
  bytes : received n hist =
    KeepAliveRequest.wire ((RequestLog.of n rs hist).completed.map Prod.fst) ++
      (RequestLog.of n rs hist).buf
  all : (RequestLog.of n rs hist).completed.map Prod.fst ++ (RequestLog.of n rs hist).todo = rs
  short : ∀ r ∈ (RequestLog.of n rs hist).todo.head?,
    (RequestLog.of n rs hist).buf.length < r.bytes.length

namespace Tracks
variable {n : ℕ} {rs : List (KeepAliveRequest parse)} {hist : List Output} {c c' : ClientState}

theorem irrelevant (h : Tracks n rs hist c) {out : List Output}
    (hout : ∀ o ∈ out, o.concerns ≠ some n) : Tracks n rs (hist ++ out) c := by
  have hlog : RequestLog.of n rs (hist ++ out) = RequestLog.of n rs hist := by
    rw [RequestLog.of, List.foldl_append, foldl_step_of_irrelevant hout]
    rfl
  refine ⟨h.http, ?_, ?_, ?_, ?_, ?_, ?_⟩
  · rw [hlog, h.buf]
  · rw [hlog, h.busy]
  · rw [hlog, invocations_append, invocations_of_irrelevant hout, List.append_nil, h.invoked]
  · rw [hlog, received_append, received_of_irrelevant hout, List.append_nil, h.bytes]
  · rw [hlog, h.all]
  · rw [hlog]
    exact h.short

/-- The observer sees the protocol, the chain and `write_in_flight`, nothing else. -/
theorem congr (h : Tracks n rs hist c) (hhttp : c'.connProtocol = c.connProtocol)
    (hrecv : c'.recv = c.recv) (hbusy : c'.writeInFlight = c.writeInFlight) :
    Tracks n rs hist c' := by
  refine ⟨hhttp.trans h.http, ?_, hbusy.trans h.busy, h.invoked, h.bytes, h.all, h.short⟩
  rw [flattenBuffer, hrecv]
  exact h.buf

/-- A connection that nothing is known about yet. -/
theorem fresh (hhist : ∀ o ∈ hist, o.concerns ≠ some n) (hhttp : c.connProtocol = .http1)
    (hrecv : c.recv = []) (hbusy : c.writeInFlight = false) : Tracks n rs hist c := by
  have hlog : RequestLog.of n rs hist = ⟨rs, [], false, []⟩ := foldl_step_of_irrelevant hhist _
  refine ⟨hhttp, ?_, ?_, ?_, ?_, ?_, ?_⟩
  · rw [hlog, flattenBuffer, hrecv]
    rfl
  · rw [hlog, hbusy]
  · rw [hlog, invocations_of_irrelevant hhist]
    rfl
  · rw [hlog, received_of_irrelevant hhist]
    rfl
  · rw [hlog]
    rfl
  · intro r _
    rw [hlog]
    exact List.length_pos_iff.mpr r.nonempty

theorem of_received (n : ℕ) (rs : List (KeepAliveRequest parse)) (hist : List Output)
    (bytes : Text) :
    RequestLog.of n rs (hist ++ [Output.received n bytes]) =
      (RequestLog.of n rs hist).receive bytes := by
  rw [RequestLog.of, List.foldl_append]
  exact if_pos rfl

theorem of_invoked (n : ℕ) (rs : List (KeepAliveRequest parse)) (hist : List Output)
    (req : RequestObject) (found : Option ℕ) :
    RequestLog.of n rs (hist ++ [Output.invoked n req found]) =
      { RequestLog.of n rs hist with busy := true } := by
  rw [RequestLog.of, List.foldl_append]
  exact if_pos rfl

theorem of_written (n : ℕ) (rs : List (KeepAliveRequest parse)) (hist : List Output) :
    RequestLog.of n rs (hist ++ [Output.written n]) =
      { RequestLog.of n rs hist with busy := false } := by
  rw [RequestLog.of, List.foldl_append]
  exact if_pos rfl

/-- The bytes collected after a read belong to the first request that is not complete. -/
theorem collected_prefix (h : Tracks n rs hist c) {bytes : Text}
    (hpre : received n hist ++ bytes <+: KeepAliveRequest.wire rs) :
    c.flattenBuffer ++ bytes <+: KeepAliveRequest.wire (RequestLog.of n rs hist).todo := by
  have hwire : KeepAliveRequest.wire rs =
      KeepAliveRequest.wire ((RequestLog.of n rs hist).completed.map Prod.fst) ++
        KeepAliveRequest.wire (RequestLog.of n rs hist).todo := by
    rw [← KeepAliveRequest.wire_append, h.all]
  rw [h.bytes, hwire, List.append_assoc, List.prefix_append_right_inj] at hpre
  rw [h.buf]
  exact hpre

/-- More bytes of a request that is still not complete. -/
theorem receive_short (h : Tracks n rs hist c) {r : KeepAliveRequest parse}
    {rest : List (KeepAliveRequest parse)} (htodo : (RequestLog.of n rs hist).todo = r :: rest)
    {rb : ReadBuffer} (hlt : (c.flattenBuffer ++ rb.bytes).length < r.bytes.length) :
    Tracks n rs (hist ++ [Output.received n rb.bytes]) (c.recvNewBuffer rb) := by
  have hne : (RequestLog.of n rs hist).buf ++ rb.bytes ≠ r.bytes := by
    intro heq
    rw [h.buf, heq] at hlt
    omega
  have hlog : RequestLog.of n rs (hist ++ [Output.received n rb.bytes]) =
      { RequestLog.of n rs hist with buf := (RequestLog.of n rs hist).buf ++ rb.bytes } := by
    simp only [of_received, RequestLog.receive, htodo, if_neg hne]
  refine ⟨h.http, ?_, ?_, ?_, ?_, ?_, ?_⟩
  · rw [hlog, flattenBuffer_recvNewBuffer, h.buf]
  · rw [hlog]
    exact h.busy
  · rw [hlog, invocations_append, h.invoked]
    exact List.append_nil _
  · rw [hlog, received_append, h.bytes]
    simp [received]
  · rw [hlog]
    exact h.all
  · rw [hlog]
    intro r' hr'
    simp only [htodo, List.head?_cons, Option.mem_some_iff] at hr'
    subst hr'
    simp only
    rw [← h.buf]
    exact hlt

/-- The observer after the last bytes of a request. -/
theorem receive_last (h : Tracks n rs hist c) {r : KeepAliveRequest parse}
    {rest : List (KeepAliveRequest parse)} (htodo : (RequestLog.of n rs hist).todo = r :: rest)
    {bytes : Text} (heq : c.flattenBuffer ++ bytes = r.bytes) :
    RequestLog.of n rs (hist ++ [Output.received n bytes]) =
      ⟨rest, [], (RequestLog.of n rs hist).busy,
        (RequestLog.of n rs hist).completed ++ [(r, (RequestLog.of n rs hist).busy)]⟩ := by
  rw [of_received, RequestLog.receive, htodo, ← h.buf]
  exact if_pos heq

/-- After the last bytes of a request it is complete, whether it was dropped or not, and the
next one begins. -/
theorem completes (h : Tracks n rs hist c) {r : KeepAliveRequest parse}
    {rest : List (KeepAliveRequest parse)} (htodo : (RequestLog.of n rs hist).todo = r :: rest)
    {bytes : Text} (heq : c.flattenBuffer ++ bytes = r.bytes) {out : List Output}
    {busy dropped : Bool}
    (hlog : RequestLog.of n rs (hist ++ out) =
      ⟨rest, [], busy, (RequestLog.of n rs hist).completed ++ [(r, dropped)]⟩)
    (hinvoked : invocations n out = if dropped then [] else [r.object])
    (hreceived : received n out = bytes) (hhttp : c'.connProtocol = c.connProtocol)
    (hrecv : c'.recv = []) (hbusy : c'.writeInFlight = busy) : Tracks n rs (hist ++ out) c' := by
  have hall := h.all
  rw [htodo] at hall
  refine ⟨hhttp.trans h.http, ?_, ?_, ?_, ?_, ?_, ?_⟩
  · rw [hlog, flattenBuffer, hrecv]
    rfl
  · rw [hlog, hbusy]
  · rw [hlog, invocations_append, h.invoked, hinvoked]
    cases dropped <;> simp [RequestLog.taken]
  · rw [hlog, received_append, h.bytes, List.append_assoc, ← h.buf, hreceived]
    simp [KeepAliveRequest.wire_append, heq]
  · rw [hlog]
    simpa using hall
  · rw [hlog]
    intro r' _
    exact List.length_pos_iff.mpr r'.nonempty

/-- The last bytes of a request while a response is on its way: it is dropped. -/
theorem receive_dropped (h : Tracks n rs hist c) {r : KeepAliveRequest parse}
    {rest : List (KeepAliveRequest parse)} (htodo : (RequestLog.of n rs hist).todo = r :: rest)
    {bytes : Text} (heq : c.flattenBuffer ++ bytes = r.bytes) (hbusy : c.writeInFlight = true)
    (hc' : c' = { c.clearBuffer with socket := c.socket.readStop }) :
    Tracks n rs (hist ++ [Output.received n bytes]) c' := by
  have hlog : RequestLog.of n rs (hist ++ [Output.received n bytes]) =
      ⟨rest, [], true, (RequestLog.of n rs hist).completed ++ [(r, true)]⟩ := by
    rw [h.receive_last htodo heq, ← h.busy, hbusy]
  subst hc'
  apply h.completes htodo heq hlog
  · rfl
  · simp [received]
  · rfl
  · rfl
  · exact hbusy

/-- The last bytes of a request while the connection is free: `invoke_function` is called. -/
theorem receive_taken (h : Tracks n rs hist c) {r : KeepAliveRequest parse}
    {rest : List (KeepAliveRequest parse)} (htodo : (RequestLog.of n rs hist).todo = r :: rest)
    {bytes : Text} (heq : c.flattenBuffer ++ bytes = r.bytes) (hbusy : c.writeInFlight = false)
    (hc' : c' = { c.clearBuffer with writeInFlight := true }) (found : Option ℕ) :
    Tracks n rs (hist ++ [Output.received n bytes, .invoked n r.object found]) c' := by
  have hlog : RequestLog.of n rs (hist ++ [Output.received n bytes, .invoked n r.object found]) =
      ⟨rest, [], true, (RequestLog.of n rs hist).completed ++ [(r, false)]⟩ := by
    rw [show hist ++ [Output.received n bytes, .invoked n r.object found] =
      (hist ++ [Output.received n bytes]) ++ [Output.invoked n r.object found] by simp, of_invoked,
      h.receive_last htodo heq, ← h.busy, hbusy]
  subst hc'
  apply h.completes htodo heq hlog
  · simp [invocations]
  · simp [received]
  · rfl
  · rfl
  · rfl

/-- A read that carries no bytes beyond the end of a request. -/
theorem data {handler : Bool} {eff : Effect} (h : Tracks n rs hist c) (rb : ReadBuffer)
    (hopen : c.closing = false) (hne : rb.bytes ≠ [])
    (hpre : received n hist ++ rb.bytes <+: KeepAliveRequest.wire rs)
    (hends : ∀ k method path headers,
      parse (c.flattenBuffer ++ rb.bytes) = .request k method path headers →
      k = (c.flattenBuffer ++ rb.bytes).length)
    (hs : c.onData parse rb handler = some eff) :
    (eff.next = .done ∧ Tracks n rs (hist ++ [Output.received n rb.bytes]) eff.client) ∨
      ∃ req, eff.next = .request req ∧ ∀ found,
        Tracks n rs (hist ++ [Output.received n rb.bytes, .invoked n req found]) eff.client := by
  rcases onData_cases hs with ⟨-, next, hproc, hnext⟩ | ⟨hws, -⟩
  · have hcollected := h.collected_prefix hpre
    cases htodo : (RequestLog.of n rs hist).todo with
    | nil =>
      rw [htodo, KeepAliveRequest.wire_nil, List.prefix_nil, List.append_eq_nil_iff] at hcollected
      exact absurd hcollected.2 hne
    | cons r rest =>
      rw [htodo, KeepAliveRequest.wire_cons] at hcollected
      rcases Nat.lt_or_ge (c.flattenBuffer ++ rb.bytes).length r.bytes.length with hlt | hge
      · -- still short of the request
        have hparse := r.incomplete _ (List.prefix_of_prefix_length_le hcollected
          (List.prefix_append _ _) (Nat.le_of_lt hlt)) hlt
        rcases processHttp1Request_cases hproc with ⟨-, hc, -, rfl⟩ | ⟨hbad, -⟩ |
          ⟨k, method, path, headers, hbad, -⟩
        · refine .inl ⟨hnext, ?_⟩
          rw [hc]
          exact h.receive_short htodo hlt
        · rw [hparse] at hbad
          cases hbad
        · rw [hparse] at hbad
          cases hbad
      · -- the parser takes the request, which is all there is
        obtain ⟨tail, htail⟩ := List.prefix_of_prefix_length_le (List.prefix_append r.bytes _)
          hcollected hge
        have hparse := r.complete tail
        rw [htail] at hparse
        have hlen := hends _ _ _ _ hparse
        have heq : c.flattenBuffer ++ rb.bytes = r.bytes := by
          have htotal := congrArg List.length htail
          rw [List.length_append] at htotal
          have hnil : tail = [] := List.length_eq_zero_iff.mp (by omega)
          rw [← htail, hnil, List.append_nil]
        rcases processHttp1Request_cases hproc with ⟨hbad, -⟩ | ⟨hbad, -⟩ |
          ⟨k, method, path, headers, hreq, -, ⟨hbusy, hc, rfl⟩ | ⟨hfree, -, hc, rfl⟩⟩
        · rw [hparse] at hbad
          cases hbad
        · rw [hparse] at hbad
          cases hbad
        · rw [hopen, Bool.or_false] at hbusy
          exact .inl ⟨hnext, h.receive_dropped htodo heq hbusy hc⟩
        · rw [hparse] at hreq
          cases hreq
          refine .inr ⟨r.object, ?_, h.receive_taken htodo heq hfree hc⟩
          rw [hnext, r.noUpgrade, ← r.fill_eq_object]
          rfl
  · rw [h.http] at hws
    cases hws

/-- The end of the connection's next write. -/
theorem writeDone {ok : Bool} (h : Tracks n rs hist c) (hconn : c.conn = n)
    (hs : c.writeDone ok = some c') : Tracks n rs (hist ++ c.written) c' := by
  have hfree : Tracks n rs (hist ++ [Output.written n]) { c with writeInFlight := false } := by
    refine ⟨h.http, ?_, ?_, ?_, ?_, ?_, ?_⟩
    · rw [of_written]
      exact h.buf
    · rw [of_written]
    · rw [of_written, invocations_append, h.invoked]
      exact List.append_nil _
    · rw [of_written, received_append, h.bytes]
      exact List.append_nil _
    · rw [of_written]
      exact h.all
    · rw [of_written]
      exact h.short
  have hsame : Tracks n rs (hist ++ []) c := by
    rw [List.append_nil]
    exact h
  unfold ClientState.writeDone at hs
  unfold ClientState.written
  rw [hconn]
  split at hs
  · cases hs
  · next cb rest hwrites =>
    rw [hwrites]
    cases cb with
    | onStaticWrite =>
      cases hs
      exact hfree.congr rfl rfl rfl
    | onWrite =>
      cases hs
      exact hfree.congr rfl rfl rfl
    | onAbortWrite =>
      cases hs
      exact hsame.congr rfl rfl rfl
    | freeRequest =>
      cases hs
      exact hsame.congr rfl rfl rfl

end Tracks
end CapyJs.Server
