import CapyJs.Http.RequestText
import CapyJs.Server.KeepAlive

/-!
# Peers that wait for their responses

With the vendored parser the requests of a connection are the texts that it accepts. A
peer that sends a request only when the one before has been answered has every request
dispatched once and in order, whatever the sizes of the reads are and whatever happens on
other connections.
-/
namespace CapyJs.Server

open CapyJs.Http CapyJs.Pool CapyJs.Transition ClientState

section
variable {parse : Text → PhrResult} {n : ℕ} {rs : List (KeepAliveRequest parse)}
  {hist out : List Output}

/-- The peer of connection `n` sends bytes only when no response is on its way, and only
bytes of the request that comes next. -/
def Patient (n : ℕ) (rs : List (KeepAliveRequest parse)) (hist : List Output) : Prop :=
  ∀ before bytes after, hist = before ++ .received n bytes :: after →
    (RequestLog.of n rs before).busy = false ∧
      ∃ r ∈ (RequestLog.of n rs before).todo.head?,
        (RequestLog.of n rs before).buf ++ bytes <+: r.bytes

namespace Patient

theorem of_append (h : Patient n rs (hist ++ out)) : Patient n rs hist := by
  intro before bytes after heq
  refine h before bytes (after ++ out) ?_
  rw [heq]
  simp

/-- What the observer of a patient peer knows. -/
structure Known (n : ℕ) (rs : List (KeepAliveRequest parse)) (hist : List Output) : Prop where
  bytes : received n hist =
    KeepAliveRequest.wire ((RequestLog.of n rs hist).completed.map Prod.fst) ++
      (RequestLog.of n rs hist).buf
  all : (RequestLog.of n rs hist).completed.map Prod.fst ++ (RequestLog.of n rs hist).todo = rs
  begun : (RequestLog.of n rs hist).buf ≠ [] →
    ∃ r ∈ (RequestLog.of n rs hist).todo.head?, (RequestLog.of n rs hist).buf <+: r.bytes
  taken : ∀ e ∈ (RequestLog.of n rs hist).completed, e.2 = false

/-- A response that is started or done changes nothing the observer knows of the bytes. -/
theorem Known.silent (h : Known n rs hist) {busy : Bool} {o : Output}
    (hlog : RequestLog.of n rs (hist ++ [o]) = { RequestLog.of n rs hist with busy })
    (ho : received n [o] = []) : Known n rs (hist ++ [o]) := by
  refine ⟨?_, ?_, ?_, ?_⟩
  · rw [hlog, received_append, ho, List.append_nil, h.bytes]
  · rw [hlog, h.all]
  · rw [hlog]
    exact h.begun
  · rw [hlog]
    exact h.taken

theorem Known.received (h : Known n rs hist) {bytes : Text}
    (hbusy : (RequestLog.of n rs hist).busy = false) {r : KeepAliveRequest parse}
    (hr : r ∈ (RequestLog.of n rs hist).todo.head?)
    (hbytes : (RequestLog.of n rs hist).buf ++ bytes <+: r.bytes) :
    Known n rs (hist ++ [.received n bytes]) := by
  obtain ⟨rest, htodo⟩ : ∃ rest, (RequestLog.of n rs hist).todo = r :: rest :=
    List.head?_eq_some_iff.mp hr
  have hall := h.all
  have hreceived : Server.received n (hist ++ [.received n bytes]) =
      KeepAliveRequest.wire ((RequestLog.of n rs hist).completed.map Prod.fst) ++
        ((RequestLog.of n rs hist).buf ++ bytes) := by
    rw [received_append, h.bytes]
    simp [Server.received]
  by_cases hlast : (RequestLog.of n rs hist).buf ++ bytes = r.bytes
  · have hlog : RequestLog.of n rs (hist ++ [.received n bytes]) =
        ⟨rest, [], false, (RequestLog.of n rs hist).completed ++ [(r, false)]⟩ := by
      rw [Tracks.of_received, RequestLog.receive, htodo]
      simp only [hlast, if_true, hbusy]
    refine ⟨?_, ?_, ?_, ?_⟩
    · rw [hlog, hreceived, hlast]
      simp [KeepAliveRequest.wire_append]
    · rw [hlog]
      rw [htodo] at hall
      simpa using hall
    · rw [hlog]
      exact fun hne => absurd rfl hne
    · rw [hlog]
      intro e he
      rcases List.mem_append.mp he with he | he
      · exact h.taken e he
      · rw [List.mem_singleton.mp he]
  · have hlog : RequestLog.of n rs (hist ++ [.received n bytes]) =
        { RequestLog.of n rs hist with buf := (RequestLog.of n rs hist).buf ++ bytes } := by
      rw [Tracks.of_received, RequestLog.receive, htodo]
      simp only [hlast, if_false]
      rw [← htodo]
    refine ⟨?_, ?_, ?_, ?_⟩
    · rw [hlog, hreceived]
    · rw [hlog]
      exact hall
    · rw [hlog]
      exact fun _ => ⟨r, hr, hbytes⟩
    · rw [hlog]
      exact h.taken

theorem known (h : Patient n rs hist) : Known n rs hist := by
  induction hist using List.reverseRecOn with
  | nil => exact ⟨rfl, rfl, fun hne => absurd rfl hne, by simp [RequestLog.of]⟩
  | append_singleton hist o ih =>
    have hknown := ih h.of_append
    by_cases ho : o.concerns = some n
    · cases o with
      | received m bytes =>
        obtain rfl : m = n := Option.some.inj ho
        obtain ⟨hbusy, r, hr, hbytes⟩ := h hist bytes [] rfl
        exact hknown.received hbusy hr hbytes
      | invoked m req found =>
        obtain rfl : m = n := Option.some.inj ho
        exact hknown.silent (Tracks.of_invoked m rs hist req found) rfl
      | written m =>
        obtain rfl : m = n := Option.some.inj ho
        exact hknown.silent (Tracks.of_written m rs hist) rfl
      | _ => cases ho
    · have hother : ∀ o' ∈ [o], o'.concerns ≠ some n := by
        intro o' ho'
        rwa [List.mem_singleton.mp ho']
      have hlog : RequestLog.of n rs (hist ++ [o]) =
          { RequestLog.of n rs hist with busy := (RequestLog.of n rs hist).busy } := by
        rw [RequestLog.of, List.foldl_append, foldl_step_of_irrelevant hother]
        rfl
      exact hknown.silent hlog (received_of_irrelevant hother)

theorem received_prefix (h : Patient n rs hist) : received n hist <+: KeepAliveRequest.wire rs := by
  have hknown := h.known
  have hwire : KeepAliveRequest.wire rs =
      KeepAliveRequest.wire ((RequestLog.of n rs hist).completed.map Prod.fst) ++
        KeepAliveRequest.wire (RequestLog.of n rs hist).todo := by
    rw [← KeepAliveRequest.wire_append, hknown.all]
  rw [hknown.bytes, hwire, List.prefix_append_right_inj]
  by_cases hbuf : (RequestLog.of n rs hist).buf = []
  · rw [hbuf]
    exact List.nil_prefix
  · obtain ⟨r, hr, hpre⟩ := hknown.begun hbuf
    obtain ⟨rest, htodo⟩ : ∃ rest, (RequestLog.of n rs hist).todo = r :: rest :=
      List.head?_eq_some_iff.mp hr
    rw [htodo, KeepAliveRequest.wire_cons]
    exact hpre.trans (List.prefix_append _ _)

/-- Every completed request has been taken. -/
theorem taken_eq (h : Patient n rs hist) :
    (RequestLog.of n rs hist).taken = (RequestLog.of n rs hist).completed.map Prod.fst := by
  rw [RequestLog.taken, List.filter_eq_self.mpr]
  intro e he
  rw [h.known.taken e he]
  rfl

/-- A read that completes a request ends with it. -/
theorem requestEndsRead {s s' : State} {a : Label} (ha : Agrees n rs hist s) (hi : Settled hist s)
    (hs : s.step parse a = some (s', out)) (h : Patient n rs (hist ++ out)) :
    Server.requestEndsRead parse n s a = true := by
  cases a with
  | read nread handler ok =>
    obtain ⟨hd, hh, hrun⟩ := State.read_spec hs
    obtain ⟨c, hlive, ⟨b, bytes, -, rfl, -, hdata⟩ | ⟨hnone, -⟩⟩ := State.onRead_cases hrun
    · obtain ⟨_, _, rest, -, rfl, -⟩ := State.onReadData_cases hdata
      have hlive' : s.clients.live hd.client = some c := hlive
      by_cases hn : c.conn = n
      · subst hn
        obtain ⟨-, c', hc', hactive⟩ := hi.handed hd hh
        obtain rfl : c = c' := Option.some.inj (hlive'.symm.trans hc')
        have htracks := ha.tracks hd.client c hlive' rfl hactive h.of_append.received_prefix
        obtain ⟨-, r, -, hpre⟩ := h hist bytes rest rfl
        rw [← htracks.buf] at hpre
        simp only [Server.requestEndsRead, hh, Option.bind_some, hlive', bne_self_eq_false,
          Bool.false_or]
        by_cases hlast : c.flattenBuffer ++ bytes = r.bytes
        · have hparse := r.complete []
          rw [List.append_nil] at hparse
          rw [hlast, hparse]
          simp
        · have hlt : (c.flattenBuffer ++ bytes).length < r.bytes.length := by
            refine Nat.lt_of_le_of_ne hpre.length_le fun hlen => hlast ?_
            exact hpre.eq_of_length hlen
          rw [r.incomplete _ hpre hlt]
      · simp only [Server.requestEndsRead, hh, Option.bind_some, hlive']
        split <;> simp [hn]
    · cases nread with
      | data bytes => exact absurd rfl (hnone bytes)
      | _ => rfl
  | _ => rfl

end Patient

/-- On every open connection whose peer is patient, each complete request has led to one call
of `invoke_function`, in order. -/
theorem invocations_of_patient {s : State} (run : (machine parse).Reaches s hist) {i : ℕ}
    {c : ClientState} (hlive : s.clients.live i = some c) (hn : c.conn = n)
    (hopen : c.socket.phase = .active) (hpatient : Patient n rs hist) :
    invocations n hist =
      ((RequestLog.of n rs hist).completed.map Prod.fst).map KeepAliveRequest.object ∧
      ∀ r ∈ (RequestLog.of n rs hist).todo.head?,
        (RequestLog.of n rs hist).buf.length < r.bytes.length := by
  have hagrees : Settled hist s ∧ (Patient n rs hist → Agrees n rs hist s) := by
    apply run.invariant (I := fun hist s => Settled hist s ∧ (Patient n rs hist → Agrees n rs hist s))
    · intro s₀ h
      exact ⟨State.Initial.settled h, fun _ => .of_initial h⟩
    · intro hist s a s' out h hstep
      refine ⟨h.1.step hstep, fun hpatient => ?_⟩
      have hold := h.2 hpatient.of_append
      exact hold.step h.1 (hpatient.requestEndsRead hold h.1 hstep) hstep
  have htracks := (hagrees.2 hpatient).tracks i c hlive hn hopen hpatient.received_prefix
  exact ⟨by rw [htracks.invoked, hpatient.taken_eq], htracks.short⟩

end

/-! ## With the vendored parser -/

/-- A request with at most 100 header lines that asks for no upgrade. -/
structure PlainRequest where
  text : Pico.RequestText
  lines_le : text.lines.length ≤ 100
  noUpgrade : (parseWSUpgrade (text.lines.map Pico.HeaderLine.header)).isUpgrade = false

namespace PlainRequest

/-- What `invoke_function` is called with. -/
def object (r : PlainRequest) : RequestObject := ⟨r.text.method.take 15, r.text.path.take 511⟩

/-- The parser of the server takes the request for what it is. -/
def keepAlive (sse : Bool) (r : PlainRequest) :
    KeepAliveRequest (Pico.phrParseRequest sse 100) where
  bytes := r.text.bytes
  method := r.text.method
  path := r.text.path
  headers := r.text.lines.map Pico.HeaderLine.header
  nonempty := by
    have hne := r.text.method_ne_nil
    simp [Pico.RequestText.bytes, hne]
  complete := Pico.phrParseRequest_bytes sse r.text r.lines_le
  incomplete _ hp hlt := Pico.phrParseRequest_of_prefix sse r.text r.lines_le hp hlt
  noUpgrade := r.noUpgrade
  noZero := by
    constructor
    · intro h
      exact absurd (r.text.method_token 0 h) (by decide)
    · intro h
      exact absurd (r.text.path_plain 0 h) (by decide)

end PlainRequest

/-- Every patient peer is served: the requests it has sent completely are the first of its
requests, `invoke_function` has been called once for each of them, in order, and what
else it has sent is a beginning of the next one. -/
theorem patient_peer_served (sse : Bool) (n : ℕ) (rs : List PlainRequest) {s : State}
    {hist : List Output} (run : (machine (Pico.phrParseRequest sse 100)).Reaches s hist) {i : ℕ}
    {c : ClientState} (hlive : s.clients.live i = some c) (hn : c.conn = n)
    (hopen : c.socket.phase = .active)
    (hpatient : Patient n (rs.map (PlainRequest.keepAlive sse)) hist) :
    ∃ done rest part, rs = done ++ rest ∧ invocations n hist = done.map PlainRequest.object ∧
      received n hist = done.flatMap (fun r => r.text.bytes) ++ part ∧
      (part = [] ∨ ∃ r ∈ rest.head?, part <+: r.text.bytes ∧ part.length < r.text.bytes.length) := by
  obtain ⟨hinvoked, hshort⟩ := invocations_of_patient run hlive hn hopen hpatient
  have hknown := hpatient.known
  obtain ⟨done, rest, hrs, hdone, hrest⟩ := List.map_eq_append_iff.mp hknown.all.symm
  refine ⟨done, rest, (RequestLog.of n (rs.map (PlainRequest.keepAlive sse)) hist).buf, hrs, ?_, ?_,
    ?_⟩
  · rw [hinvoked, ← hdone, List.map_map]
    rfl
  · rw [hknown.bytes, ← hdone, KeepAliveRequest.wire, Stream.wire, List.map_map, List.map_map,
      List.flatMap_def]
    rfl
  · rw [or_iff_not_imp_left]
    intro hne
    obtain ⟨r, hr, hpre⟩ := hknown.begun hne
    have hlt := hshort r hr
    rw [← hrest, List.head?_map, Option.mem_def, Option.map_eq_some_iff] at hr
    obtain ⟨r', hr', rfl⟩ := hr
    exact ⟨r', hr', hpre, hlt⟩

/-- `GET / HTTP/1.1` without headers. -/
def plainGetRoot : PlainRequest where
  text :=
    { before := none, method := [71, 69, 84], gap := 0, path := [47], gap' := 0, minorVersion := 49
      ending := .crlf, lines := [], last := .crlf
      method_ne_nil := by decide
      method_token := by decide +kernel
      path_ne_nil := by decide
      path_plain := by decide +kernel
      minorVersion_digit := by decide
      lines_start := by simp }
  lines_le := by decide
  noUpgrade := by decide

/-- The request comes in two reads. -/
def splitRequest : List Output :=
  [.accepted 0, .received 0 (getRoot.take 9), .received 0 (getRoot.drop 9),
    .invoked 0 ⟨[71, 69, 84], [47]⟩ (some 0)]

theorem patient_peer_served_getRoot :
    ∃ done rest part, [plainGetRoot, plainGetRoot] = done ++ rest ∧
      invocations 0 splitRequest = done.map PlainRequest.object ∧
      received 0 splitRequest = done.flatMap (fun r => r.text.bytes) ++ part ∧
      (part = [] ∨ ∃ r ∈ rest.head?, part <+: r.text.bytes ∧ part.length < r.text.bytes.length) := by
  let labels : List Label := [.peerConnected true true, .allocBuffer 0,
    .read (.data (getRoot.take 9)) true true, .allocBuffer 0,
    .read (.data (getRoot.drop 9)) true true]
  obtain ⟨s, hrun, hlive⟩ : ∃ s,
      (machine (Pico.phrParseRequest false 100)).exec oneConnection labels = some (s, splitRequest) ∧
        s.clients.live 0 = some { State.newClient 0 0 true true with writeInFlight := true } :=
    ⟨_, rfl, rfl⟩
  have hpatient : Patient 0 ([plainGetRoot, plainGetRoot].map (PlainRequest.keepAlive false))
      splitRequest := by
    intro before bytes after heq
    rcases before with _ | ⟨o₁, _ | ⟨o₂, _ | ⟨o₃, _ | ⟨o₄, before⟩⟩⟩⟩
    all_goals simp only [splitRequest, List.nil_append, List.cons_append, List.cons.injEq,
      reduceCtorEq, false_and, and_false, List.nil_eq, List.append_eq_nil_iff] at heq
    · obtain ⟨rfl, heq, -⟩ := heq
      cases heq
      exact ⟨rfl, _, rfl, by decide⟩
    · obtain ⟨rfl, rfl, heq, -⟩ := heq
      cases heq
      exact ⟨rfl, _, rfl, by decide⟩
  exact patient_peer_served false 0 [plainGetRoot, plainGetRoot]
    (Machine.reaches_exec labels oneConnection_initial hrun) hlive rfl rfl hpatient

end CapyJs.Server
