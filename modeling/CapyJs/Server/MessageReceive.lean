import CapyJs.Server.ClientState
import CapyJs.Stream.Framing

/-!
# What a WebSocket connection makes of the bytes it is sent

Each read is appended to the receive chain and the flattened chain is parsed; one
frame is handled and the whole chain is released, so bytes behind that frame are
dropped with it. Every message arrives exactly when frames end where reads end.
-/
namespace CapyJs.Server.MessageReceive

open ClientState

/-- What a peer of the connection can observe: the JS calls, and bytes that were
received and thrown away unparsed. -/
inductive Delivery
  | message (text : Text)
  | dropped (bytes : Text)
  deriving DecidableEq, Repr

/-- `process_web_socket_request` with a JS handler set that leaves the connection alone. -/
def processWebSocketRequest (c : ClientState) (rb : ReadBuffer) :
    Option (ClientState × List Delivery) :=
  (c.receiveMessage true rb).map fun (c', rc, text) =>
    let tail := if rc = 0 then [] else c'.flattenBuffer.drop rc
    ((c'.finishMessage rc).1,
      text.toList.map .message ++ if tail.isEmpty then [] else [.dropped tail])

/-- Successive reads. -/
def receiveReads (c : ClientState) : List ReadBuffer → Option (ClientState × List Delivery)
  | [] => some (c, [])
  | rb :: reads =>
    match processWebSocketRequest c rb with
    | none => none
    | some (c', now) => (receiveReads c' reads).map fun r => (r.1, now ++ r.2)

/-- A complete masked text frame that fits the read buffers of the default pool and
whose text survives as a C string. -/
structure ClientFrame where
  frame : WebSocket.WireFrame
  fin : frame.fin = true
  opcode : frame.opcode = 1
  masked : frame.key.isSome
  noZero : 0 ∉ frame.payload
  fitsPool : frame.bytes.length ≤
    defaultMaxConnections * defaultReadBufferHeadroom * readBufferSize

/-! ## The parser seen as a message parser -/

def parseMessage (data : Text) : Option (Option (Option Text × ℕ)) :=
  if Pool.intMax < data.length then none
  else (WebSocket.onMessage true data).map fun r => if r.1 = 0 then none else some (r.2, r.1)

def deliveries (l : List (Option Text × Text)) : List Delivery :=
  l.flatMap fun e => e.1.toList.map .message ++ if e.2.isEmpty then [] else [.dropped e.2]

theorem eq_none_of_onMessage_zero {handler : Bool} {data : Text} {text : Option Text}
    (h : WebSocket.onMessage handler data = some (0, text)) : text = none := by
  unfold WebSocket.onMessage at h
  split at h
  · cases h
  · cases h
    rfl
  · split_ifs at h with hzero
    · cases h
      rfl
    · simp only [Option.map_eq_some_iff, Prod.mk.injEq] at h
      obtain ⟨-, -, h0, -⟩ := h
      exact absurd h0 hzero
    · simp only [Option.some.injEq, Prod.mk.injEq] at h
      exact absurd h.1 hzero

/-- Only the collected bytes matter for what is delivered. -/
theorem receiveReads_eq_receive {c : ClientState} (hc : c.RecvOk) (reads : List ReadBuffer) :
    (receiveReads c reads).map Prod.snd =
      (Stream.receive parseMessage c.flattenBuffer (reads.map ReadBuffer.bytes)).map
        deliveries := by
  induction reads generalizing c with
  | nil => rfl
  | cons rb reads ih =>
    have hok := hc.recvNewBuffer rb
    have hflat := flattenBuffer_recvNewBuffer c rb
    have hlen := hok.len_eq
    rw [hflat] at hlen
    simp only [receiveReads, processWebSocketRequest, receiveMessage, List.map_cons,
      Stream.receive, parseMessage, hlen, hflat]
    by_cases hbig : Pool.intMax < (c.flattenBuffer ++ rb.bytes).length
    · simp only [hbig, if_true, Option.map_none]
    · simp only [hbig, if_false]
      cases hmsg : WebSocket.onMessage true (c.flattenBuffer ++ rb.bytes) with
      | none => simp
      | some r =>
        obtain ⟨rc, text⟩ := r
        by_cases hrc : rc = 0
        · -- more data needed: the chain is kept
          subst hrc
          obtain rfl := eq_none_of_onMessage_zero hmsg
          have hnext := ih hok
          rw [hflat] at hnext
          simp only [Option.map_some, finishMessage, if_true, List.isEmpty_nil,
            Option.toList_none, List.map_nil, List.nil_append, Option.map_map]
          rw [← hnext]
          rfl
        · -- a frame was consumed: the chain is released
          have hnext := ih (recvOk_clearBuffer (c.recvNewBuffer rb))
          rw [flattenBuffer_clearBuffer] at hnext
          simp only [Option.map_some, finishMessage, hrc, if_false, hflat, Option.map_map]
          cases hrest : Stream.receive parseMessage [] (reads.map ReadBuffer.bytes) with
          | none =>
            rw [hrest, Option.map_none, Option.map_eq_none_iff] at hnext
            simp [hnext]
          | some l =>
            rw [hrest, Option.map_some, Option.map_eq_some_iff] at hnext
            obtain ⟨r, hr, hdel⟩ := hnext
            simp [hr, hdel, deliveries]

/-! ## Frames as messages -/

/-- The text of a frame is read as a C string. -/
theorem onMessage_text (f : WebSocket.WireFrame) (htext : f.opcode = 1) (rest : Text) :
    WebSocket.onMessage true (f.bytes ++ rest) = some (f.bytes.length, some (cString f.payload)) := by
  have hne : f.bytes.length ≠ 0 := by simp [WebSocket.WireFrame.bytes, WebSocket.WireFrame.header]
  have hslice := WebSocket.WireFrame.slice_append (f.header ++ f.keyBytes) f.payload rest
  rw [List.length_append] at hslice
  simp only [WebSocket.onMessage, WebSocket.WireFrame.parseFrame_bytes_append, if_neg hne, hslice]
  simp [htext]

namespace ClientFrame

def bytes (f : ClientFrame) : Text := f.frame.bytes

def payload (f : ClientFrame) : Text := f.frame.payload

/-- The frame with the call it should lead to. -/
def message (f : ClientFrame) : Stream.Message UInt8 (Option Text) := ⟨f.bytes, some f.payload⟩

theorem wire_message (frames : List ClientFrame) :
    Stream.wire (frames.map message) = (frames.map bytes).flatten := by
  rw [Stream.wire, List.map_map]
  rfl

theorem length_bytes_le (f : ClientFrame) : f.bytes.length + readBufferSize ≤ Pool.intMax := by
  have hfits := f.fitsPool
  have hsizes : defaultMaxConnections * defaultReadBufferHeadroom * readBufferSize +
      readBufferSize ≤ Pool.intMax := by decide
  unfold bytes
  omega

theorem onMessage_append (f : ClientFrame) (rest : Text) :
    WebSocket.onMessage true (f.bytes ++ rest) = some (f.bytes.length, some f.payload) := by
  rw [bytes, onMessage_text f.frame f.opcode, cString_eq_self f.noZero, payload]

theorem delimited_message (f : ClientFrame) :
    Stream.Delimited parseMessage Pool.intMax f.message where
  nonempty := by simp [message, bytes, WebSocket.WireFrame.bytes, WebSocket.WireFrame.header]
  complete rest hle := by
    have hne : f.bytes.length ≠ 0 := by
      simp [bytes, WebSocket.WireFrame.bytes, WebSocket.WireFrame.header]
    simp only [message] at hle ⊢
    rw [parseMessage, if_neg (by omega), onMessage_append]
    simp [hne]
  incomplete p hpre hlt := by
    have hle := f.length_bytes_le
    simp only [message] at hpre hlt
    rw [parseMessage, if_neg (by omega)]
    simp only [WebSocket.onMessage, WebSocket.WireFrame.parseFrame_of_prefix f.frame hpre hlt]
    rfl

end ClientFrame

/-! ## When every message arrives -/

theorem deliveries_messages (frames : List ClientFrame) :
    deliveries (frames.map fun f => (some f.payload, [])) =
      frames.map fun f => .message f.payload := by
  induction frames with
  | nil => rfl
  | cons f frames ih =>
    simp only [deliveries, List.map_cons, List.flatMap_cons] at ih ⊢
    rw [ih]
    rfl

theorem dropped_mem_deliveries {l : List (Option Text × Text)} {e : Option Text × Text}
    (he : e ∈ l) (hne : e.2 ≠ []) : Delivery.dropped e.2 ∈ deliveries l := by
  apply List.mem_flatMap.mpr
  exact ⟨e, he, by simp [hne]⟩

/-- Every frame ends where a read ends. -/
theorem endsAtRead_iff (frames : List ClientFrame) (reads : List ReadBuffer) :
    Stream.EndsAtRead [] (frames.map ClientFrame.message) (reads.map ReadBuffer.bytes) ↔
      ∀ fs, fs <+: frames → ∃ rs, rs <+: reads ∧
        (rs.map ReadBuffer.bytes).flatten = (fs.map ClientFrame.bytes).flatten := by
  constructor
  · intro h fs hfs
    by_cases hnil : fs = []
    · subst hnil
      exact ⟨[], List.nil_prefix, rfl⟩
    · obtain ⟨cs, hcs, heq⟩ := h (fs.map ClientFrame.message) (by simpa using hnil) (hfs.map _)
      obtain ⟨rs, hrs, rfl⟩ := List.prefix_map_iff.mp hcs
      rw [List.nil_append, ClientFrame.wire_message] at heq
      exact ⟨rs, hrs, heq⟩
  · intro h ms _ hms
    obtain ⟨fs, hfs, rfl⟩ := List.prefix_map_iff.mp hms
    obtain ⟨rs, hrs, heq⟩ := h fs hfs
    refine ⟨_, hrs.map _, ?_⟩
    rw [List.nil_append, ClientFrame.wire_message]
    exact heq

/-- Every frame leads to exactly one call with its payload, in order, and no byte is
thrown away, if and only if every frame ends where a read ends. -/
theorem receiveReads_messages_iff (c : ClientState) (hc : c.clearBuffer = c)
    (frames : List ClientFrame) (reads : List ReadBuffer)
    (hsize : ∀ rb ∈ reads, 1 ≤ rb.bytes.length ∧ rb.bytes.length ≤ readBufferSize)
    (hwire : (reads.map ReadBuffer.bytes).flatten = (frames.map ClientFrame.bytes).flatten) :
    (∃ c', receiveReads c reads = some (c', frames.map fun f => .message f.payload)) ↔
      ∀ fs, fs <+: frames → ∃ rs, rs <+: reads ∧
        (rs.map ReadBuffer.bytes).flatten = (fs.map ClientFrame.bytes).flatten := by
  have hok : c.RecvOk := hc ▸ recvOk_clearBuffer c
  have hflat : c.flattenBuffer = [] := hc ▸ flattenBuffer_clearBuffer c
  have hreceive := receiveReads_eq_receive hok reads
  rw [hflat] at hreceive
  have hms : ∀ m ∈ frames.map ClientFrame.message,
      Stream.Delimited parseMessage Pool.intMax m := by
    intro m hm
    obtain ⟨f, -, rfl⟩ := List.mem_map.mp hm
    exact f.delimited_message
  have hchunks : ∀ bytes ∈ reads.map ReadBuffer.bytes, bytes ≠ [] := by
    intro bytes hbytes
    obtain ⟨rb, hrb, rfl⟩ := List.mem_map.mp hbytes
    exact List.length_pos_iff.mp (hsize rb hrb).1
  have hlimit : ∀ m ∈ frames.map ClientFrame.message, ∀ bytes ∈ reads.map ReadBuffer.bytes,
      m.bytes.length + bytes.length ≤ Pool.intMax := by
    intro m hm bytes hbytes
    obtain ⟨f, -, rfl⟩ := List.mem_map.mp hm
    obtain ⟨rb, hrb, rfl⟩ := List.mem_map.mp hbytes
    have hfits := f.length_bytes_le
    have hle := (hsize rb hrb).2
    simp only [ClientFrame.message]
    omega
  have hstart : ∀ m ∈ (frames.map ClientFrame.message).head?, ([] : Text).length < m.bytes.length := by
    intro m hm
    exact List.length_pos_iff.mpr (hms m (List.mem_of_mem_head? hm)).nonempty
  have hstream : [] ++ (reads.map ReadBuffer.bytes).flatten =
      Stream.wire (frames.map ClientFrame.message) := by
    rw [List.nil_append, ClientFrame.wire_message, hwire]
  rw [← endsAtRead_iff]
  rcases Stream.receive_cases hms hchunks hlimit hstart hstream with ⟨hends, hall⟩ | ⟨hends, hdrop⟩
  · refine iff_of_true ?_ hends
    rw [hall, Option.map_some, List.map_map] at hreceive
    obtain ⟨⟨c', l⟩, hreads, hl⟩ := Option.map_eq_some_iff.mp hreceive
    refine ⟨c', ?_⟩
    rw [hreads, ← deliveries_messages]
    exact congrArg (fun l => some (c', l)) hl
  · refine iff_of_false ?_ hends
    rintro ⟨c', hreads⟩
    rw [hreads, Option.map_some] at hreceive
    obtain ⟨l, hl, hdeliver⟩ := Option.map_eq_some_iff.mp hreceive.symm
    obtain ⟨e, he, hne⟩ := hdrop l hl
    have hmem := dropped_mem_deliveries he hne
    rw [hdeliver] at hmem
    simp at hmem

/-- The masked text frame `a`. -/
def letterFrame : ClientFrame where
  frame := ⟨true, 1, some ⟨[1, 2, 3, 4], rfl⟩, .short, [0x61], by decide, by decide⟩
  fin := rfl
  opcode := rfl
  masked := rfl
  noZero := by decide
  fitsPool := by decide

/-- A connection right after its upgrade. -/
def upgraded : ClientState :=
  ⟨⟨.active, true, true, [], false⟩, .active, true, false, .webSocket, [], 0, 0, none,
    some ⟨0, some 0⟩, some 0, 0⟩

/-- One frame in two reads. -/
theorem receiveReads_letter_in_two_reads :
    ∃ c', receiveReads upgraded [⟨0, [0x81, 0x81, 1]⟩, ⟨1, [2, 3, 4, 0x60]⟩] =
      some (c', [letterFrame].map fun f => .message f.payload) := by
  apply (receiveReads_messages_iff upgraded rfl [letterFrame] _ (by decide) (by decide)).mpr
  intro fs hfs
  rcases List.prefix_cons_iff.mp hfs with rfl | ⟨rest, rfl, hrest⟩
  · exact ⟨[], List.nil_prefix, rfl⟩
  · obtain rfl := List.prefix_nil.mp hrest
    exact ⟨_, List.prefix_rfl, by decide⟩

/-- Two frames in one read: the second one is dropped. -/
theorem receiveReads_second_frame_dropped :
    ¬∃ c', receiveReads upgraded [⟨0, letterFrame.bytes ++ letterFrame.bytes⟩] =
      some (c', [letterFrame, letterFrame].map fun f => .message f.payload) := by
  rintro ⟨c', hreads⟩
  have hrun : (receiveReads upgraded [⟨0, letterFrame.bytes ++ letterFrame.bytes⟩]).map Prod.snd =
      some [.message [0x61], .dropped letterFrame.bytes] := by decide
  rw [hreads] at hrun
  simp at hrun

end CapyJs.Server.MessageReceive
