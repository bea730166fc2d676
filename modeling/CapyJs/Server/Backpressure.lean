import CapyJs.Http.Response
import CapyJs.Stream.Gather
import CapyJs.WebSocket.Send
import Mathlib.Algebra.Order.BigOperators.Group.List
import Mathlib.Algebra.Order.Group.Nat

/-!
# What a slow peer receives

The three functions that build bytes and call `uv_write`. libuv keeps the descriptors
until the last byte is written, and each of the functions has some of its bytes in
storage that ends with the call.
-/
namespace CapyJs.Server

open CapyJs.Stream

/-- Where the bytes of a write are. `body` is the mapped file of a static response or
`pending_write_buffer`, which `on_write_cb` frees. -/
inductive Block
  | headerBuf
  | body
  | frame
  | response
  deriving DecidableEq, Repr

def Block.outlivesCall : Block → Bool
  | .body => true
  | .headerBuf | .frame | .response => false

/-- A call of `uv_write`: the memory at that time, and the pointers and lengths that
`uv_buf_init` was given. -/
structure WriteCall where
  memory : Memory Block
  pieces : List (Descriptor Block)

/-- `uv_buf_init` takes the length as an `unsigned int`. -/
def uvBufInit (d : Descriptor Block) : Descriptor Block := ⟨d.block, d.len % 2 ^ 32⟩

namespace WriteCall

def bufs (c : WriteCall) : List (Descriptor Block) := c.pieces.map uvBufInit

/-- The bytes at the time of the call. -/
def built (c : WriteCall) : Text := gather c.memory c.pieces

/-- How many bytes libuv has to write. -/
def total (c : WriteCall) : ℕ := (gather c.memory c.bufs).length

/-- The peer gets the bytes built when the kernel accepts `k` of them during the call,
whatever comes to stand in the storage that the call leaves behind. -/
def Delivered (c : WriteCall) (k : ℕ) : Prop :=
  Delivers Block.outlivesCall c.memory c.bufs k c.built

/-- `ResponseObject::send` on an open connection. `uninit` is what the stack holds where
`header_buf` comes to stand, and behind it. -/
def send (r : Http.Response) (uninit : ℕ → UInt8) : Option WriteCall :=
  let headerLen := r.headerSize + 256
  (r.buildHeaders ((List.range headerLen).map uninit) headerLen).map fun p =>
    { memory
        | .headerBuf, i => p.1.getD i (uninit i)
        | .body, i => r.responseBuffer.getD i 0
        | _, _ => 0
      pieces := [⟨.headerBuf, p.2.toNat⟩, ⟨.body, r.responseBuffer.length⟩] }

/-- A call that writes one block. -/
def ofBlock (b : Block) (bytes : Text) : WriteCall where
  memory b' i := if b' = b then bytes.getD i 0 else 0
  pieces := [⟨b, bytes.length⟩]

def sendFrame (opcode : UInt8) (payload : Text) : WriteCall :=
  ofBlock .frame (WebSocket.sentFrame opcode payload)

/-- `complete_protocol_upgrade_handshake` on an open connection. -/
def completeProtocolUpgradeHandshake (exchangeKey : Text) : WriteCall :=
  ofBlock .response (WebSocket.handshakeResponse exchangeKey)

theorem built_ofBlock (b : Block) (bytes : Text) : (ofBlock b bytes).built = bytes := by
  rw [built, ofBlock, gather_cons, gather_nil, List.append_nil]
  apply Descriptor.read_of_list rfl
  simp

/-- The descriptors show less than what was built when a length is cut. -/
theorem gather_bufs_eq_built_iff (c : WriteCall) :
    gather c.memory c.bufs = c.built ↔ ∀ d ∈ c.pieces, d.len < 2 ^ 32 := by
  constructor
  · intro h
    have hlength := congrArg List.length h
    rw [bufs, built, length_gather, length_gather, List.map_map] at hlength
    generalize c.pieces = pieces at hlength
    induction pieces with
    | nil => simp
    | cons d pieces ih =>
      have hle : (pieces.map ((·.len) ∘ uvBufInit)).sum ≤ (pieces.map (·.len)).sum :=
        List.sum_le_sum fun e _ => Nat.mod_le e.len (2 ^ 32)
      have hd : d.len % 2 ^ 32 ≤ d.len := Nat.mod_le ..
      have hsum : d.len % 2 ^ 32 + (pieces.map ((·.len) ∘ uvBufInit)).sum =
          d.len + (pieces.map (·.len)).sum := hlength
      intro e he
      rcases List.mem_cons.mp he with rfl | he
      · have hsame : e.len % 2 ^ 32 = e.len := by omega
        exact hsame ▸ Nat.mod_lt e.len (by decide)
      · exact ih (by omega) e he
  · intro h
    rw [bufs, built, List.map_congr_left fun d hd => ?_, List.map_id]
    rw [uvBufInit, Nat.mod_eq_of_lt (h d hd), id]

theorem delivered_iff {c : WriteCall} (lost held : List (Descriptor Block)) {k : ℕ}
    (hpieces : c.pieces = lost ++ held) (hlost : ∀ d ∈ lost, d.block.outlivesCall = false)
    (hheld : ∀ d ∈ held, d.block.outlivesCall) (hk : k ≤ c.total) :
    c.Delivered k ↔ (∀ d ∈ c.pieces, d.len < 2 ^ 32) ∧ (lost.map (·.len)).sum ≤ k := by
  have hbufs : c.bufs = lost.map uvBufInit ++ held.map uvBufInit := by
    rw [bufs, hpieces, List.map_append]
  have hiff : c.Delivered k ↔
      gather c.memory c.bufs = c.built ∧ (gather c.memory (lost.map uvBufInit)).length ≤ k := by
    unfold Delivered
    unfold total at hk
    rw [hbufs] at hk ⊢
    apply delivers_iff _ _ hk
    · simpa [uvBufInit] using hlost
    · simpa [uvBufInit] using hheld
  rw [hiff, gather_bufs_eq_built_iff]
  apply and_congr_right
  intro hfits
  have hmap : (lost.map uvBufInit).map (·.len) = lost.map (·.len) := by
    rw [List.map_map]
    apply List.map_congr_left
    intro d hd
    exact Nat.mod_eq_of_lt (hfits d (hpieces ▸ List.mem_append_left held hd))
  rw [length_gather, hmap]

theorem total_send {r : Http.Response} {uninit : ℕ → UInt8} {c : WriteCall}
    (hsend : send r uninit = some c) :
    c.total = r.headerText.length % 2 ^ 32 + r.responseBuffer.length % 2 ^ 32 := by
  obtain ⟨⟨buf, n⟩, hbuild, rfl⟩ := Option.map_eq_some_iff.mp hsend
  obtain rfl := Http.Response.length_of_buildHeaders (Nat.succ_ne_zero _) hbuild
  simp [total, bufs, uvBufInit]

theorem delivered_send_iff {r : Http.Response} {uninit : ℕ → UInt8} {c : WriteCall} {k : ℕ}
    (hsend : send r uninit = some c) (hk : k ≤ c.total) :
    c.Delivered k ↔ (r.headerText.length < 2 ^ 32 ∧ r.responseBuffer.length < 2 ^ 32) ∧
      r.headerText.length ≤ k := by
  obtain ⟨⟨buf, n⟩, hbuild, rfl⟩ := Option.map_eq_some_iff.mp hsend
  obtain rfl := Http.Response.length_of_buildHeaders (Nat.succ_ne_zero _) hbuild
  have hiff := delivered_iff [⟨.headerBuf, r.headerText.length⟩]
    [⟨.body, r.responseBuffer.length⟩] rfl (by simp [Block.outlivesCall])
    (by simp [Block.outlivesCall]) hk
  simpa using hiff

theorem delivered_ofBlock_iff {b : Block} {bytes : Text} {k : ℕ} (hlocal : b.outlivesCall = false)
    (hk : k ≤ (ofBlock b bytes).total) :
    (ofBlock b bytes).Delivered k ↔ bytes.length < 2 ^ 32 ∧ bytes.length ≤ k := by
  have hiff := delivered_iff [⟨b, bytes.length⟩] [] rfl (by simpa using hlocal) (by simp) hk
  simpa [ofBlock] using hiff

/-- A response, a frame and a handshake arrive as they were built exactly when no length
is cut and the kernel accepts, during the call, all that is in local storage: the header
block of the response, the whole frame, the whole handshake. -/
theorem delivered_iff_local_accepted (k : ℕ) :
    (∀ (r : Http.Response) (uninit : ℕ → UInt8) (c : WriteCall),
      send r uninit = some c → k ≤ c.total →
        (c.Delivered k ↔ (r.headerText.length < 2 ^ 32 ∧ r.responseBuffer.length < 2 ^ 32) ∧
          r.headerText.length ≤ k)) ∧
    (∀ (opcode : UInt8) (payload : Text), k ≤ (sendFrame opcode payload).total →
      ((sendFrame opcode payload).Delivered k ↔
        (WebSocket.sentFrame opcode payload).length < 2 ^ 32 ∧
          (WebSocket.sentFrame opcode payload).length ≤ k)) ∧
    ∀ exchangeKey : Text, k ≤ (completeProtocolUpgradeHandshake exchangeKey).total →
      ((completeProtocolUpgradeHandshake exchangeKey).Delivered k ↔
        (WebSocket.handshakeResponse exchangeKey).length < 2 ^ 32 ∧
          (WebSocket.handshakeResponse exchangeKey).length ≤ k) := by
  refine ⟨?_, ?_, ?_⟩
  · intro r uninit c hsend hk
    exact delivered_send_iff hsend hk
  · intro opcode payload hk
    exact delivered_ofBlock_iff rfl hk
  · intro exchangeKey hk
    exact delivered_ofBlock_iff rfl hk

/-- A response of five bytes with the default headers. -/
def hello : Http.Response := ⟨ascii "hello", [], 0⟩

/-- All of the header block has to be accepted during the call, and nothing of the body. -/
theorem delivered_iff_local_accepted_hello :
    ∃ c, send hello (fun _ => 0) = some c ∧ c.Delivered hello.headerText.length ∧
      ¬ c.Delivered (hello.headerText.length - 1) := by
  have hsome : (send hello fun _ => 0).isSome := by decide +kernel
  obtain ⟨c, hc⟩ := Option.isSome_iff_exists.mp hsome
  have hfits : hello.headerText.length < 2 ^ 32 ∧ hello.responseBuffer.length < 2 ^ 32 := by
    decide +kernel
  have hpos : 0 < hello.headerText.length := by decide +kernel
  have htotal : hello.headerText.length ≤ c.total := by
    rw [total_send hc, Nat.mod_eq_of_lt hfits.1]
    exact Nat.le_add_right ..
  refine ⟨c, hc, ?_, fun h => ?_⟩
  · exact ((delivered_iff_local_accepted _).1 hello _ c hc htotal).mpr ⟨hfits, Nat.le_refl _⟩
  · have hle := (((delivered_iff_local_accepted _).1 hello _ c hc (by omega)).mp h).2
    omega

/-- The kernel accepts nothing at once, and the memory of the frame is zero by the time
it accepts the rest. -/
theorem frame_lost_to_backpressure :
    (sendFrame 1 (ascii "h")).built = [0x81, 1, 0x68] ∧
      drain (sendFrame 1 (ascii "h")).bufs 0
        [((sendFrame 1 (ascii "h")).memory, 0), (fun _ _ => 0, 3)] = [0, 0, 0] ∧
      ¬ (sendFrame 1 (ascii "h")).Delivered 0 := by
  have hbuilt : (sendFrame 1 (ascii "h")).built = [0x81, 1, 0x68] := built_ofBlock ..
  have hdrain : drain (sendFrame 1 (ascii "h")).bufs 0
      [((sendFrame 1 (ascii "h")).memory, 0), (fun _ _ => 0, 3)] = [0, 0, 0] := by decide
  refine ⟨hbuilt, hdrain, fun h => ?_⟩
  have hsame := h [(fun _ _ => 0, 3)] ?_ (by decide)
  · rw [hdrain, hbuilt] at hsame
    exact absurd hsame (by decide)
  · simp only [List.mem_singleton, forall_eq]
    intro b hb
    cases b with
    | body => rfl
    | headerBuf | frame | response => cases hb

end WriteCall
end CapyJs.Server
