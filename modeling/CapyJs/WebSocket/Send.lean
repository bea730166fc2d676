import CapyJs.WebSocket.Frame

/-!
# What the server sends on a WebSocket

`sendFrame` has its own length thresholds and byte loops. The vector it builds is a frame
of the layout that `parseFrame` reads, without a mask and with the shortest length form.
-/
namespace CapyJs.WebSocket

/-- The length field of a frame without a mask. -/
def lengthField (len : ℕ) : Text :=
  if len ≤ 125 then [UInt8.ofNat len]
  else if len ≤ 65535 then [126, UInt8.ofNat (len >>> 8 &&& 0xFF), UInt8.ofNat (len &&& 0xFF)]
  else 127 :: [7, 6, 5, 4, 3, 2, 1, 0].map fun i => UInt8.ofNat (len >>> (i * 8) &&& 0xFF)

/-- The vector that `sendFrame` builds. -/
def sentFrame (opcode : UInt8) (payload : Text) : Text :=
  (0x80 ||| opcode) :: lengthField payload.length ++ payload

/-- The string that `complete_protocol_upgrade_handshake` builds. -/
def handshakeResponse (exchangeKey : Text) : Text :=
  ascii "HTTP/1.1 101 Switching Protocols\r\nUpgrade: websocket\r\nConnection: Upgrade\r\nSec-WebSocket-Accept: " ++
    exchangeKey ++ ascii "\r\n\r\n"

/-! ## The vector as a frame of the layout -/

/-- The form whose threshold `sendFrame` finds. -/
def LengthForm.shortest (len : ℕ) : LengthForm :=
  if len ≤ 125 then .short else if len ≤ 65535 then .medium else .long

theorem LengthForm.lt_bound_shortest {len : ℕ} (h : len < 2 ^ 64) :
    len < (LengthForm.shortest len).bound := by
  unfold LengthForm.shortest
  split_ifs <;> simp only [LengthForm.bound] <;> omega

/-- What `sendFrame` builds, as a frame that a peer could send. -/
def sentWireFrame (opcode : Fin 16) (payload : Text) (h : payload.length < 2 ^ 63) :
    WireFrame where
  fin := true
  opcode
  key := none
  form := .shortest payload.length
  payload
  fits := LengthForm.lt_bound_shortest (by omega)
  small := by unfold wordSize; omega

/-- The shifts of `sendFrame` give the digits in base 256. -/
theorem bigEndian_eq_map (w n : ℕ) :
    bigEndian w n = (List.range w).reverse.map fun i => UInt8.ofNat (n >>> (i * 8) &&& 0xFF) := by
  induction w generalizing n with
  | zero => rfl
  | succ w ih =>
    have hshift (i : ℕ) : (n / 256) >>> (i * 8) = n >>> ((i + 1) * 8) := by
      have hdiv : n / 256 = n >>> 8 := (Nat.shiftRight_eq_div_pow n 8).symm
      rw [hdiv, ← Nat.shiftRight_add, Nat.succ_mul, Nat.add_comm]
    have hlast : n % 256 = n >>> (0 * 8) &&& 0xFF := (Nat.and_two_pow_sub_one_eq_mod n 8).symm
    rw [bigEndian, ih, hlast, List.range_succ_eq_map]
    simp [hshift, Function.comp_def]

theorem header_sentWireFrame (opcode : Fin 16) (payload : Text) (h : payload.length < 2 ^ 63) :
    (sentWireFrame opcode payload h).header =
      (0x80 ||| UInt8.ofNat opcode) :: lengthField payload.length := by
  unfold WireFrame.header WireFrame.byte1 WireFrame.length7 WireFrame.extendedLength lengthField
  simp only [sentWireFrame, LengthForm.shortest, bigEndian_eq_map]
  split_ifs
  · simp [WireFrame.byte0]
  · simp [WireFrame.byte0, List.range_succ]
  · simp [WireFrame.byte0, List.range_succ]

theorem bytes_sentWireFrame (opcode : Fin 16) (payload : Text) (h : payload.length < 2 ^ 63) :
    (sentWireFrame opcode payload h).bytes = sentFrame (UInt8.ofNat opcode) payload := by
  rw [WireFrame.bytes, header_sentWireFrame]
  simp [WireFrame.keyBytes, WireFrame.maskedPayload, sentWireFrame, sentFrame]

/-- No form that can hold a length has a shorter field than the one `sendFrame` takes. -/
theorem extendedLength_sentWireFrame_le (opcode : Fin 16) (payload : Text)
    (h : payload.length < 2 ^ 63) (f : WireFrame) (hf : f.payload = payload) :
    (sentWireFrame opcode payload h).extendedLength.length ≤ f.extendedLength.length := by
  have hfits := f.fits
  unfold WireFrame.extendedLength
  simp only [sentWireFrame, LengthForm.shortest, ← hf]
  cases hform : f.form <;> simp only [hform, LengthForm.bound] at hfits <;> split_ifs <;>
    simp <;> omega

/-- `parseFrame` reads what `sendFrame` builds as one frame, whatever follows, and the
length is in the shortest form. -/
theorem parseFrame_sentFrame (opcode : Fin 16) (payload : Text) (h : payload.length < 2 ^ 63) :
    (∀ rest, ∃ frame data,
      parseFrame (sentFrame (UInt8.ofNat opcode) payload ++ rest) =
        some (.done (sentFrame (UInt8.ofNat opcode) payload).length frame data) ∧
      frame.fin = true ∧ frame.opcode = UInt8.ofNat opcode ∧
      slice data frame.payload frame.len = some payload) ∧
    ∃ g : WireFrame, g.bytes = sentFrame (UInt8.ofNat opcode) payload ∧ g.key = none ∧
      g.payload = payload ∧ ∀ f : WireFrame, f.payload = payload →
        g.extendedLength.length ≤ f.extendedLength.length := by
  have hbytes := bytes_sentWireFrame opcode payload h
  constructor
  · intro rest
    obtain ⟨frame, data, hparse, hfin, hopcode, hslice, -⟩ :=
      (sentWireFrame opcode payload h).parseFrame_bytes rest
    rw [hbytes] at hparse
    exact ⟨frame, data, hparse, hfin, hopcode, hslice⟩
  · exact ⟨_, hbytes, rfl, rfl, extendedLength_sentWireFrame_le opcode payload h⟩

theorem parseFrame_sentFrame_hello :
    parseFrame (sentFrame 1 (ascii "hello")) = some (.done 7 ⟨true, 1, 2, 5⟩
      (sentFrame 1 (ascii "hello"))) ∧ (ascii "hello").length < 2 ^ 63 ∧
    ∃ g : WireFrame, g.bytes = sentFrame (UInt8.ofNat (1 : Fin 16)) (ascii "hello") ∧
      g.key = none ∧ g.payload = ascii "hello" ∧ ∀ f : WireFrame, f.payload = ascii "hello" →
        g.extendedLength.length ≤ f.extendedLength.length :=
  ⟨by decide, by decide, (parseFrame_sentFrame 1 (ascii "hello") (by decide)).2⟩

end CapyJs.WebSocket
