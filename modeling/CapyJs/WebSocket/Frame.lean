import CapyJs.Text
import Mathlib.Data.List.Basic
import Mathlib.Data.Nat.Bitwise
import Mathlib.Tactic.Common

/-!
# WebSocket frames: the server's parser and the wire layout

`parseFrame` follows the source byte for byte, with sizes modulo 2^64; reading or
writing outside the buffer has no result. The layout of a frame is given on its
own, for any FIN bit, opcode, key and length form, and the parser is proved to
read it back as soon as, and not before, its last byte is there.
-/
namespace CapyJs.WebSocket

def wordSize : ℕ := 2 ^ 64

/-- What `parseFrame` fills in. The payload is a pointer into the buffer, here the
offset from its start. -/
structure Frame where
  fin : Bool
  opcode : UInt8
  payload : ℕ
  len : ℕ
  deriving DecidableEq, Repr

/-- A return of 0 for a frame that is not complete comes before the unmasking loop, so the
buffer is then as it was. -/
inductive Parsed
  | needMore
  | done (consumed : ℕ) (frame : Frame) (data : List UInt8)
  deriving DecidableEq, Repr

/-- The 64-bit length field, shifted in byte by byte. -/
def shiftIn (bytes : List UInt8) : ℕ :=
  bytes.foldl (fun acc b => (acc <<< 8 ||| b.toNat) % wordSize) 0

/-- The payload length and the offset behind the length field, from the 7-bit length. -/
def payloadLength (data : List UInt8) (len7 : ℕ) : Option (ℕ × ℕ) :=
  if len7 = 126 then
    if data.length < 4 then none
    else some ((data.getD 2 0).toNat <<< 8 ||| (data.getD 3 0).toNat, 4)
  else if len7 = 127 then
    if data.length < 10 then none
    else some (shiftIn ((data.drop 2).take 8), 10)
  else some (len7, 2)

def xorMask (key payload : List UInt8) : List UInt8 :=
  payload.mapIdx fun i b => b ^^^ key.getD (i % 4) 0

/-- The unmasking loop, in place. It leaves the buffer when the payload does. -/
def unmask (data : List UInt8) (maskOffset offset payloadLen : ℕ) : Option (List UInt8) :=
  if offset + payloadLen ≤ data.length then
    some (data.take offset ++
      xorMask ((data.drop maskOffset).take 4) ((data.drop offset).take payloadLen) ++
      data.drop (offset + payloadLen))
  else none

def parseFrame : List UInt8 → Option Parsed
  | b0 :: b1 :: tail =>
    let data := b0 :: b1 :: tail
    let fin := b0 &&& 0x80 != 0
    let opcode := b0 &&& 0x0F
    let masked := b1 &&& 0x80 != 0
    match payloadLength data (b1 &&& 0x7F).toNat with
    | none => some .needMore
    | some (payloadLen, maskOffset) =>
      let offset := if masked then maskOffset + 4 else maskOffset
      let total := (offset + payloadLen) % wordSize
      if data.length < total then some .needMore
      else if masked then
        (unmask data maskOffset offset payloadLen).map
          (.done total ⟨fin, opcode, offset, payloadLen⟩)
      else some (.done total ⟨fin, opcode, offset, payloadLen⟩ data)
  | _ => some .needMore

/-- The bytes a pointer and a length select. -/
def slice (data : List UInt8) (offset len : ℕ) : Option (List UInt8) :=
  if offset + len ≤ data.length then some ((data.drop offset).take len) else none

/-- `WebSocket::onMessage`: the number of bytes consumed, 0 for more data needed, and
the text passed to the JS handler if there was a call. `handler` says whether the
object's `onMessage` property is a function. -/
def onMessage (handler : Bool) (buffer : List UInt8) : Option (ℕ × Option (List UInt8)) :=
  match parseFrame buffer with
  | none => none
  | some .needMore => some (0, none)
  | some (.done op f data) =>
    if op = 0 then some (0, none)
    else if handler && f.opcode == 1 then
      (slice data f.payload f.len).map fun text => (op, some (cString text))
    else some (op, none)

/-! ## The layout of a frame -/

/-- The three encodings of the payload length. -/
inductive LengthForm
  | short
  | medium
  | long
  deriving DecidableEq, Repr

/-- The lengths a form can hold. -/
def LengthForm.bound : LengthForm → ℕ
  | .short => 126
  | .medium => 2 ^ 16
  | .long => 2 ^ 64

/-- `n` in `w` bytes, most significant first. -/
def bigEndian : (w n : ℕ) → List UInt8
  | 0, _ => []
  | w + 1, n => bigEndian w (n / 256) ++ [UInt8.ofNat (n % 256)]

@[simp] theorem length_bigEndian (w n : ℕ) : (bigEndian w n).length = w := by
  induction w generalizing n with
  | zero => rfl
  | succ w ih => simp [bigEndian, ih]

/-- One proof for all numerals that are opcodes. -/
instance instNeZeroOpcode : NeZero 16 := ⟨by decide⟩

/-- A frame as a peer sends it. The key is present when the payload is masked. -/
structure WireFrame where
  fin : Bool
  opcode : Fin 16
  key : Option {key : List UInt8 // key.length = 4}
  form : LengthForm
  payload : List UInt8
  fits : payload.length < form.bound
  small : payload.length + 14 < wordSize

namespace WireFrame

/-- The 7-bit length. -/
def length7 (f : WireFrame) : ℕ :=
  match f.form with
  | .short => f.payload.length
  | .medium => 126
  | .long => 127

def extendedLength (f : WireFrame) : List UInt8 :=
  match f.form with
  | .short => []
  | .medium => bigEndian 2 f.payload.length
  | .long => bigEndian 8 f.payload.length

def byte0 (f : WireFrame) : UInt8 :=
  (if f.fin then 0x80 else 0) ||| UInt8.ofNat f.opcode

def byte1 (f : WireFrame) : UInt8 :=
  (if f.key.isSome then 0x80 else 0) ||| UInt8.ofNat f.length7

def keyBytes (f : WireFrame) : List UInt8 := f.key.elim [] Subtype.val

theorem mod_lt_length (key : {key : List UInt8 // key.length = 4}) (i : ℕ) :
    i % 4 < key.val.length := by
  rw [key.property]
  exact Nat.mod_lt i (by decide)

/-- The payload as it travels. With a key, byte `i` is that of the payload exclusive-or byte
`i % 4` of the key. -/
def maskedPayload (f : WireFrame) : List UInt8 :=
  match f.key with
  | none => f.payload
  | some key => List.ofFn fun i : Fin f.payload.length =>
      f.payload.get i ^^^ key.val.get ⟨i % 4, mod_lt_length key i⟩

def header (f : WireFrame) : List UInt8 := f.byte0 :: f.byte1 :: f.extendedLength

def bytes (f : WireFrame) : List UInt8 := f.header ++ f.keyBytes ++ f.maskedPayload

/-! ## Header fields -/

theorem byte0_fields (fin : Bool) (opcode : Fin 16) :
    (((if fin then 0x80 else 0) ||| UInt8.ofNat opcode) &&& 0x80 != 0) = fin ∧
      ((if fin then 0x80 else 0) ||| UInt8.ofNat opcode) &&& 0x0F = UInt8.ofNat opcode := by
  revert fin opcode
  decide

theorem byte1_fields (masked : Bool) (n : Fin 128) :
    (((if masked then 0x80 else 0) ||| UInt8.ofNat n) &&& 0x80 != 0) = masked ∧
      (((if masked then 0x80 else 0) ||| UInt8.ofNat n) &&& 0x7F).toNat = n := by
  revert masked n
  decide

theorem length7_lt (f : WireFrame) : f.length7 < 128 := by
  have hfits := f.fits
  unfold length7
  cases hform : f.form <;> simp only [hform, LengthForm.bound] at hfits ⊢ <;> omega

theorem byte1_masked (f : WireFrame) : (f.byte1 &&& 0x80 != 0) = f.key.isSome :=
  (byte1_fields f.key.isSome ⟨f.length7, f.length7_lt⟩).1

theorem byte1_length7 (f : WireFrame) : (f.byte1 &&& 0x7F).toNat = f.length7 :=
  (byte1_fields f.key.isSome ⟨f.length7, f.length7_lt⟩).2

theorem shiftIn_append_singleton (bytes : List UInt8) (b : UInt8) :
    shiftIn (bytes ++ [b]) = (shiftIn bytes <<< 8 ||| b.toNat) % wordSize := by
  simp [shiftIn, List.foldl_append]

/-- Shifting a byte in is appending a digit in base 256. -/
theorem shiftLeft_or_toNat (n : ℕ) (b : UInt8) : n <<< 8 ||| b.toNat = n * 256 + b.toNat := by
  rw [← Nat.shiftLeft_add_eq_or_of_lt b.toNat_lt, Nat.shiftLeft_eq]

theorem toNat_ofNat_mod (n : ℕ) : (UInt8.ofNat (n % 256)).toNat = n % 256 := by
  simp

theorem shiftIn_bigEndian {w n : ℕ} (hn : n < 256 ^ w) (hword : n < wordSize) :
    shiftIn (bigEndian w n) = n := by
  induction w generalizing n with
  | zero =>
    obtain rfl : n = 0 := by simpa using hn
    rfl
  | succ w ih =>
    have hdiv : n / 256 < 256 ^ w := by
      rw [Nat.div_lt_iff_lt_mul (by decide), ← Nat.pow_succ]
      exact hn
    have hdigits : n / 256 * 256 + n % 256 = n := by omega
    rw [bigEndian, shiftIn_append_singleton, ih hdiv (by omega), shiftLeft_or_toNat,
      toNat_ofNat_mod, hdigits, Nat.mod_eq_of_lt hword]

/-- Once the header is there the parser knows the payload length, whatever follows. -/
theorem payloadLength_header (f : WireFrame) (q : List UInt8) :
    payloadLength (f.header ++ q) f.length7 = some (f.payload.length, f.header.length) := by
  have hfits := f.fits
  have hsmall := f.small
  cases hform : f.form with
  | short =>
    have hheader : f.header = [f.byte0, f.byte1] := by simp [header, extendedLength, hform]
    have hlength7 : f.length7 = f.payload.length := by simp [length7, hform]
    simp only [hform, LengthForm.bound] at hfits
    rw [hheader, hlength7, payloadLength, if_neg (by omega), if_neg (by omega)]
    rfl
  | medium =>
    have hheader : f.header = [f.byte0, f.byte1, UInt8.ofNat (f.payload.length / 256 % 256),
        UInt8.ofNat (f.payload.length % 256)] := by
      simp [header, extendedLength, hform, bigEndian]
    have hlength7 : f.length7 = 126 := by simp [length7, hform]
    simp only [hform, LengthForm.bound] at hfits
    have hhigh : f.payload.length / 256 % 256 = f.payload.length / 256 := by omega
    have hdigits : f.payload.length / 256 * 256 + f.payload.length % 256 = f.payload.length := by
      omega
    rw [hheader, hlength7, payloadLength, if_pos rfl, if_neg (by simp)]
    simp only [List.cons_append, List.getD_cons_succ, List.getD_cons_zero]
    rw [shiftLeft_or_toNat, toNat_ofNat_mod, toNat_ofNat_mod, hhigh, hdigits]
    rfl
  | long =>
    have hheader : f.header = [f.byte0, f.byte1] ++ bigEndian 8 f.payload.length := by
      simp [header, extendedLength, hform]
    have hlength7 : f.length7 = 127 := by simp [length7, hform]
    have htake : (([f.byte0, f.byte1] ++ bigEndian 8 f.payload.length ++ q).drop 2).take 8 =
        bigEndian 8 f.payload.length := by simp
    rw [hheader, hlength7, payloadLength, if_neg (by decide), if_pos rfl, if_neg (by simp), htake,
      shiftIn_bigEndian (by unfold wordSize at hsmall; omega) (by omega)]
    simp

/-- Inside the length field the parser does not know the payload length yet. -/
theorem payloadLength_of_lt (f : WireFrame) {p : List UInt8} (htwo : 2 ≤ p.length)
    (hlt : p.length < f.header.length) : payloadLength p f.length7 = none := by
  unfold header extendedLength at hlt
  unfold payloadLength length7
  cases hform : f.form <;> simp only [hform] at hlt ⊢ <;> simp at hlt
  · omega
  · simp [hlt]
  · simp [hlt]

/-! ## Reading a frame back -/

@[simp] theorem length_xorMask (key payload : List UInt8) :
    (xorMask key payload).length = payload.length := by
  simp [xorMask]

@[simp] theorem length_maskedPayload (f : WireFrame) :
    f.maskedPayload.length = f.payload.length := by
  unfold maskedPayload
  split <;> simp

/-- What the unmasking loop makes of a payload as it travels. -/
theorem xorMask_maskedPayload (f : WireFrame) (hkey : f.key.isSome) :
    xorMask f.keyBytes f.maskedPayload = f.payload := by
  obtain ⟨key, hkey⟩ := Option.isSome_iff_exists.mp hkey
  apply List.ext_getElem
  · simp
  · intro i hi hi'
    have hmask : i % 4 < key.val.length := mod_lt_length key i
    have hbyte : (xorMask f.keyBytes f.maskedPayload)[i] =
        f.payload[i] ^^^ key.val[i % 4] ^^^ key.val[i % 4] := by
      simp [xorMask, maskedPayload, keyBytes, hkey, List.getElem?_eq_getElem hmask]
    rw [hbyte, UInt8.xor_assoc, UInt8.xor_self, UInt8.xor_zero]

theorem length_keyBytes (f : WireFrame) :
    f.keyBytes.length = if f.key.isSome then 4 else 0 := by
  unfold keyBytes
  rcases f.key with _ | ⟨key, hkey⟩
  · rfl
  · exact hkey

theorem length_bytes (f : WireFrame) :
    f.bytes.length = f.header.length + f.keyBytes.length + f.payload.length := by
  simp [bytes, Nat.add_assoc]

theorem length_header_le (f : WireFrame) : f.header.length ≤ 10 := by
  unfold header extendedLength
  cases f.form <;> simp

theorem length_bytes_lt (f : WireFrame) : f.bytes.length < wordSize := by
  have hsmall := f.small
  have hheader := f.length_header_le
  have hkey := f.length_keyBytes
  rw [length_bytes]
  split_ifs at hkey <;> omega

/-- What the parser makes of a header, whatever follows. -/
theorem parseFrame_header (f : WireFrame) (q : List UInt8) :
    parseFrame (f.header ++ q) =
      if (f.header ++ q).length < f.bytes.length then some .needMore
      else if f.key.isSome then
        (unmask (f.header ++ q) f.header.length (f.header.length + f.keyBytes.length)
          f.payload.length).map
          (.done f.bytes.length ⟨f.fin, UInt8.ofNat f.opcode,
            f.header.length + f.keyBytes.length, f.payload.length⟩)
      else some (.done f.bytes.length ⟨f.fin, UInt8.ofNat f.opcode,
          f.header.length + f.keyBytes.length, f.payload.length⟩ (f.header ++ q)) := by
  have hlength := payloadLength_header f q
  have hoffset : (if f.key.isSome then f.header.length + 4 else f.header.length) =
      f.header.length + f.keyBytes.length := by
    rw [length_keyBytes]
    split_ifs <;> rfl
  have htotal : (f.header.length + f.keyBytes.length + f.payload.length) % wordSize =
      f.bytes.length := by
    rw [← length_bytes, Nat.mod_eq_of_lt f.length_bytes_lt]
  obtain ⟨hfin, hopcode⟩ := byte0_fields f.fin f.opcode
  have hdata : f.header ++ q = f.byte0 :: f.byte1 :: (f.extendedLength ++ q) := rfl
  rw [← byte1_length7] at hlength
  rw [hdata] at hlength ⊢
  simp only [parseFrame, hlength, byte1_masked, hoffset, htotal]
  rw [byte0, hfin, hopcode]

/-- The buffer after the payload of a frame has been unmasked in place. -/
theorem unmask_bytes (f : WireFrame) (rest : List UInt8) (hkey : f.key.isSome) :
    unmask (f.bytes ++ rest) f.header.length (f.header.length + f.keyBytes.length)
      f.payload.length = some (f.header ++ f.keyBytes ++ f.payload ++ rest) := by
  have hkey4 : f.keyBytes.length = 4 := by rw [length_keyBytes, if_pos hkey]
  have htake : (f.bytes ++ rest).take (f.header.length + f.keyBytes.length) =
      f.header ++ f.keyBytes := by
    rw [bytes, ← List.length_append, List.append_assoc, List.take_left]
  have hmask : ((f.bytes ++ rest).drop f.header.length).take 4 = f.keyBytes := by
    rw [bytes, List.append_assoc, List.append_assoc, List.drop_left, ← hkey4, List.take_left]
  have hdrop : (f.bytes ++ rest).drop (f.header.length + f.keyBytes.length) =
      f.maskedPayload ++ rest := by
    rw [bytes, ← List.length_append, List.append_assoc, List.drop_left]
  have hrest : (f.bytes ++ rest).drop
      (f.header.length + f.keyBytes.length + f.payload.length) = rest := by
    rw [← length_bytes, List.drop_left]
  have hpayload : (f.maskedPayload ++ rest).take f.payload.length = f.maskedPayload := by
    rw [← length_maskedPayload, List.take_left]
  rw [unmask, if_pos (by rw [← length_bytes]; simp), htake, hmask, hdrop, hrest, hpayload,
    f.xorMask_maskedPayload hkey]

/-- A complete frame is parsed as itself, whatever follows. -/
theorem parseFrame_bytes_append (f : WireFrame) (rest : List UInt8) :
    parseFrame (f.bytes ++ rest) =
      some (.done f.bytes.length
        ⟨f.fin, UInt8.ofNat f.opcode, f.header.length + f.keyBytes.length, f.payload.length⟩
        (f.header ++ f.keyBytes ++ f.payload ++ rest)) := by
  have hsplit : f.bytes ++ rest = f.header ++ (f.keyBytes ++ f.maskedPayload ++ rest) := by
    simp [bytes]
  have hparse := parseFrame_header f (f.keyBytes ++ f.maskedPayload ++ rest)
  rw [← hsplit, if_neg (by simp)] at hparse
  rw [hparse]
  by_cases hkey : f.key.isSome
  · rw [if_pos hkey, unmask_bytes f rest hkey]
    rfl
  · rw [if_neg hkey]
    simp only [Bool.not_eq_true, Option.isSome_eq_false_iff, Option.isNone_iff_eq_none] at hkey
    simp [bytes, maskedPayload, hkey]

/-- Before its last byte is there the parser asks for more. -/
theorem parseFrame_of_prefix (f : WireFrame) {p : List UInt8} (hpre : p <+: f.bytes)
    (hlt : p.length < f.bytes.length) : parseFrame p = some .needMore := by
  have hheader : f.header <+: f.bytes := ⟨f.keyBytes ++ f.maskedPayload, by simp [bytes]⟩
  by_cases hinside : p.length < f.header.length
  · have hp : p <+: f.header := List.prefix_of_prefix_length_le hpre hheader (by omega)
    match p, hp, hinside with
    | [], _, _ => rfl
    | [_], _, _ => rfl
    | b0 :: b1 :: tail, hp, hinside =>
      have hbyte1 : b1 = f.byte1 :=
        (List.cons_prefix_cons.mp (List.cons_prefix_cons.mp hp).2).1
      have hnone := f.payloadLength_of_lt (by simp) hinside
      rw [← byte1_length7, ← hbyte1] at hnone
      simp only [parseFrame, hnone]
  · obtain ⟨q, rfl⟩ := List.prefix_of_prefix_length_le hheader hpre (by omega)
    rw [parseFrame_header, if_pos hlt]

theorem slice_append (a b c : List UInt8) : slice (a ++ b ++ c) a.length b.length = some b := by
  rw [slice, if_pos (by simp), List.append_assoc, List.drop_left, List.take_left]

/-- A complete frame is read back, and no byte but those of the payload is touched. -/
theorem parseFrame_bytes (f : WireFrame) (rest : List UInt8) :
    ∃ frame data,
      parseFrame (f.bytes ++ rest) = some (.done f.bytes.length frame data) ∧
      frame.fin = f.fin ∧ frame.opcode = UInt8.ofNat f.opcode ∧
      slice data frame.payload frame.len = some f.payload ∧
      ∀ i, i < frame.payload ∨ frame.payload + frame.len ≤ i →
        data[i]? = (f.bytes ++ rest)[i]? := by
  refine ⟨_, _, f.parseFrame_bytes_append rest, rfl, rfl, ?_, ?_⟩
  · have hslice := slice_append (f.header ++ f.keyBytes) f.payload rest
    rw [List.length_append] at hslice
    exact hslice
  · intro i hi
    rw [bytes]
    -- the two buffers differ in the middle part only, and it has the same length in both
    rcases hi with hi | hi
    · have hbefore : i < (f.header ++ f.keyBytes).length := by simpa using hi
      rw [List.append_assoc, List.append_assoc _ f.maskedPayload,
        List.getElem?_append_left hbefore, List.getElem?_append_left hbefore]
    · have hbehind : (f.header ++ f.keyBytes ++ f.payload).length ≤ i := by
        simpa [Nat.add_assoc] using hi
      have hmasked : (f.header ++ f.keyBytes ++ f.maskedPayload).length =
          (f.header ++ f.keyBytes ++ f.payload).length := by simp
      rw [List.getElem?_append_right hbehind, List.getElem?_append_right (hmasked ▸ hbehind),
        hmasked]

theorem payload_eq_of_bytes {f g : WireFrame} (h : f.bytes = g.bytes) : f.payload = g.payload := by
  obtain ⟨frame, data, hparse, -, -, hslice, -⟩ := f.parseFrame_bytes []
  obtain ⟨frame', data', hparse', -, -, hslice', -⟩ := g.parseFrame_bytes []
  rw [h, hparse'] at hparse
  obtain ⟨-, rfl, rfl⟩ := Parsed.done.inj (Option.some.inj hparse)
  exact Option.some.inj (hslice.symm.trans hslice')

/-- The parser reads every frame of the layout, from the byte that completes it on and not
before. -/
theorem parseFrame_layout (f : WireFrame) :
    (∀ rest, ∃ frame data,
      parseFrame (f.bytes ++ rest) = some (.done f.bytes.length frame data) ∧
      frame.fin = f.fin ∧ frame.opcode = UInt8.ofNat f.opcode ∧
      slice data frame.payload frame.len = some f.payload ∧
      ∀ i, i < frame.payload ∨ frame.payload + frame.len ≤ i →
        data[i]? = (f.bytes ++ rest)[i]?) ∧
    ∀ p, p <+: f.bytes → p ≠ f.bytes → parseFrame p = some .needMore := by
  refine ⟨f.parseFrame_bytes, ?_⟩
  intro p hpre hne
  have hlt : p.length < f.bytes.length := by
    have hle := hpre.length_le
    have hlength : p.length ≠ f.bytes.length := fun heq => hne (hpre.eq_of_length heq)
    omega
  exact f.parseFrame_of_prefix hpre hlt

/-- The text `Hello` in a masked frame. -/
def maskedHello : WireFrame where
  fin := true
  opcode := 1
  key := some ⟨[0x37, 0xfa, 0x21, 0x3d], rfl⟩
  form := .short
  payload := ascii "Hello"
  fits := by decide
  small := by decide

theorem parseFrame_layout_maskedHello :
    maskedHello.bytes = [0x81, 0x85, 0x37, 0xfa, 0x21, 0x3d, 0x7f, 0x9f, 0x4d, 0x51, 0x58] ∧
      ∃ frame data,
        parseFrame [0x81, 0x85, 0x37, 0xfa, 0x21, 0x3d, 0x7f, 0x9f, 0x4d, 0x51, 0x58] =
          some (.done 11 frame data) ∧
        slice data frame.payload frame.len = some (ascii "Hello") := by
  have hbytes : maskedHello.bytes =
      [0x81, 0x85, 0x37, 0xfa, 0x21, 0x3d, 0x7f, 0x9f, 0x4d, 0x51, 0x58] := by decide
  obtain ⟨frame, data, hparse, -, -, hslice, -⟩ := (parseFrame_layout maskedHello).1 []
  rw [List.append_nil, hbytes] at hparse
  exact ⟨hbytes, frame, data, hparse, hslice⟩

end WireFrame
end CapyJs.WebSocket
