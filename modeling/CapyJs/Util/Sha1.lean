import CapyJs.Codec.Sha1
import CapyJs.Text
import CapyJs.Util.Base64
import CapyJs.WebSocket.Send

/-!
# The hash of the WebSocket handshake

`sha1` pads the message in an array of bytes, fills the 80 words of a block in two loops and
runs the rounds with `Ch` and `Maj` in another form than the standard's.
-/
namespace CapyJs.Util

open Codec.Sha1 (Words)

/-! ## The code -/

def paddedLen (len : ℕ) : ℕ := ((len + 8) / 64 + 1) * 64

/-- The array `msg`. -/
def sha1Message (data : Text) : Text :=
  let msg := (data ++ List.replicate (paddedLen data.length - data.length) 0).set data.length 0x80
  let bitLen := data.length * 8 % 2 ^ 64
  (List.range 8).foldl (fun msg i =>
    msg.set (paddedLen data.length - 1 - i) (UInt8.ofNat (bitLen >>> (i * 8) &&& 0xFF))) msg

/-- Four bytes as a word. -/
def loadWord (msg : Text) (k : ℕ) : UInt32 :=
  UInt32.ofNat ((msg.getD k 0).toNat <<< 24 ||| (msg.getD (k + 1) 0).toNat <<< 16 |||
    (msg.getD (k + 2) 0).toNat <<< 8 ||| (msg.getD (k + 3) 0).toNat)

/-- The second loop over `w`, for one index. -/
def extendSchedule (w : List UInt32) (i : ℕ) : List UInt32 :=
  let x := w.getD (i - 3) 0 ^^^ w.getD (i - 8) 0 ^^^ w.getD (i - 14) 0 ^^^ w.getD (i - 16) 0
  w ++ [(x <<< 1) ||| (x >>> 31)]

/-- The array `w`, filled from index 0 to index 79. -/
def sha1Schedule (msg : Text) (offset : ℕ) : List UInt32 :=
  (List.range' 16 64).foldl extendSchedule
    ((List.range 16).map fun i => loadWord msg (offset + i * 4))

def sha1Round (w : List UInt32) (s : Words) (i : ℕ) : Words :=
  let (f, k) :=
    if i < 20 then ((s.b &&& s.c) ||| (~~~s.b &&& s.d), (0x5A827999 : UInt32))
    else if i < 40 then (s.b ^^^ s.c ^^^ s.d, 0x6ED9EBA1)
    else if i < 60 then ((s.b &&& s.c) ||| (s.b &&& s.d) ||| (s.c &&& s.d), 0x8F1BBCDC)
    else (s.b ^^^ s.c ^^^ s.d, 0xCA62C1D6)
  let temp := ((s.a <<< 5) ||| (s.a >>> 27)) + f + s.e + k + w.getD i 0
  ⟨temp, s.a, (s.b <<< 30) ||| (s.b >>> 2), s.c, s.d⟩

def sha1Block (msg : Text) (h : Words) (offset : ℕ) : Words :=
  let s := (List.range 80).foldl (sha1Round (sha1Schedule msg offset)) h
  ⟨h.a + s.a, h.b + s.b, h.c + s.c, h.d + s.d, h.e + s.e⟩

def storeWord (x : UInt32) : Text :=
  [UInt8.ofNat ((x >>> 24).toNat &&& 0xFF), UInt8.ofNat ((x >>> 16).toNat &&& 0xFF),
    UInt8.ofNat ((x >>> 8).toNat &&& 0xFF), UInt8.ofNat (x.toNat &&& 0xFF)]

def sha1 (data : Text) : Text :=
  let msg := sha1Message data
  let h := (List.range (paddedLen data.length / 64)).foldl (fun h k => sha1Block msg h (k * 64))
    ⟨0x67452301, 0xEFCDAB89, 0x98BADCFE, 0x10325476, 0xC3D2E1F0⟩
  storeWord h.a ++ storeWord h.b ++ storeWord h.c ++ storeWord h.d ++ storeWord h.e

def computeWsAcceptKey (incomingSecKey : Text) : Text :=
  base64 (sha1 (incomingSecKey ++ ascii "258EAFA5-E914-47DA-95CA-C5AB0DC85B11"))

/-! ## The padded message -/

/-- Storing from the last byte backwards fills the end of an array. -/
theorem foldl_set_back (f : ℕ → UInt8) (front back : Text) :
    (List.range back.length).foldl
        (fun msg i => msg.set (front.length + back.length - 1 - i) (f i)) (front ++ back) =
      front ++ (List.range back.length).reverse.map f := by
  induction back generalizing front with
  | nil => simp
  | cons x back ih =>
    have hindex (i : ℕ) : front.length + (x :: back).length - 1 - i =
        (front ++ [x]).length + back.length - 1 - i := by
      simp only [List.length_append, List.length_cons, List.length_nil]
      omega
    have hlast : (front ++ [x]).length + back.length - 1 - back.length = front.length := by
      simp only [List.length_append, List.length_cons, List.length_nil]
      omega
    have hprev := ih (front ++ [x])
    rw [List.append_assoc, List.singleton_append] at hprev
    simp only [hindex]
    rw [List.length_cons, List.range_succ, List.foldl_append, hprev, List.foldl_cons,
      List.foldl_nil, hlast]
    simp

/-- The bytes of `msg` in order. -/
theorem sha1Message_eq {data : Text} (h : data.length < 2 ^ 61) :
    sha1Message data = data ++ 0x80 :: List.replicate (paddedLen data.length - data.length - 9) 0 ++
      WebSocket.bigEndian 8 (data.length * 8) := by
  have hroom : paddedLen data.length - data.length =
      paddedLen data.length - data.length - 9 + 8 + 1 := by
    unfold paddedLen
    omega
  have hbits : data.length * 8 % 2 ^ 64 = data.length * 8 := Nat.mod_eq_of_lt (by omega)
  have hstart : (data ++ List.replicate (paddedLen data.length - data.length) 0).set data.length
      0x80 = data ++ 0x80 :: List.replicate (paddedLen data.length - data.length - 9) 0 ++
        List.replicate 8 0 := by
    rw [hroom, List.replicate_succ, List.set_append_right _ _ le_rfl, Nat.sub_self, List.set_cons_zero,
      List.replicate_add, ← hroom]
    simp
  have hfill := foldl_set_back (fun i => UInt8.ofNat ((data.length * 8) >>> (i * 8) &&& 0xFF))
    (data ++ 0x80 :: List.replicate (paddedLen data.length - data.length - 9) 0)
    (List.replicate 8 0)
  have hlength : (data ++ (0x80 : UInt8) ::
      List.replicate (paddedLen data.length - data.length - 9) 0).length + 8 =
        paddedLen data.length := by
    simp only [List.length_append, List.length_cons, List.length_replicate]
    unfold paddedLen
    omega
  rw [List.length_replicate, hlength] at hfill
  rw [sha1Message, hstart, hbits, WebSocket.bigEndian_eq_map]
  exact hfill

open Codec.Sha1 (bits toBits ofBits)

theorem bits_bigEndian (w n : ℕ) : bits (WebSocket.bigEndian w n) = toBits (8 * w) n := by
  induction w generalizing n with
  | zero => rfl
  | succ w ih =>
    have hbyte : toBits 8 (UInt8.ofNat (n % 256)).toNat = toBits 8 n := by
      rw [WebSocket.WireFrame.toNat_ofNat_mod]
      exact Codec.Sha1.toBits_mod 8 n
    rw [WebSocket.bigEndian, Codec.Sha1.bits_append, ih, Nat.mul_succ, Codec.Sha1.toBits_add,
      Codec.Sha1.bits_cons, hbyte]
    exact congrArg _ (List.append_nil _)

theorem bits_zeros (k : ℕ) : bits (List.replicate k 0) = List.replicate (8 * k) false := by
  induction k with
  | zero => rfl
  | succ k ih =>
    rw [List.replicate_succ, Codec.Sha1.bits_cons, ih, Nat.mul_succ, Nat.add_comm,
      List.replicate_add]
    rfl

/-- `padded_len` leaves room for the least number of zero bits. -/
theorem zeroBits_eq (len : ℕ) :
    Codec.Sha1.zeroBits (8 * len) = 7 + 8 * (paddedLen len - len - 9) := by
  unfold Codec.Sha1.zeroBits paddedLen
  omega

theorem bits_sha1Message {data : Text} (h : data.length < 2 ^ 61) :
    bits (sha1Message data) = Codec.Sha1.padMessage (bits data) := by
  have hone : toBits 8 (0x80 : UInt8).toNat = true :: List.replicate 7 false := by decide
  rw [sha1Message_eq h, Codec.Sha1.bits_append, Codec.Sha1.bits_append, Codec.Sha1.bits_cons, hone,
    bits_zeros, bits_bigEndian, Codec.Sha1.padMessage, Codec.Sha1.length_bits, zeroBits_eq,
    List.replicate_add, Nat.mul_comm data.length]
  rfl

theorem length_sha1Message {data : Text} (h : data.length < 2 ^ 61) :
    (sha1Message data).length = paddedLen data.length := by
  rw [sha1Message_eq h]
  simp only [List.length_append, List.length_cons, List.length_replicate,
    WebSocket.length_bigEndian]
  unfold paddedLen
  omega

/-! ## Words -/

theorem ofBits_bits_four (b₀ b₁ b₂ b₃ : UInt8) :
    ofBits (bits [b₀, b₁, b₂, b₃]) =
      ((b₀.toNat * 256 + b₁.toNat) * 256 + b₂.toNat) * 256 + b₃.toNat := by
  have hbyte (b : UInt8) : ofBits (toBits 8 b.toNat) = b.toNat := by
    rw [Codec.Sha1.ofBits_toBits, Nat.mod_eq_of_lt b.toNat_lt]
  simp only [Codec.Sha1.bits_cons, Codec.Sha1.ofBits_append, hbyte, List.length_append,
    Codec.Sha1.length_toBits, Codec.Sha1.length_bits, List.length_nil]
  have hnil : ofBits (bits []) = 0 := rfl
  omega

theorem shift_four (b₀ b₁ b₂ b₃ : UInt8) :
    b₀.toNat <<< 24 ||| b₁.toNat <<< 16 ||| b₂.toNat <<< 8 ||| b₃.toNat =
      ((b₀.toNat * 256 + b₁.toNat) * 256 + b₂.toNat) * 256 + b₃.toNat := by
  rw [← WebSocket.WireFrame.shiftLeft_or_toNat, ← WebSocket.WireFrame.shiftLeft_or_toNat,
    ← WebSocket.WireFrame.shiftLeft_or_toNat]
  simp only [Nat.shiftLeft_or_distrib, ← Nat.shiftLeft_add]

/-- The words that the code assembles are those of the padded bits. -/
theorem messageWord_bits {msg : Text} {i t : ℕ} (h : i * 64 + t * 4 + 4 ≤ msg.length) :
    Codec.Sha1.messageWord (bits msg) i t = loadWord msg (i * 64 + t * 4) := by
  have hindex : 512 * i + 32 * t = 8 * (i * 64 + t * 4) := by omega
  generalize i * 64 + t * 4 = k at h hindex ⊢
  obtain ⟨b₀, b₁, b₂, b₃, rest, hdrop⟩ : ∃ b₀ b₁ b₂ b₃ rest,
      msg.drop k = b₀ :: b₁ :: b₂ :: b₃ :: rest := by
    have hlength : 4 ≤ (msg.drop k).length := by
      rw [List.length_drop]
      omega
    match msg.drop k, hlength with
    | b₀ :: b₁ :: b₂ :: b₃ :: rest, _ => exact ⟨b₀, b₁, b₂, b₃, rest, rfl⟩
  have hget (j : ℕ) : msg.getD (k + j) 0 = (b₀ :: b₁ :: b₂ :: b₃ :: rest).getD j 0 := by
    rw [← hdrop]
    simp [List.getD_eq_getElem?_getD]
  have hload : loadWord msg k = UInt32.ofNat (b₀.toNat <<< 24 ||| b₁.toNat <<< 16 |||
      b₂.toNat <<< 8 ||| b₃.toNat) := by
    have hfirst := hget 0
    rw [Nat.add_zero] at hfirst
    rw [loadWord, hfirst, hget, hget, hget]
    rfl
  have hbits : ((bits msg).drop (512 * i + 32 * t)).take 32 = bits [b₀, b₁, b₂, b₃] := by
    rw [hindex, ← Codec.Sha1.bits_drop, hdrop]
    exact (Codec.Sha1.bits_take _ 4).symm
  rw [Codec.Sha1.messageWord, hbits, ofBits_bits_four, hload, shift_four]

/-! ## The schedule and the rounds -/

theorem sha1Schedule_eq {msg : Text} {i : ℕ} (h : i * 64 + 64 ≤ msg.length) :
    sha1Schedule msg (i * 64) =
      (List.range 80).map (Codec.Sha1.schedule (Codec.Sha1.messageWord (bits msg) i)) := by
  have hfill (n : ℕ) : (List.range' 16 n).foldl extendSchedule
      ((List.range 16).map fun t => loadWord msg (i * 64 + t * 4)) =
        (List.range (16 + n)).map (Codec.Sha1.schedule (Codec.Sha1.messageWord (bits msg) i)) := by
    induction n with
    | zero =>
      apply List.map_congr_left
      intro t ht
      have ht16 : t < 16 := List.mem_range.mp ht
      rw [Codec.Sha1.schedule, if_pos ht16, messageWord_bits (by omega)]
    | succ n ih =>
      have hget (d : ℕ) (hd : 0 < d ∧ d ≤ 16) :
          ((List.range (16 + n)).map
            (Codec.Sha1.schedule (Codec.Sha1.messageWord (bits msg) i))).getD (16 + n - d) 0 =
          Codec.Sha1.schedule (Codec.Sha1.messageWord (bits msg) i) (16 + n - d) := by
        rw [List.getD_eq_getElem _ _ (by simp; omega)]
        simp
      rw [List.range'_concat, List.foldl_append, ih, List.foldl_cons, List.foldl_nil, Nat.one_mul,
        extendSchedule, hget 3 (by omega), hget 8 (by omega), hget 14 (by omega),
        hget 16 (by omega), ← Nat.add_assoc, List.range_succ, List.map_append, List.map_singleton]
      congr 2
      rw [Codec.Sha1.schedule.eq_def _ (16 + n), if_neg (by omega)]
      rfl
  exact hfill 64

/-- The code's form of `Ch`. -/
theorem ch_eq (x y z : UInt32) : (x &&& y) ||| (~~~x &&& z) = Codec.Sha1.ch x y z := by
  apply UInt32.toBitVec_inj.mp
  ext i
  simp only [Codec.Sha1.ch, UInt32.toBitVec_or, UInt32.toBitVec_and, UInt32.toBitVec_not,
    UInt32.toBitVec_xor, BitVec.getElem_or, BitVec.getElem_and, BitVec.getElem_not,
    BitVec.getElem_xor]
  cases x.toBitVec[i] <;> simp

/-- The code's form of `Maj`. -/
theorem maj_eq (x y z : UInt32) :
    (x &&& y) ||| (x &&& z) ||| (y &&& z) = Codec.Sha1.maj x y z := by
  apply UInt32.toBitVec_inj.mp
  ext i
  simp only [Codec.Sha1.maj, UInt32.toBitVec_or, UInt32.toBitVec_and, UInt32.toBitVec_xor,
    BitVec.getElem_or, BitVec.getElem_and, BitVec.getElem_xor]
  cases x.toBitVec[i] <;> cases y.toBitVec[i] <;> simp

theorem sha1Round_eq {w : List UInt32} {W : ℕ → UInt32} {t : ℕ} (hw : w.getD t 0 = W t)
    (s : Words) : sha1Round w s t = Codec.Sha1.round W s t := by
  unfold sha1Round Codec.Sha1.round Codec.Sha1.roundFunction Codec.Sha1.roundConstant
  rw [hw, ch_eq, maj_eq]
  split_ifs <;> rfl

theorem sha1Block_eq {msg : Text} {i : ℕ} (h : i * 64 + 64 ≤ msg.length) (hash : Words) :
    sha1Block msg hash (i * 64) =
      Codec.Sha1.compress hash (Codec.Sha1.messageWord (bits msg) i) := by
  have hrounds : (List.range 80).foldl (sha1Round (sha1Schedule msg (i * 64))) hash =
      (List.range 80).foldl
        (Codec.Sha1.round (Codec.Sha1.schedule (Codec.Sha1.messageWord (bits msg) i))) hash := by
    apply List.foldl_ext
    intro s t ht
    apply sha1Round_eq
    have ht80 : t < 80 := List.mem_range.mp ht
    rw [sha1Schedule_eq h, List.getD_eq_getElem _ _ (by simpa using ht80)]
    simp
  simp only [sha1Block, hrounds, Codec.Sha1.compress, UInt32.add_comm]

/-! ## The digest -/

theorem bits_storeWord (x : UInt32) : bits (storeWord x) = toBits 32 x.toNat := by
  have hbyte (k : ℕ) : toBits 8 (UInt8.ofNat ((x.toNat / 2 ^ k) &&& 0xFF)).toNat =
      toBits 8 (x.toNat / 2 ^ k) := by
    have hmask : (x.toNat / 2 ^ k) &&& 0xFF = x.toNat / 2 ^ k % 256 :=
      Nat.and_two_pow_sub_one_eq_mod _ 8
    rw [hmask, WebSocket.WireFrame.toNat_ofNat_mod]
    exact Codec.Sha1.toBits_mod 8 _
  have hsplit : toBits 32 x.toNat = toBits 8 (x.toNat / 2 ^ 24) ++ (toBits 8 (x.toNat / 2 ^ 16) ++
      (toBits 8 (x.toNat / 2 ^ 8) ++ toBits 8 (x.toNat / 2 ^ 0))) := by
    rw [Codec.Sha1.toBits_add 8 24, Codec.Sha1.toBits_add 8 16, Codec.Sha1.toBits_add 8 8,
      Nat.pow_zero, Nat.div_one]
  have hshift (k : UInt32) : (x >>> k).toNat = x.toNat / 2 ^ (k.toNat % 32) := by
    rw [UInt32.toNat_shiftRight, Nat.shiftRight_eq_div_pow]
  have hlast := hbyte 0
  rw [Nat.pow_zero, Nat.div_one] at hlast
  rw [hsplit, Nat.pow_zero, Nat.div_one, ← hlast, ← hbyte 24, ← hbyte 16, ← hbyte 8, storeWord,
    hshift, hshift, hshift]
  simp only [Codec.Sha1.bits_cons]
  rfl

theorem bits_sha1 (data : Text) :
    bits (sha1 data) = ((List.range (paddedLen data.length / 64)).foldl
      (fun h k => sha1Block (sha1Message data) h (k * 64)) Codec.Sha1.initial).bits := by
  simp only [sha1, Codec.Sha1.bits_append, bits_storeWord, Words.bits, List.flatMap_cons,
    List.flatMap_nil, List.append_nil, List.append_assoc]
  rfl

/-- `sha1` computes the digest of FIPS 180-4, for every message whose length in bits is a
number of 64 bits. -/
theorem sha1_eq_digest {data : Text} (h : data.length < 2 ^ 61) :
    (sha1 data).length = 20 ∧ bits (sha1 data) = Codec.Sha1.digest (bits data) := by
  refine ⟨rfl, ?_⟩
  have hblocks : (Codec.Sha1.padMessage (bits data)).length / 512 = paddedLen data.length / 64 := by
    rw [← bits_sha1Message h, Codec.Sha1.length_bits, length_sha1Message h]
    omega
  rw [bits_sha1, Codec.Sha1.digest, Codec.Sha1.hash, hblocks, ← bits_sha1Message h]
  apply congrArg Words.bits
  apply List.foldl_ext
  intro hash i hi
  have hlt : i < paddedLen data.length / 64 := List.mem_range.mp hi
  apply sha1Block_eq
  rw [length_sha1Message h]
  omega

theorem sha1_eq_digest_abc :
    (ascii "abc").length < 2 ^ 61 ∧
      bits (sha1 (ascii "abc")) = Codec.Sha1.digest (bits (ascii "abc")) :=
  ⟨by decide, (sha1_eq_digest (by decide)).2⟩

/-- The key of RFC 6455 and its answer, which a comment of `ws.cc` quotes. -/
example : computeWsAcceptKey (ascii "dGhlIHNhbXBsZSBub25jZQ==") =
    ascii "s3pPLMBiTxaQ9kYGzzhZRbK+xOo=" := by decide +kernel

end CapyJs.Util
