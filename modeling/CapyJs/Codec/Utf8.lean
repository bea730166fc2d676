import Mathlib.Algebra.GroupWithZero.Nat
import Mathlib.Data.List.Flatten
import Mathlib.Tactic.Common

/-!
# UTF-8 over code points

Every code point has an encoding here, a surrogate too, and the decoder takes the shortest
encodings only. `IsUtf8` leaves the surrogates out.
-/
namespace CapyJs.Codec.Utf8

abbrev CodePoint := Fin 0x110000

/-- One proof for all numerals that are code points. -/
instance instNeZeroCodePoint : NeZero 0x110000 := ⟨by decide⟩

/-- The byte that continues a code point, with six bits of it. -/
def tailByte (n : ℕ) : UInt8 := UInt8.ofNat (0x80 + n % 64)

def encodePoint (c : CodePoint) : List UInt8 :=
  if c.val < 0x80 then [UInt8.ofNat c]
  else if c.val < 0x800 then [UInt8.ofNat (0xC0 + c / 64), tailByte c]
  else if c.val < 0x10000 then [UInt8.ofNat (0xE0 + c / 4096), tailByte (c / 64), tailByte c]
  else [UInt8.ofNat (0xF0 + c / 262144), tailByte (c / 4096), tailByte (c / 64), tailByte c]

def encode (s : List CodePoint) : List UInt8 := s.flatMap encodePoint

/-- What the first byte and those behind it say, were they an encoding. -/
def announced : List UInt8 → ℕ
  | [] => 0
  | b :: rest =>
    let bits (i : ℕ) := (rest.getD i 0).toNat % 64
    if b < 0x80 then b.toNat
    else if b < 0xE0 then b.toNat % 32 * 64 + bits 0
    else if b < 0xF0 then b.toNat % 16 * 4096 + bits 0 * 64 + bits 1
    else b.toNat % 8 * 262144 + bits 0 * 4096 + bits 1 * 64 + bits 2

/-- The code point at the front of a text, and what is behind its encoding. -/
def decodePoint (text : List UInt8) : Option (CodePoint × List UInt8) :=
  if h : announced text < 0x110000 then
    if encodePoint ⟨announced text, h⟩ <+: text then
      some (⟨announced text, h⟩, text.drop (encodePoint ⟨announced text, h⟩).length)
    else none
  else none

def decodeUpTo : ℕ → List UInt8 → Option (List CodePoint)
  | _, [] => some []
  | 0, _ :: _ => none
  | n + 1, b :: rest => do
    let (c, behind) ← decodePoint (b :: rest)
    let s ← decodeUpTo n behind
    some (c :: s)

/-- A code point takes at least one byte. -/
def decode (text : List UInt8) : Option (List CodePoint) := decodeUpTo text.length text

def IsHighSurrogate (c : CodePoint) : Prop := 0xD800 ≤ c.val ∧ c.val ≤ 0xDBFF

def IsLowSurrogate (c : CodePoint) : Prop := 0xDC00 ≤ c.val ∧ c.val ≤ 0xDFFF

instance : DecidablePred IsHighSurrogate := fun c =>
  inferInstanceAs (Decidable (0xD800 ≤ c.val ∧ c.val ≤ 0xDBFF))

instance : DecidablePred IsLowSurrogate := fun c =>
  inferInstanceAs (Decidable (0xDC00 ≤ c.val ∧ c.val ≤ 0xDFFF))

/-- The bytes are UTF-8 in the strict sense. -/
def IsUtf8 (text : List UInt8) : Prop :=
  ∃ s, (∀ c ∈ s, ¬IsHighSurrogate c ∧ ¬IsLowSurrogate c) ∧ encode s = text

/-- The number of UTF-16 units. -/
def units (c : CodePoint) : ℕ := if c.val < 0x10000 then 1 else 2

/-! ## One code point -/

theorem toNat_tailByte (n : ℕ) : (tailByte n).toNat = 0x80 + n % 64 := by
  unfold tailByte
  apply UInt8.toNat_ofNat_of_lt'
  have hmod := Nat.mod_lt n (show 0 < 64 by decide)
  simp only [UInt8.size]
  omega

theorem announced_encodePoint (c : CodePoint) (rest : List UInt8) :
    announced (encodePoint c ++ rest) = c := by
  have hc := c.isLt
  have htail (n : ℕ) : (tailByte n).toNat % 64 = n % 64 := by
    rw [toNat_tailByte]
    omega
  have hfirst {n : ℕ} (hn : n < 256) : (UInt8.ofNat n).toNat = n := UInt8.toNat_ofNat_of_lt' hn
  unfold encodePoint
  split_ifs with h1 h2 h3
  · simp [announced, UInt8.lt_iff_toNat_lt, hfirst (show c.val < 256 by omega), h1]
  · have hb := hfirst (show 0xC0 + c.val / 64 < 256 by omega)
    simp only [List.cons_append, announced, UInt8.lt_iff_toNat_lt, hb, List.getD_cons_zero, htail]
    rw [if_neg (by simp; omega), if_pos (by simp; omega)]
    omega
  · have hb := hfirst (show 0xE0 + c.val / 4096 < 256 by omega)
    simp only [List.cons_append, announced, UInt8.lt_iff_toNat_lt, hb, List.getD_cons_zero,
      List.getD_cons_succ, htail]
    rw [if_neg (by simp; omega), if_neg (by simp), if_pos (by simp; omega)]
    omega
  · have hb := hfirst (show 0xF0 + c.val / 262144 < 256 by omega)
    simp only [List.cons_append, announced, UInt8.lt_iff_toNat_lt, hb, List.getD_cons_zero,
      List.getD_cons_succ, htail]
    rw [if_neg (by simp; omega), if_neg (by simp; omega), if_neg (by simp)]
    omega

theorem decodePoint_encodePoint (c : CodePoint) (rest : List UInt8) :
    decodePoint (encodePoint c ++ rest) = some (c, rest) := by
  simp [decodePoint, announced_encodePoint]

theorem append_of_decodePoint {text rest : List UInt8} {c : CodePoint}
    (h : decodePoint text = some (c, rest)) : encodePoint c ++ rest = text := by
  unfold decodePoint at h
  split_ifs at h with hlt hprefix
  obtain ⟨rfl, rfl⟩ := Prod.mk.inj (Option.some.inj h)
  exact List.prefix_iff_eq_append.mp hprefix

theorem length_encodePoint_pos (c : CodePoint) : 0 < (encodePoint c).length := by
  unfold encodePoint
  split_ifs <;> simp

theorem length_encodePoint_le (c : CodePoint) : (encodePoint c).length ≤ 3 * units c := by
  unfold encodePoint units
  split_ifs <;> simp

/-- Only U+0000 has a zero byte in its encoding. -/
theorem zero_mem_encodePoint (c : CodePoint) : 0 ∈ encodePoint c ↔ c = 0 := by
  have hc := c.isLt
  have htail (n : ℕ) : 0 ≠ tailByte n := by
    intro h
    have hnat := congrArg UInt8.toNat h
    rw [toNat_tailByte, UInt8.toNat_zero] at hnat
    omega
  have hfirst {n : ℕ} (hn : n < 256) : 0 = UInt8.ofNat n ↔ n = 0 := by
    rw [← UInt8.toNat_inj, UInt8.toNat_ofNat_of_lt' hn]
    exact eq_comm
  have hzero : c = 0 ↔ c.val = 0 := Fin.ext_iff
  unfold encodePoint
  split_ifs with h1 h2 h3
  · simp only [List.mem_singleton, hfirst (show c.val < 256 by omega), hzero]
  · simp only [List.mem_cons, List.not_mem_nil, htail,
      hfirst (show 0xC0 + c.val / 64 < 256 by omega), hzero, or_false]
    omega
  · simp only [List.mem_cons, List.not_mem_nil, htail,
      hfirst (show 0xE0 + c.val / 4096 < 256 by omega), hzero, or_false]
    omega
  · simp only [List.mem_cons, List.not_mem_nil, htail,
      hfirst (show 0xF0 + c.val / 262144 < 256 by omega), hzero, or_false]
    omega

/-! ## Texts -/

theorem encode_cons (c : CodePoint) (s : List CodePoint) :
    encode (c :: s) = encodePoint c ++ encode s := rfl

theorem zero_mem_encode {s : List CodePoint} : 0 ∈ encode s ↔ 0 ∈ s := by
  simp [encode, zero_mem_encodePoint]

theorem length_encode_le (s : List CodePoint) : (encode s).length ≤ 3 * (s.map units).sum := by
  induction s with
  | nil => simp [encode]
  | cons c s ih =>
    have hc := length_encodePoint_le c
    rw [encode_cons, List.length_append, List.map_cons, List.sum_cons]
    omega

theorem decodeUpTo_encode {n : ℕ} {s : List CodePoint} (hn : (encode s).length ≤ n) :
    decodeUpTo n (encode s) = some s := by
  induction s generalizing n with
  | nil => cases n <;> rfl
  | cons c s ih =>
    have hpos := length_encodePoint_pos c
    have hpoint := decodePoint_encodePoint c (encode s)
    rw [encode_cons, List.length_append] at hn
    rw [encode_cons]
    -- the first byte is brought out for the decoder to see
    obtain ⟨n, rfl⟩ : ∃ m, n = m + 1 := ⟨n - 1, by omega⟩
    obtain ⟨b, rest, htext⟩ : ∃ b rest, encodePoint c ++ encode s = b :: rest :=
      List.exists_cons_of_length_pos (by simp; omega)
    rw [htext] at hpoint ⊢
    simp [decodeUpTo, hpoint, ih (show (encode s).length ≤ n by omega)]

/-- Decoding undoes encoding. -/
theorem decode_encode (s : List CodePoint) : decode (encode s) = some s :=
  decodeUpTo_encode (Nat.le_refl _)

theorem encode_of_decodeUpTo {n : ℕ} {text : List UInt8} {s : List CodePoint}
    (h : decodeUpTo n text = some s) : encode s = text := by
  induction n generalizing text s with
  | zero =>
    cases text with
    | nil => cases h; rfl
    | cons => cases h
  | succ n ih =>
    cases text with
    | nil => cases h; rfl
    | cons b rest =>
      rw [decodeUpTo, Option.bind_eq_bind, Option.bind_eq_some_iff] at h
      obtain ⟨⟨c, behind⟩, hpoint, h⟩ := h
      obtain ⟨t, ht, hs⟩ := Option.bind_eq_some_iff.mp h
      cases hs
      rw [encode_cons, ih ht, append_of_decodePoint hpoint]

/-- What is decoded was an encoding. -/
theorem encode_of_decode {text : List UInt8} {s : List CodePoint} (h : decode text = some s) :
    encode s = text :=
  encode_of_decodeUpTo h

theorem encode_injective : Function.Injective encode := by
  intro s t h
  have hdecode := decode_encode s
  rw [h, decode_encode] at hdecode
  exact (Option.some.inj hdecode).symm

end CapyJs.Codec.Utf8
