import Mathlib.Data.List.Basic
import Mathlib.Data.List.Range
import Mathlib.Tactic.Common
import Mathlib.Tactic.Ring

/-!
# SHA-1 as FIPS 180-4 has it

A message is a string of bits. It is padded to whole blocks of 512 bits, and each block changes
a hash value of five words.
-/
namespace CapyJs.Codec.Sha1

/-! ## Bit strings, most significant bit first -/

def ofBits (bits : List Bool) : ℕ := bits.foldl (fun n b => 2 * n + b.toNat) 0

/-- The last `w` bits of a number. -/
def toBits : (w n : ℕ) → List Bool
  | 0, _ => []
  | w + 1, n => toBits w (n / 2) ++ [n % 2 == 1]

/-- The bits of a string of bytes. -/
def bits (bytes : List UInt8) : List Bool := bytes.flatMap fun b => toBits 8 b.toNat

theorem ofBits_append (x y : List Bool) : ofBits (x ++ y) = ofBits x * 2 ^ y.length + ofBits y := by
  induction y using List.reverseRecOn with
  | nil => simp [ofBits]
  | append_singleton y b ih =>
    have hlast (z : List Bool) : ofBits (z ++ [b]) = 2 * ofBits z + b.toNat := by
      simp [ofBits]
    rw [← List.append_assoc, hlast, hlast, ih, List.length_append, List.length_singleton,
      Nat.pow_succ]
    ring

@[simp] theorem length_toBits (w n : ℕ) : (toBits w n).length = w := by
  induction w generalizing n with
  | zero => rfl
  | succ w ih => simp [toBits, ih]

theorem ofBits_toBits (w n : ℕ) : ofBits (toBits w n) = n % 2 ^ w := by
  induction w generalizing n with
  | zero => simp [toBits, ofBits, Nat.mod_one]
  | succ w ih =>
    have hbit : ofBits [n % 2 == 1] = n % 2 := by
      rcases Nat.mod_two_eq_zero_or_one n with h | h <;> simp [ofBits, h]
    have hmod : n % 2 ^ (w + 1) = n % 2 + 2 * (n / 2 % 2 ^ w) := by
      rw [Nat.pow_succ', Nat.mod_mul]
    rw [toBits, ofBits_append, ih, hbit, List.length_singleton, hmod]
    omega

theorem toBits_add (a b n : ℕ) : toBits (a + b) n = toBits a (n / 2 ^ b) ++ toBits b n := by
  induction b generalizing n with
  | zero => simp [toBits]
  | succ b ih =>
    rw [← Nat.add_assoc, toBits, ih, toBits, Nat.div_div_eq_div_mul, ← Nat.pow_succ',
      List.append_assoc]

theorem toBits_mod (w n : ℕ) : toBits w (n % 2 ^ w) = toBits w n := by
  induction w generalizing n with
  | zero => rfl
  | succ w ih =>
    have hhalf : n % 2 ^ (w + 1) / 2 = n / 2 % 2 ^ w := by
      rw [Nat.pow_succ', Nat.mod_mul_right_div_self]
    have hlow : n % 2 ^ (w + 1) % 2 = n % 2 := by
      rw [Nat.pow_succ', Nat.mod_mul_right_mod]
    rw [toBits, hhalf, ih, hlow, toBits]

@[simp] theorem bits_append (x y : List UInt8) : bits (x ++ y) = bits x ++ bits y :=
  List.flatMap_append

theorem bits_cons (b : UInt8) (bytes : List UInt8) :
    bits (b :: bytes) = toBits 8 b.toNat ++ bits bytes := List.flatMap_cons

@[simp] theorem length_bits (bytes : List UInt8) : (bits bytes).length = 8 * bytes.length := by
  simp [bits, List.length_flatMap, Nat.mul_comm]

theorem bits_drop (bytes : List UInt8) (k : ℕ) :
    bits (bytes.drop k) = (bits bytes).drop (8 * k) := by
  by_cases hk : k ≤ bytes.length
  · have hlength : (bits (bytes.take k)).length = 8 * k := by
      rw [length_bits, List.length_take, Nat.min_eq_left hk]
    rw [← hlength, ← List.take_append_drop k bytes, bits_append, List.take_append_drop,
      List.drop_left]
  · rw [List.drop_of_length_le (by omega), List.drop_of_length_le (by rw [length_bits]; omega)]
    rfl

theorem bits_take (bytes : List UInt8) (k : ℕ) :
    bits (bytes.take k) = (bits bytes).take (8 * k) := by
  by_cases hk : k ≤ bytes.length
  · have hlength : (bits (bytes.take k)).length = 8 * k := by
      rw [length_bits, List.length_take, Nat.min_eq_left hk]
    rw [← hlength, ← List.take_append_drop k bytes, bits_append, List.take_append_drop,
      List.take_left]
  · rw [List.take_of_length_le (by omega), List.take_of_length_le (by rw [length_bits]; omega)]

/-! ## Padding and words -/

/-- The number of zero bits behind the one bit. -/
def zeroBits (l : ℕ) : ℕ := (447 + 512 - l % 512) % 512

/-- It is the least one that leaves 64 bits of the last block. -/
theorem zeroBits_least (l : ℕ) : (l + 1 + zeroBits l) % 512 = 448 ∧
    ∀ k, (l + 1 + k) % 512 = 448 → zeroBits l ≤ k := by
  unfold zeroBits
  refine ⟨by omega, ?_⟩
  intro k hk
  omega

def padMessage (m : List Bool) : List Bool :=
  m ++ true :: List.replicate (zeroBits m.length) false ++ toBits 64 m.length

/-- Word `t` of block `i`. -/
def messageWord (padded : List Bool) (i t : ℕ) : UInt32 :=
  UInt32.ofNat (ofBits ((padded.drop (512 * i + 32 * t)).take 32))

/-! ## Blocks -/

def rotl (n : ℕ) (x : UInt32) : UInt32 := x <<< UInt32.ofNat n ||| x >>> UInt32.ofNat (32 - n)

def ch (x y z : UInt32) : UInt32 := (x &&& y) ^^^ (~~~x &&& z)
def parity (x y z : UInt32) : UInt32 := x ^^^ y ^^^ z
def maj (x y z : UInt32) : UInt32 := (x &&& y) ^^^ (x &&& z) ^^^ (y &&& z)

def roundFunction (t : ℕ) : UInt32 → UInt32 → UInt32 → UInt32 :=
  if t < 20 then ch else if t < 40 then parity else if t < 60 then maj else parity

def roundConstant (t : ℕ) : UInt32 :=
  if t < 20 then 0x5a827999 else if t < 40 then 0x6ed9eba1
  else if t < 60 then 0x8f1bbcdc else 0xca62c1d6

/-- The message schedule of a block. -/
def schedule (block : ℕ → UInt32) (t : ℕ) : UInt32 :=
  if t < 16 then block t
  else rotl 1 (schedule block (t - 3) ^^^ schedule block (t - 8) ^^^ schedule block (t - 14) ^^^
    schedule block (t - 16))

/-- Five words: a hash value, or the working variables of a block. -/
structure Words where
  a : UInt32
  b : UInt32
  c : UInt32
  d : UInt32
  e : UInt32
  deriving DecidableEq, Repr

def round (w : ℕ → UInt32) (s : Words) (t : ℕ) : Words :=
  { a := rotl 5 s.a + roundFunction t s.b s.c s.d + s.e + roundConstant t + w t
    b := s.a
    c := rotl 30 s.b
    d := s.c
    e := s.d }

def compress (h : Words) (block : ℕ → UInt32) : Words :=
  let s := (List.range 80).foldl (round (schedule block)) h
  ⟨s.a + h.a, s.b + h.b, s.c + h.c, s.d + h.d, s.e + h.e⟩

def initial : Words := ⟨0x67452301, 0xefcdab89, 0x98badcfe, 0x10325476, 0xc3d2e1f0⟩

def hash (m : List Bool) : Words :=
  (List.range ((padMessage m).length / 512)).foldl
    (fun h i => compress h (messageWord (padMessage m) i)) initial

def Words.bits (h : Words) : List Bool :=
  [h.a, h.b, h.c, h.d, h.e].flatMap fun x => toBits 32 x.toNat

/-- The message digest, of 160 bits. -/
def digest (m : List Bool) : List Bool := (hash m).bits

end CapyJs.Codec.Sha1
