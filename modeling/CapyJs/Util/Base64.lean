import CapyJs.Codec.Base64
import CapyJs.Text
import Mathlib.Data.List.Range
import Mathlib.Data.Nat.Bitwise

/-!
# The encoder of the WebSocket handshake

`base64` packs three bytes into a word of 24 bits and folds the cases of one and two bytes at
the end into conditional expressions. What it returns is read back by the decoder of the
standard.
-/
namespace CapyJs.Util

open Codec.Base64

/-- `t` -/
def base64Table : Text :=
  ascii "ABCDEFGHIJKLMNOPQRSTUVWXYZabcdefghijklmnopqrstuvwxyz0123456789+/"

def sixBits (n : ℕ) : UInt8 := base64Table.getD (n &&& 0x3F) 0

/-- The loop body for index `i`. -/
def base64Group (d : Text) (i : ℕ) : Text :=
  let n := (d.getD i 0).toNat <<< 16 |||
    (if i + 1 < d.length then (d.getD (i + 1) 0).toNat <<< 8 else 0) |||
    (if i + 2 < d.length then (d.getD (i + 2) 0).toNat else 0)
  [sixBits (n >>> 18), sixBits (n >>> 12),
    if i + 1 < d.length then sixBits (n >>> 6) else pad,
    if i + 2 < d.length then sixBits n else pad]

/-- The loop runs for the indices 0, 3, 6 and so on below the length. -/
def base64 (d : Text) : Text :=
  (List.range ((d.length + 2) / 3)).flatMap fun k => base64Group d (3 * k)

/-! ## Groups -/

theorem base64Group_add_three (a b c : UInt8) (rest : Text) (i : ℕ) :
    base64Group (a :: b :: c :: rest) (i + 3) = base64Group rest i := by
  have hone : i + 3 + 1 < (a :: b :: c :: rest).length ↔ i + 1 < rest.length := by
    simp only [List.length_cons]
    omega
  have htwo : i + 3 + 2 < (a :: b :: c :: rest).length ↔ i + 2 < rest.length := by
    simp only [List.length_cons]
    omega
  simp only [base64Group, hone, htwo]
  rfl

theorem base64_cons (a b c : UInt8) (rest : Text) :
    base64 (a :: b :: c :: rest) = base64Group [a, b, c] 0 ++ base64 rest := by
  have hcount : ((a :: b :: c :: rest).length + 2) / 3 = (rest.length + 2) / 3 + 1 := by
    simp only [List.length_cons]
    omega
  rw [base64, hcount, List.range_succ_eq_map, List.flatMap_cons, List.flatMap_map]
  congr 1
  exact List.flatMap_congr fun k _ => base64Group_add_three a b c rest (3 * k)

theorem value_sixBits (n : ℕ) : value (sixBits n) = some (n % 64) := by
  have htable : ∀ i : Fin 64, value (base64Table.getD i 0) = some i.val := by decide +kernel
  have hmask : n &&& 0x3F = n % 64 := Nat.and_two_pow_sub_one_eq_mod n 6
  rw [sixBits, hmask]
  exact htable ⟨n % 64, Nat.mod_lt n (by decide)⟩

/-- Three bytes as a number of 24 bits. -/
def word (a b c : UInt8) : ℕ := a.toNat * 65536 + b.toNat * 256 + c.toNat

theorem pack_eq (a b c : UInt8) :
    a.toNat <<< 16 ||| b.toNat <<< 8 ||| c.toNat = word a b c := by
  have hb := b.toNat_lt
  have hhigh : a.toNat <<< 16 ||| b.toNat <<< 8 = (a.toNat * 256 + b.toNat) <<< 8 := by
    rw [← Nat.shiftLeft_add_eq_or_of_lt (by rw [Nat.shiftLeft_eq]; omega), Nat.shiftLeft_eq,
      Nat.shiftLeft_eq, Nat.shiftLeft_eq]
    omega
  rw [hhigh, ← Nat.shiftLeft_add_eq_or_of_lt c.toNat_lt, Nat.shiftLeft_eq, word]
  omega

theorem base64Group_three (a b c : UInt8) :
    base64Group [a, b, c] 0 =
      [sixBits (word a b c >>> 18), sixBits (word a b c >>> 12), sixBits (word a b c >>> 6),
        sixBits (word a b c)] := by
  rw [← pack_eq]
  rfl

theorem base64_two (a b : UInt8) :
    base64 [a, b] =
      [sixBits (word a b 0 >>> 18), sixBits (word a b 0 >>> 12), sixBits (word a b 0 >>> 6),
        pad] := by
  rw [← pack_eq]
  simp [base64, base64Group]

theorem base64_one (a : UInt8) :
    base64 [a] = [sixBits (word a 0 0 >>> 18), sixBits (word a 0 0 >>> 12), pad, pad] := by
  rw [← pack_eq]
  simp [base64, base64Group]

/-! ## Reading the text back -/

/-- The bytes of a word, from its four groups of six bits. -/
theorem bytes_of_word (a b c : UInt8) :
    byte₁ ((word a b c >>> 18) % 64) ((word a b c >>> 12) % 64) = a ∧
      byte₂ ((word a b c >>> 12) % 64) ((word a b c >>> 6) % 64) = b ∧
      byte₃ ((word a b c >>> 6) % 64) (word a b c % 64) = c := by
  have ha := a.toNat_lt
  have hb := b.toNat_lt
  have hc := c.toNat_lt
  have hof {n : ℕ} {x : UInt8} (h : n = x.toNat) : UInt8.ofNat n = x := by
    rw [h, UInt8.ofNat_toNat]
  simp only [Nat.shiftRight_eq_div_pow, byte₁, byte₂, byte₃]
  refine ⟨hof ?_, hof ?_, hof ?_⟩ <;> unfold word <;> omega

theorem decode_base64 : (d : Text) → decode (base64 d) = some d
  | [] => rfl
  | [a] => by
    obtain ⟨hone, -, -⟩ := bytes_of_word a 0 0
    have hzero : (word a 0 0 >>> 12) % 64 % 16 = 0 := by
      rw [Nat.shiftRight_eq_div_pow, word, UInt8.toNat_zero]
      omega
    rw [base64_one, decode_one (value_sixBits _) (value_sixBits _) hzero, hone]
  | [a, b] => by
    obtain ⟨hone, htwo, -⟩ := bytes_of_word a b 0
    have hzero : (word a b 0 >>> 6) % 64 % 4 = 0 := by
      rw [Nat.shiftRight_eq_div_pow, word, UInt8.toNat_zero]
      omega
    rw [base64_two, decode_two (value_sixBits _) (value_sixBits _) (value_sixBits _) hzero, hone,
      htwo]
  | a :: b :: c :: rest => by
    obtain ⟨hone, htwo, hthree⟩ := bytes_of_word a b c
    have hgroup := decode_group (value_sixBits (word a b c >>> 18)) (value_sixBits (word a b c >>> 12))
      (value_sixBits (word a b c >>> 6)) (value_sixBits (word a b c)) (base64 rest)
    rw [hone, htwo, hthree, decode_base64 rest] at hgroup
    rw [base64_cons, base64Group_three]
    exact hgroup

theorem length_base64Group (d : Text) (i : ℕ) : (base64Group d i).length = 4 := rfl

theorem length_base64 (d : Text) : (base64 d).length = 4 * ((d.length + 2) / 3) := by
  simp [base64, List.length_flatMap, length_base64Group, Nat.mul_comm]

theorem sixBits_mem (n : ℕ) : sixBits n ∈ base64Table := by
  have hlength : base64Table.length = 64 := by decide +kernel
  have hlt : n &&& 0x3F < base64Table.length := by
    rw [hlength]
    exact Nat.lt_succ_of_le Nat.and_le_right
  rw [sixBits, List.getD_eq_getElem _ _ hlt]
  exact List.getElem_mem hlt

/-- The text is made of characters of the alphabet, with pads behind them. -/
theorem base64_padded : (d : Text) → ∃ body, (∀ c ∈ body, c ∈ base64Table) ∧
    base64 d = body ++ List.replicate ((3 - d.length % 3) % 3) pad
  | [] => ⟨[], by simp, rfl⟩
  | [a] => by
    refine ⟨[sixBits (word a 0 0 >>> 18), sixBits (word a 0 0 >>> 12)], ?_, base64_one a⟩
    simp [sixBits_mem]
  | [a, b] => by
    refine ⟨[sixBits (word a b 0 >>> 18), sixBits (word a b 0 >>> 12),
      sixBits (word a b 0 >>> 6)], ?_, base64_two a b⟩
    simp [sixBits_mem]
  | a :: b :: c :: rest => by
    obtain ⟨body, hbody, heq⟩ := base64_padded rest
    refine ⟨base64Group [a, b, c] 0 ++ body, ?_, ?_⟩
    · rw [base64Group_three]
      intro x hx
      rcases List.mem_append.mp hx with hx | hx
      · simp only [List.mem_cons, List.not_mem_nil, or_false] at hx
        rcases hx with rfl | rfl | rfl | rfl <;> exact sixBits_mem _
      · exact hbody x hx
    · have hcount : (a :: b :: c :: rest).length % 3 = rest.length % 3 := by
        simp only [List.length_cons]
        omega
      rw [base64_cons, heq, hcount, List.append_assoc]

/-- `base64` is the encoding of the standard: its text has the length, the alphabet and the
padding of RFC 4648, and decodes to the bytes it was made of. -/
theorem base64_encodes (d : Text) :
    (base64 d).length = 4 * ((d.length + 2) / 3) ∧
      (∃ body, (∀ c ∈ body, c ∈ base64Table) ∧
        base64 d = body ++ List.replicate ((3 - d.length % 3) % 3) pad) ∧
      decode (base64 d) = some d :=
  ⟨length_base64 d, base64_padded d, decode_base64 d⟩

example : base64 (ascii "fooba") = ascii "Zm9vYmE=" := by decide +kernel

end CapyJs.Util
