import Mathlib.Data.List.Basic
import Mathlib.Tactic.Common

/-!
# Base64 as RFC 4648 has it

The alphabet and a decoder for whole texts. Padding stands in the last group only, and the
bits that it leaves over are zero.
-/
namespace CapyJs.Codec.Base64

def pad : UInt8 := 61

/-- `A` to `Z`, `a` to `z`, `0` to `9`, `+` and `/`, in this order. -/
def value (c : UInt8) : Option ℕ :=
  if 65 ≤ c ∧ c ≤ 90 then some (c.toNat - 65)
  else if 97 ≤ c ∧ c ≤ 122 then some (c.toNat - 97 + 26)
  else if 48 ≤ c ∧ c ≤ 57 then some (c.toNat - 48 + 52)
  else if c = 43 then some 62
  else if c = 47 then some 63
  else none

def byte₁ (x y : ℕ) : UInt8 := UInt8.ofNat (x * 4 + y / 16)
def byte₂ (y z : ℕ) : UInt8 := UInt8.ofNat (y % 16 * 16 + z / 4)
def byte₃ (z t : ℕ) : UInt8 := UInt8.ofNat (z % 4 * 64 + t)

/-- The last group of a text, with its first three characters, when it ends in a pad. -/
def decodePadded (a b c : UInt8) : Option (List UInt8) := do
  let x ← value a
  let y ← value b
  if c = pad then
    if y % 16 = 0 then some [byte₁ x y] else none
  else
    let z ← value c
    if z % 4 = 0 then some [byte₁ x y, byte₂ y z] else none

def decode : List UInt8 → Option (List UInt8)
  | [] => some []
  | a :: b :: c :: d :: rest =>
    if d = pad then
      if rest = [] then decodePadded a b c else none
    else do
      let x ← value a
      let y ← value b
      let z ← value c
      let t ← value d
      let bytes ← decode rest
      some (byte₁ x y :: byte₂ y z :: byte₃ z t :: bytes)
  | _ => none

theorem value_pad : value pad = none := by decide

theorem ne_pad_of_value {c : UInt8} {n : ℕ} (h : value c = some n) : c ≠ pad := by
  rintro rfl
  rw [value_pad] at h
  cases h

section
variable {a b c d : UInt8} {x y z t : ℕ}

theorem decode_one (ha : value a = some x) (hb : value b = some y) (hy : y % 16 = 0) :
    decode [a, b, pad, pad] = some [byte₁ x y] := by
  simp [decode, decodePadded, ha, hb, hy]

theorem decode_two (ha : value a = some x) (hb : value b = some y) (hc : value c = some z)
    (hz : z % 4 = 0) : decode [a, b, c, pad] = some [byte₁ x y, byte₂ y z] := by
  simp [decode, decodePadded, ha, hb, hc, hz, ne_pad_of_value hc]

theorem decode_group (ha : value a = some x) (hb : value b = some y) (hc : value c = some z)
    (hd : value d = some t) (rest : List UInt8) :
    decode (a :: b :: c :: d :: rest) =
      (decode rest).map fun bytes => byte₁ x y :: byte₂ y z :: byte₃ z t :: bytes := by
  rw [decode, if_neg (ne_pad_of_value hd)]
  simp only [ha, hb, hc, hd, Option.bind_eq_bind, Option.bind_some]
  cases decode rest with
  | none => rfl
  | some bytes => rfl

end
end CapyJs.Codec.Base64
