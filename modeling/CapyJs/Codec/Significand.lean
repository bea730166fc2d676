import Mathlib.Algebra.Group.Int.Defs
import Mathlib.Algebra.Group.Nat.Defs
import Mathlib.Algebra.GroupWithZero.Nat
import Mathlib.Data.Nat.Log
import Mathlib.Tactic.Common

/-!
# Rounding to a number of significant bits

A binary format holds a natural number when its significand has room for the bits of the number.
Otherwise a conversion takes the nearest number that the format holds, and of two that are as
near the one with the even significand.
-/
namespace CapyJs.Codec.Significand

/-- The number has at most `p` significant bits. -/
def HasBits (p x : ℕ) : Prop := ∃ m k, m < 2 ^ p ∧ x = m * 2 ^ k

/-- No number of `p` significant bits is nearer to `n`. -/
structure IsNearest (p n x : ℕ) : Prop where
  hasBits : HasBits p x
  nearest : ∀ y, HasBits p y → ((x : ℤ) - n).natAbs ≤ ((y : ℤ) - n).natAbs

/-- How many of the low bits do not fit. -/
def excess (p n : ℕ) : ℕ := Nat.log 2 n + 1 - p

def roundToEven (p n : ℕ) : ℕ :=
  let unit := 2 ^ excess p n
  let q := n / unit
  let r := n % unit
  if 2 * r < unit ∨ 2 * r = unit ∧ q % 2 = 0 then q * unit else (q + 1) * unit

variable {p n y : ℕ}

theorem roundToEven_of_lt (hp : p ≠ 0) (h : n < 2 ^ p) : roundToEven p n = n := by
  have hlog := Nat.log_lt_of_lt_pow' hp h
  have hexcess : excess p n = 0 := by
    unfold excess
    omega
  simp [roundToEven, hexcess, Nat.mod_one]

/-- The bits that are kept fill the significand when some are not. -/
theorem bounds_of_excess (hp : p ≠ 0) (hexcess : excess p n ≠ 0) :
    2 ^ (p - 1) ≤ n / 2 ^ excess p n ∧ n / 2 ^ excess p n < 2 ^ p := by
  have hlog : Nat.log 2 n + 1 = p + excess p n := by
    unfold excess at hexcess ⊢
    omega
  have hn : n ≠ 0 := by
    rintro rfl
    rw [Nat.log_zero_right] at hlog
    omega
  have hlow := Nat.pow_log_le_self 2 hn
  have hhigh := Nat.lt_pow_succ_log_self Nat.one_lt_two n
  rw [Nat.succ_eq_add_one, hlog, Nat.pow_add] at hhigh
  refine ⟨?_, Nat.div_lt_of_lt_mul (Nat.mul_comm _ _ ▸ hhigh)⟩
  rw [Nat.le_div_iff_mul_le (Nat.two_pow_pos _), ← Nat.pow_add]
  have hexp : p - 1 + excess p n = Nat.log 2 n := by omega
  rwa [hexp]

/-- No number of `p` bits lies strictly between two neighbouring multiples of the unit. -/
theorem le_or_le_of_hasBits (hp : p ≠ 0) (hexcess : excess p n ≠ 0) (hy : HasBits p y) :
    y ≤ n / 2 ^ excess p n * 2 ^ excess p n ∨
      (n / 2 ^ excess p n + 1) * 2 ^ excess p n ≤ y := by
  obtain ⟨m, k, hm, rfl⟩ := hy
  obtain ⟨hlow, -⟩ := bounds_of_excess hp hexcess
  by_cases hk : excess p n ≤ k
  · -- a multiple of the unit
    obtain ⟨d, rfl⟩ := Nat.exists_eq_add_of_le hk
    have hsplit : m * 2 ^ (excess p n + d) = m * 2 ^ d * 2 ^ excess p n := by
      rw [Nat.pow_add, Nat.mul_assoc, Nat.mul_comm (2 ^ d)]
    rw [hsplit]
    rcases Nat.lt_or_ge (n / 2 ^ excess p n) (m * 2 ^ d) with hlt | hge
    · exact .inr (Nat.mul_le_mul_right _ hlt)
    · exact .inl (Nat.mul_le_mul_right _ hge)
  · -- below the first number that needs the unit
    left
    calc m * 2 ^ k ≤ 2 ^ p * 2 ^ (excess p n - 1) :=
          Nat.mul_le_mul hm.le (Nat.pow_le_pow_right Nat.two_pos (by omega))
      _ = 2 ^ (p - 1) * 2 ^ excess p n := by
          rw [← Nat.pow_add, ← Nat.pow_add]
          congr 1
          omega
      _ ≤ n / 2 ^ excess p n * 2 ^ excess p n := Nat.mul_le_mul_right _ hlow

theorem hasBits_roundToEven (hp : p ≠ 0) (hexcess : excess p n ≠ 0) :
    HasBits p (roundToEven p n) := by
  obtain ⟨-, hhigh⟩ := bounds_of_excess hp hexcess
  simp only [roundToEven]
  split_ifs
  · exact ⟨_, _, hhigh, rfl⟩
  · rcases Nat.lt_or_ge (n / 2 ^ excess p n + 1) (2 ^ p) with hlt | hge
    · exact ⟨_, _, hlt, rfl⟩
    · -- the carry leaves a power of two
      have hcarry : n / 2 ^ excess p n + 1 = 2 ^ p := Nat.le_antisymm hhigh hge
      refine ⟨1, p + excess p n, Nat.one_lt_two_pow hp, ?_⟩
      rw [hcarry, Nat.pow_add, Nat.one_mul]

theorem isNearest_roundToEven (hp : p ≠ 0) (n : ℕ) : IsNearest p n (roundToEven p n) := by
  by_cases hexcess : excess p n = 0
  · have hn : n < 2 ^ p := Nat.lt_pow_of_log_lt Nat.one_lt_two (by unfold excess at hexcess; omega)
    rw [roundToEven_of_lt hp hn]
    exact ⟨⟨n, 0, hn, (Nat.mul_one n).symm⟩, by simp⟩
  · refine ⟨hasBits_roundToEven hp hexcess, fun y hy => ?_⟩
    have hsides := le_or_le_of_hasBits hp hexcess hy
    have hsplit := Nat.div_add_mod n (2 ^ excess p n)
    have hr := Nat.mod_lt n (Nat.two_pow_pos (excess p n))
    rw [Nat.mul_comm] at hsplit
    rw [Nat.succ_mul] at hsides
    simp only [roundToEven]
    split_ifs with hround
    · omega
    · rw [Nat.succ_mul]
      omega

end CapyJs.Codec.Significand
