import Mathlib.Data.Nat.Bitwise

/-!
# Bits of natural numbers

Masks as remainders, shifts as products, and a bitwise or of parts that do not overlap as a sum.
-/

namespace Bits

theorem or_eq_add {a b n : ℕ} (ha : a % 2 ^ n = 0) (hb : b < 2 ^ n) : a ||| b = b + a := by
  obtain ⟨c, rfl⟩ := Nat.dvd_of_mod_eq_zero ha
  rw [← Nat.two_pow_add_eq_or_of_lt hb, Nat.add_comm]

/-- A number in front of lower bits. -/
theorem or_shiftLeft {b n : ℕ} (hb : b < 2 ^ n) (a : ℕ) : b ||| a <<< n = b + a * 2 ^ n := by
  rw [Nat.shiftLeft_eq, Nat.or_comm, or_eq_add (Nat.mul_mod_left a (2 ^ n)) hb]

theorem and_mask (u n : ℕ) : u &&& 2 ^ n - 1 = u % 2 ^ n := Nat.and_two_pow_sub_one_eq_mod u n

/-- The next bits of a number in front of its low ones. -/
theorem mod_or_shiftLeft (v n k : ℕ) :
    v % 2 ^ n ||| (v >>> n % 2 ^ k) <<< n = v % 2 ^ (n + k) := by
  rw [or_shiftLeft (Nat.mod_lt v (Nat.two_pow_pos n)), Nat.shiftRight_eq_div_pow, pow_add, Nat.mod_mul,
    Nat.mul_comm (2 ^ n)]

/-- Bits that are not shifted out. -/
theorem shiftLeft_mod {x k n w : ℕ} (hx : x < 2 ^ k) (h : n + k ≤ w) : x <<< n % 2 ^ w = x <<< n := by
  refine Nat.mod_eq_of_lt ?_
  calc x <<< n = 2 ^ n * x := by rw [Nat.shiftLeft_eq, Nat.mul_comm]
    _ < 2 ^ n * 2 ^ k := Nat.mul_lt_mul_of_pos_left hx (Nat.two_pow_pos n)
    _ = 2 ^ (n + k) := (pow_add 2 n k).symm
    _ ≤ 2 ^ w := Nat.pow_le_pow_right (by decide) h

/-- The next bits of a number in front of its low ones, in a word. -/
theorem mod_or_shiftLeft_mod (v : ℕ) {n k w : ℕ} (h : n + k ≤ w) :
    v % 2 ^ n ||| (v >>> n % 2 ^ k) <<< n % 2 ^ w = v % 2 ^ (n + k) := by
  rw [shiftLeft_mod (Nat.mod_lt _ (Nat.two_pow_pos k)) h, mod_or_shiftLeft]

end Bits
