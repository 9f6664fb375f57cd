import Mathlib.Algebra.BigOperators.Group.Finset.Basic
import Mathlib.Algebra.BigOperators.Ring.Finset
import Mathlib.Algebra.Ring.Parity
import Mathlib.Tactic.Ring

/-!
The discrete Fourier transform over a commutative ring, and how it falls into the
transforms of decimated subsequences. A subsequence is named by the block that
holds its transform: the block's number, its bits reversed, is where it starts.
-/

namespace HeteroSim.Fourier

open Finset

/-! ### Reversed bits -/

/-- The low `bits` bits of `i`, the lowest of them highest. -/
def reversed : Nat → Nat → Nat
  | 0, _ => 0
  | bits + 1, i => i % 2 * 2 ^ bits + reversed bits (i / 2)

theorem reversed_lt (bits i : Nat) : reversed bits i < 2 ^ bits := by
  induction bits generalizing i with
  | zero => simp [reversed]
  | succ bits ih =>
      have rest := ih (i / 2)
      rw [reversed, Nat.pow_succ]
      rcases Nat.mod_two_eq_zero_or_one i with even | odd
      · rw [even]
        omega
      · rw [odd]
        omega

theorem reversed_even (bits q : Nat) : reversed (bits + 1) (2 * q) = reversed bits q := by
  rw [reversed, Nat.mul_mod_right, Nat.zero_mul, Nat.zero_add, Nat.mul_div_cancel_left _ (by omega)]

theorem reversed_odd (bits q : Nat) :
    reversed (bits + 1) (2 * q + 1) = 2 ^ bits + reversed bits q := by
  have low : (2 * q + 1) % 2 = 1 := by omega
  have high : (2 * q + 1) / 2 = q := by omega
  rw [reversed, low, high, Nat.one_mul]

theorem reversed_high (bits i : Nat) :
    reversed (bits + 1) i = 2 * reversed bits i + i / 2 ^ bits % 2 := by
  induction bits generalizing i with
  | zero => simp [reversed]
  | succ bits ih =>
      have shifted : i / 2 / 2 ^ bits = i / 2 ^ (bits + 1) := by
        rw [Nat.div_div_eq_div_mul, Nat.pow_succ, Nat.mul_comm]
      rw [reversed, ih, shifted, reversed, Nat.pow_succ]
      ring

theorem reversed_low (bits low high : Nat) :
    reversed bits (high * 2 ^ bits + low) = reversed bits low := by
  induction bits generalizing low with
  | zero => rfl
  | succ bits ih =>
      have even : high * 2 ^ (bits + 1) = 2 * (high * 2 ^ bits) := by rw [Nat.pow_succ]; ring
      have parity : (high * 2 ^ (bits + 1) + low) % 2 = low % 2 := by omega
      have half : (high * 2 ^ (bits + 1) + low) / 2 = high * 2 ^ bits + low / 2 := by omega
      rw [reversed, reversed, parity, half, ih]

theorem reversed_involutive (bits i : Nat) (small : i < 2 ^ bits) :
    reversed bits (reversed bits i) = i := by
  induction bits generalizing i with
  | zero =>
      rw [Nat.pow_zero] at small
      rw [reversed]
      omega
  | succ bits ih =>
      rw [Nat.pow_succ] at small
      have rest := reversed_lt bits (i / 2)
      have top : (i % 2 * 2 ^ bits + reversed bits (i / 2)) / 2 ^ bits = i % 2 := by
        rw [Nat.add_comm, Nat.add_mul_div_right _ _ (Nat.two_pow_pos bits), Nat.div_eq_of_lt rest,
          Nat.zero_add]
      rw [reversed_high, reversed, reversed_low, ih (i / 2) (by omega), top]
      omega

/-! ### Transforms -/

section Transform

variable {K : Type} [CommRing K]

/-- `X_k = Σ x_j w^(jk)`. -/
def transform (n : Nat) (w : K) (x : Nat → K) (k : Nat) : K :=
  ∑ j ∈ range n, x j * w ^ (j * k)

/-- The transform of every `2^t`-th value, `2^s` of them, the one that block `q` holds. -/
def part (x : Nat → K) (w : K) (t s q k : Nat) : K :=
  ∑ m ∈ range (2 ^ s), x (reversed t q + m * 2 ^ t) * w ^ (m * k * 2 ^ t)

theorem part_single (x : Nat → K) (w : K) (t q k : Nat) : part x w t 0 q k = x (reversed t q) := by
  simp [part]

theorem part_whole (x : Nat → K) (w : K) (s k : Nat) :
    part x w 0 s 0 k = transform (2 ^ s) w x k := by
  simp [part, transform, reversed]

theorem sum_pairs (f : Nat → K) (n : Nat) :
    ∑ m ∈ range (2 * n), f m = ∑ m ∈ range n, f (2 * m) + ∑ m ∈ range n, f (2 * m + 1) := by
  induction n with
  | zero => simp
  | succ n ih =>
      rw [Nat.mul_succ, sum_range_succ, sum_range_succ, ih, sum_range_succ, sum_range_succ]
      ring

theorem part_split (x : Nat → K) (w : K) (t s q k : Nat) :
    part x w t (s + 1) q k =
      part x w (t + 1) s (2 * q) k + part x w (t + 1) s (2 * q + 1) k * w ^ (k * 2 ^ t) := by
  rw [part, Nat.pow_succ, Nat.mul_comm, sum_pairs, part, part, sum_mul]
  congr 1
  · apply sum_congr rfl
    intro m _
    have start : reversed t q + 2 * m * 2 ^ t = reversed t q + m * 2 ^ (t + 1) := by
      rw [Nat.pow_succ]
      ring
    have power : 2 * m * k * 2 ^ t = m * k * 2 ^ (t + 1) := by
      rw [Nat.pow_succ]
      ring
    rw [reversed_even, start, power]
  · apply sum_congr rfl
    intro m _
    have start : reversed t q + (2 * m + 1) * 2 ^ t = 2 ^ t + reversed t q + m * 2 ^ (t + 1) := by
      rw [Nat.pow_succ]
      ring
    have power : (2 * m + 1) * k * 2 ^ t = m * k * 2 ^ (t + 1) + k * 2 ^ t := by
      rw [Nat.pow_succ]
      ring
    rw [reversed_odd, start, power, pow_add w, ← mul_assoc]

variable {w : K} {t s : Nat}

theorem part_repeats (x : Nat → K) (root : w ^ 2 ^ (t + s) = -1) (q k : Nat) :
    part x w (t + 1) s q (k + 2 ^ s) = part x w (t + 1) s q k := by
  apply sum_congr rfl
  intro m _
  have whole : m * (k + 2 ^ s) * 2 ^ (t + 1) = m * k * 2 ^ (t + 1) + 2 ^ (t + s) * (2 * m) := by
    rw [Nat.pow_succ, Nat.pow_add]
    ring
  rw [whole, pow_add w, pow_mul w (2 ^ (t + s)), root, Even.neg_one_pow (even_two_mul m), mul_one]

theorem part_split_high (x : Nat → K) (root : w ^ 2 ^ (t + s) = -1) (q k : Nat) :
    part x w t (s + 1) q (k + 2 ^ s) =
      part x w (t + 1) s (2 * q) k - part x w (t + 1) s (2 * q + 1) k * w ^ (k * 2 ^ t) := by
  have turn : w ^ ((k + 2 ^ s) * 2 ^ t) = -w ^ (k * 2 ^ t) := by
    have sum : (k + 2 ^ s) * 2 ^ t = k * 2 ^ t + 2 ^ (t + s) := by
      rw [Nat.pow_add]
      ring
    rw [sum, pow_add, root, mul_neg_one]
  rw [part_split, part_repeats x root, part_repeats x root, turn]
  ring

end Transform

end HeteroSim.Fourier
