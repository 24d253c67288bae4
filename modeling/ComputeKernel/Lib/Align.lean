import Mathlib.Data.Int.Bitwise
import Mathlib.Tactic.Linarith

/-!
# Rounding with a bit mask

Clearing the low bits of an integer rounds it down to a multiple of a power of two, for
negative integers in two's complement as well.
-/

namespace ComputeKernel.Lib

theorem lnot_mask_succ (k : Nat) :
    Int.lnot (2 ^ (k + 1) - 1) = Int.bit false (Int.lnot (2 ^ k - 1)) := by
  have hmask : (2 ^ (k + 1) - 1 : Int) = Int.bit true (2 ^ k - 1) := by
    rw [Int.bit_val, pow_succ]
    simp
    omega
  rw [hmask, Int.lnot_bit]
  rfl

theorem bit_emod_pow_succ (b : Bool) (n : Int) (k : Nat) :
    Int.bit b n % 2 ^ (k + 1) = Int.bit b (n % 2 ^ k) := by
  have hpos : (0 : Int) < 2 ^ k := pow_pos (by decide) k
  have hbit : (0 : Int) ≤ cond b 1 0 ∧ cond b 1 0 ≤ (1 : Int) := by
    cases b <;> decide
  have hlow := Int.emod_nonneg n hpos.ne'
  have hhigh := Int.emod_lt_of_pos n hpos
  have hsplit : Int.bit b n = Int.bit b (n % 2 ^ k) + 2 ^ (k + 1) * (n / 2 ^ k) := by
    have hdiv := Int.mul_ediv_add_emod n (2 ^ k)
    rw [Int.bit_val, Int.bit_val, pow_succ]
    linarith
  rw [hsplit, Int.add_mul_emod_self_left]
  apply Int.emod_eq_of_lt
  · rw [Int.bit_val]
    omega
  · rw [Int.bit_val, pow_succ]
    omega

theorem land_lnot_mask (n : Int) (k : Nat) :
    Int.land n (Int.lnot (2 ^ k - 1)) = n - n % 2 ^ k := by
  induction k generalizing n with
  | zero =>
      rw [pow_zero, Int.emod_one, Int.sub_zero]
      cases n with
      | ofNat m =>
          change ((Nat.ldiff m 0 : Nat) : Int) = m
          simp [Nat.ldiff]
      | negSucc m =>
          change Int.negSucc (m ||| 0) = Int.negSucc m
          rw [Nat.or_zero]
  | succ k ih =>
      rw [← Int.bit_decomp n, lnot_mask_succ, Int.land_bit, ih, bit_emod_pow_succ,
        Bool.and_false, Int.bit_val, Int.bit_val, Int.bit_val]
      simp only [cond_false]
      omega

theorem round_up_bounds (n : Int) (k : Nat) :
    n ≤ Int.land (n + (2 ^ k - 1)) (Int.lnot (2 ^ k - 1)) ∧
      (2 ^ k : Int) ∣ Int.land (n + (2 ^ k - 1)) (Int.lnot (2 ^ k - 1)) := by
  have hpos : (0 : Int) < 2 ^ k := pow_pos (by decide) k
  rw [land_lnot_mask]
  constructor
  · have := Int.emod_lt_of_pos (n + (2 ^ k - 1)) hpos
    omega
  · exact Int.dvd_self_sub_emod

end ComputeKernel.Lib
