import Mathlib.Analysis.Real.Sqrt
import Mathlib.Algebra.Order.Floor.Semiring
import Mathlib.Data.Rat.Floor

/-!
# Rounded square roots

The square root of a rational number, rounded to decimal places, computed with integers.
-/

namespace NoiseLevel.Core

/-- The integer nearest to the square root, a half rounded up. -/
def roundedRoot (q : ℚ) : ℕ := (Nat.sqrt ⌊4 * q⌋₊ + 1) / 2

/-- The square root rounded to a number of places behind the point. -/
def rootTo (places : ℕ) (q : ℚ) : ℚ := roundedRoot (q * 100 ^ places) / 10 ^ places

variable {q : ℚ}

/-- The integer root is not above the root. -/
theorem natSqrt_floor_le (h : 0 ≤ q) : (Nat.sqrt ⌊q⌋₊ : ℝ) ≤ √(q : ℝ) := by
  have hf : ((⌊q⌋₊ : ℕ) : ℝ) ≤ (q : ℝ) := by exact_mod_cast Nat.floor_le h
  exact Real.nat_sqrt_le_real_sqrt.trans (Real.sqrt_le_sqrt hf)

/-- The integer root is less than one below the root. -/
theorem lt_natSqrt_floor (q : ℚ) : √(q : ℝ) < Nat.sqrt ⌊q⌋₊ + 1 := by
  have hs : ⌊q⌋₊ + 1 ≤ (Nat.sqrt ⌊q⌋₊ + 1) ^ 2 := Nat.succ_le_succ_sqrt' ⌊q⌋₊
  have hq : (q : ℝ) < (Nat.sqrt ⌊q⌋₊ + 1 : ℝ) ^ 2 := by
    have hf : q < ((Nat.sqrt ⌊q⌋₊ + 1) ^ 2 : ℕ) :=
      (Nat.lt_floor_add_one q).trans_le (by exact_mod_cast hs)
    exact_mod_cast hf
  rw [Real.sqrt_lt' (by positivity)]
  exact hq

/-- The rounded root is within a half of the root. -/
theorem abs_roundedRoot_sub_sqrt (h : 0 ≤ q) : |(roundedRoot q : ℝ) - √(q : ℝ)| ≤ 1 / 2 := by
  have hroot : √((4 * q : ℚ) : ℝ) = 2 * √(q : ℝ) := by
    push_cast
    rw [show (4 : ℝ) * q = 2 ^ 2 * q by norm_num, Real.sqrt_mul (by norm_num),
      Real.sqrt_sq (by norm_num)]
  have hle := natSqrt_floor_le (q := 4 * q) (by linarith)
  have hlt := lt_natSqrt_floor (4 * q)
  rw [hroot] at hle hlt
  have hlow : (Nat.sqrt ⌊4 * q⌋₊ : ℝ) ≤ 2 * roundedRoot q := by
    have hn : Nat.sqrt ⌊4 * q⌋₊ ≤ 2 * roundedRoot q := by
      rw [roundedRoot]
      omega
    exact_mod_cast hn
  have hhigh : (2 * roundedRoot q : ℝ) ≤ Nat.sqrt ⌊4 * q⌋₊ + 1 := by
    have hn : 2 * roundedRoot q ≤ Nat.sqrt ⌊4 * q⌋₊ + 1 := by
      rw [roundedRoot]
      omega
    exact_mod_cast hn
  rw [abs_le]
  constructor <;> linarith

/-- A root rounded to places is within half a unit of its last place. -/
theorem abs_rootTo_sub_sqrt (places : ℕ) (h : 0 ≤ q) :
    |(rootTo places q : ℝ) - √(q : ℝ)| ≤ 1 / (2 * 10 ^ places) := by
  have hpos : (0 : ℝ) < 10 ^ places := by positivity
  have hroot : √((q * 100 ^ places : ℚ) : ℝ) = √(q : ℝ) * 10 ^ places := by
    push_cast
    rw [Real.sqrt_mul' _ (by positivity), show (100 : ℝ) ^ places = (10 ^ places) ^ 2 by
      rw [← pow_mul, mul_comm, pow_mul]; norm_num, Real.sqrt_sq hpos.le]
  have hb := abs_roundedRoot_sub_sqrt (q := q * 100 ^ places) (by positivity)
  rw [hroot] at hb
  have hdiff : (rootTo places q : ℝ) - √(q : ℝ) =
      (roundedRoot (q * 100 ^ places) - √(q : ℝ) * 10 ^ places) / 10 ^ places := by
    rw [rootTo]
    push_cast
    field_simp
  rw [hdiff, abs_div, abs_of_pos hpos, div_le_iff₀ hpos]
  calc |(roundedRoot (q * 100 ^ places) : ℝ) - √(q : ℝ) * 10 ^ places| ≤ 1 / 2 := hb
    _ = 1 / (2 * 10 ^ places) * 10 ^ places := by field_simp

end NoiseLevel.Core
