import Mathlib.Analysis.SpecialFunctions.Log.Base
import Mathlib.Tactic

/-!
# Adding two sound levels in whole decibels

The energy sum of two levels exceeds the larger one by an amount that depends only
on their difference. Half-decibel thresholds of that amount are integer powers of
the twentieth root of ten, so the rounded sum of integer levels is an exact table.
-/

namespace NoiseLevel.Core

/-- What the rounded sum adds to the larger of two levels, by their difference. -/
def gain (d : ℕ) : ℤ :=
  if d ≤ 1 then 3 else if d ≤ 3 then 2 else if d ≤ 9 then 1 else 0

/-- The rounded sum of two integer levels. -/
def decibelSum (a b : ℤ) : ℤ := max a b + gain (a - b).natAbs

/-- The exact level of two sources together. -/
noncomputable def energySum (a b : ℝ) : ℝ :=
  10 * Real.logb 10 ((10 : ℝ) ^ (a / 10) + (10 : ℝ) ^ (b / 10))

/-- The energy of a level. -/
noncomputable def energy (a : ℝ) : ℝ := (10 : ℝ) ^ (a / 10)

/-- The exact level of a list of sources. -/
noncomputable def energyLevel (l : List ℤ) : ℝ :=
  10 * Real.logb 10 ((l.map fun a : ℤ => energy a).sum)

/-- How far the energy of rounded sums can be ahead of the energy of the sources. -/
noncomputable def ahead : ℝ := energy 10 - energy 9

/-- A second level never lowers the sum. -/
theorem gain_nonneg (d : ℕ) : 0 ≤ gain d := by unfold gain; split_ifs <;> omega

/-- A sum is at most three decibels above the larger level. -/
theorem gain_le (d : ℕ) : gain d ≤ 3 := by unfold gain; split_ifs <;> omega

/-- Levels that are ten decibels apart add nothing. -/
theorem gain_eq_zero_iff (d : ℕ) : gain d = 0 ↔ 10 ≤ d := by unfold gain; split_ifs <;> omega

/-- Levels further apart add less. -/
theorem gain_antitone : Antitone gain := by
  intro d e h
  unfold gain
  split_ifs <;> omega

/-- Moving one decibel apart loses at most one decibel of gain. -/
theorem gain_le_succ (d : ℕ) : gain d ≤ gain (d + 1) + 1 := by
  unfold gain
  split_ifs <;> omega

/-- The twentieth root of ten: half a decibel as a factor. -/
noncomputable def halfStep : ℝ := (10 : ℝ) ^ ((1 : ℝ) / 20)

/-- A half step is positive. -/
theorem halfStep_pos : 0 < halfStep := Real.rpow_pos_of_pos (by norm_num) _

/-- Half steps multiply. -/
theorem halfStep_pow (k : ℕ) : halfStep ^ k = (10 : ℝ) ^ ((k : ℝ) / 20) := by
  rw [halfStep, ← Real.rpow_natCast, ← Real.rpow_mul (by norm_num)]
  ring_nf

/-- Twenty half steps are ten times the energy. -/
theorem halfStep_pow_twenty : halfStep ^ 20 = 10 := by
  rw [halfStep_pow]
  norm_num

/-- A bound from below. -/
theorem lt_halfStep : 1.122 < halfStep := by
  apply lt_of_pow_lt_pow_left₀ 20 halfStep_pos.le
  rw [halfStep_pow_twenty]
  norm_num

/-- A bound from above. -/
theorem halfStep_lt : halfStep < 1.1221 := by
  apply lt_of_pow_lt_pow_left₀ 20 (by norm_num)
  rw [halfStep_pow_twenty]
  norm_num

/-- A level of at least half of `k` decibels. -/
theorem half_le_logb {x : ℝ} (hx : 0 < x) (k : ℕ) :
    (k : ℝ) / 2 ≤ 10 * Real.logb 10 x ↔ halfStep ^ k ≤ x := by
  rw [halfStep_pow, ← Real.le_logb_iff_rpow_le (by norm_num) hx]
  constructor <;> intro h <;> linarith

/-- A level below half of `k` decibels. -/
theorem logb_lt_half {x : ℝ} (hx : 0 < x) (k : ℕ) :
    10 * Real.logb 10 x < (k : ℝ) / 2 ↔ x < halfStep ^ k := by
  rw [halfStep_pow, ← Real.logb_lt_iff_lt_rpow (by norm_num) hx]
  constructor <;> intro h <;> linarith

/-- What the exact sum adds to the larger of two levels `d` decibels apart. -/
noncomputable def exactGain (d : ℕ) : ℝ := 10 * Real.logb 10 (1 + (halfStep ^ (2 * d))⁻¹)

/-- The exact sum is the larger level and a gain. -/
theorem energySum_eq {a b : ℤ} (h : b ≤ a) :
    energySum a b = a + exactGain (a - b).natAbs := by
  have hd : ((a - b).natAbs : ℝ) = (a : ℝ) - b := by
    rw [Nat.cast_natAbs, abs_of_nonneg (by omega)]
    push_cast
    ring
  have hquot : (halfStep ^ (2 * (a - b).natAbs))⁻¹ = (10 : ℝ) ^ (((b : ℝ) - a) / 10) := by
    rw [halfStep_pow, ← Real.rpow_neg (by norm_num)]
    push_cast
    rw [hd]
    ring_nf
  have hfactor : (10 : ℝ) ^ ((a : ℝ) / 10) + (10 : ℝ) ^ ((b : ℝ) / 10) =
      (10 : ℝ) ^ ((a : ℝ) / 10) * (1 + (10 : ℝ) ^ (((b : ℝ) - a) / 10)) := by
    rw [mul_add, mul_one, ← Real.rpow_add (by norm_num)]
    ring_nf
  have hpos : (0 : ℝ) < (10 : ℝ) ^ (((b : ℝ) - a) / 10) := Real.rpow_pos_of_pos (by norm_num) _
  rw [energySum, exactGain, hquot, hfactor, Real.logb_mul (by positivity) (by positivity),
    Real.logb_rpow (by norm_num) (by norm_num)]
  ring

/-- The order of two levels does not matter. -/
theorem energySum_comm (a b : ℝ) : energySum a b = energySum b a := by
  rw [energySum, energySum, add_comm]

/-- The ratio of two levels further apart is smaller. -/
theorem inv_pow_antitone {d e : ℕ} (h : d ≤ e) :
    (halfStep ^ (2 * e))⁻¹ ≤ (halfStep ^ (2 * d))⁻¹ := by
  have hone : 1 ≤ halfStep := by have := lt_halfStep; linarith
  apply inv_anti₀ (by have := halfStep_pos; positivity)
  exact pow_le_pow_right₀ hone (by omega)

/-- A lower threshold, checked at the largest difference that reaches it. -/
theorem half_le_exactGain {d e k : ℕ} (hde : d ≤ e)
    (h : halfStep ^ (k + 2 * e) ≤ halfStep ^ (2 * e) + 1) : (k : ℝ) / 2 ≤ exactGain d := by
  have hpos : 0 < halfStep ^ (2 * e) := pow_pos halfStep_pos _
  have hbase : halfStep ^ k ≤ 1 + (halfStep ^ (2 * e))⁻¹ := by
    rw [pow_add] at h
    rw [← div_le_div_iff_of_pos_right hpos, mul_div_assoc, div_self hpos.ne', mul_one, add_div,
      div_self hpos.ne', one_div] at h
    exact h
  have hlarge : (0 : ℝ) < 1 + (halfStep ^ (2 * d))⁻¹ := by have := halfStep_pos; positivity
  apply (half_le_logb hlarge k).mpr
  linarith [inv_pow_antitone hde]

/-- An upper threshold, checked at the smallest difference that stays below it. -/
theorem exactGain_lt_half {d e k : ℕ} (hed : e ≤ d)
    (h : halfStep ^ (2 * e) + 1 < halfStep ^ (k + 2 * e)) : exactGain d < (k : ℝ) / 2 := by
  have hpos : 0 < halfStep ^ (2 * e) := pow_pos halfStep_pos _
  have hbase : 1 + (halfStep ^ (2 * e))⁻¹ < halfStep ^ k := by
    rw [pow_add] at h
    rw [← div_lt_div_iff_of_pos_right hpos, mul_div_assoc, div_self hpos.ne', mul_one, add_div,
      div_self hpos.ne', one_div] at h
    exact h
  have hlarge : (0 : ℝ) < 1 + (halfStep ^ (2 * d))⁻¹ := by have := halfStep_pos; positivity
  apply (logb_lt_half hlarge k).mpr
  linarith [inv_pow_antitone hed]

/-- Powers of the half step between rational bounds. -/
theorem halfStep_pow_bounds (k : ℕ) :
    (1.122 : ℝ) ^ k ≤ halfStep ^ k ∧ halfStep ^ k ≤ (1.1221 : ℝ) ^ k :=
  ⟨pow_le_pow_left₀ (by norm_num) lt_halfStep.le k,
    pow_le_pow_left₀ halfStep_pos.le halfStep_lt.le k⟩

/-- The exact gain is not negative. -/
theorem exactGain_nonneg (d : ℕ) : 0 ≤ exactGain d := by
  have hpos := halfStep_pos
  have h : (1 : ℝ) ≤ 1 + (halfStep ^ (2 * d))⁻¹ := by
    have : (0 : ℝ) < (halfStep ^ (2 * d))⁻¹ := by positivity
    linarith
  have hlog := Real.logb_nonneg (b := 10) (by norm_num) h
  unfold exactGain
  linarith

/-- The exact gain rounds to the table. -/
theorem exactGain_bounds (d : ℕ) :
    (gain d : ℝ) - 1 / 2 ≤ exactGain d ∧ exactGain d < (gain d : ℝ) + 1 / 2 := by
  have hb := halfStep_pow_bounds
  unfold gain
  split_ifs with h1 h3 h9
  · have hl := half_le_exactGain (k := 5) h1 (by
      have := (hb 7).2; have := (hb 2).1; norm_num at *; linarith)
    have hu := exactGain_lt_half (k := 7) (Nat.zero_le d) (by
      have := (hb 7).1; norm_num at *; linarith)
    norm_num at *
    constructor <;> linarith
  · have hl := half_le_exactGain (k := 3) h3 (by
      have := (hb 9).2; have := (hb 6).1; norm_num at *; linarith)
    have hu := exactGain_lt_half (k := 5) (show 2 ≤ d by omega) (by
      have := (hb 9).1; have := (hb 4).2; norm_num at *; linarith)
    norm_num at *
    constructor <;> linarith
  · have hl := half_le_exactGain (k := 1) h9 (by
      have := (hb 19).2; have := (hb 18).1; norm_num at *; linarith)
    have hu := exactGain_lt_half (k := 3) (show 4 ≤ d by omega) (by
      have := (hb 11).1; have := (hb 8).2; norm_num at *; linarith)
    norm_num at *
    constructor <;> linarith
  · have hl := exactGain_nonneg d
    have hu := exactGain_lt_half (k := 1) (show 10 ≤ d by omega) (by
      have := (hb 1).1; rw [pow_add, halfStep_pow_twenty]; norm_num at *; linarith)
    norm_num at *
    constructor <;> linarith

/-- The exact sum of two integer levels rounds to their decibel sum. -/
theorem floor_energySum (a b : ℤ) : ⌊energySum a b + 1 / 2⌋ = decibelSum a b := by
  have hle : ∀ a b : ℤ, b ≤ a → ⌊energySum a b + 1 / 2⌋ = decibelSum a b := by
    intro a b h
    obtain ⟨hl, hu⟩ := exactGain_bounds (a - b).natAbs
    rw [Int.floor_eq_iff, energySum_eq h, decibelSum, max_eq_left h]
    push_cast
    constructor <;> linarith
  rcases le_total b a with h | h
  · exact hle a b h
  · rw [energySum_comm, hle b a h, decibelSum, decibelSum, max_comm, ← Int.natAbs_neg, neg_sub]

end NoiseLevel.Core
