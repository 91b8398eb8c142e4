import NoiseLevel.Core.EnergyLevel
import NoiseLevel.Mpi.Aggregation

/-!
# The error of the aggregated level

Each sum rounds to whole decibels. Up to three sources stay within one decibel of the
exact level. A longer fold is never much too loud, but sources ten decibels below the
level reached so far are lost one by one, however many there are.
-/

namespace NoiseLevel.Mpi

open NoiseLevel.Core

/-- Levels of sources. -/
def IsLevel (level : ℤ) : Prop := 10 ≤ level ∧ level ≤ 180

section Energy

variable (level : ℤ) (levels : List ℤ)

theorem energy_sum_pos : 0 < ((level :: levels).map fun x : ℤ => energy x).sum := by
  apply List.sum_pos
  · intro e he
    obtain ⟨x, -, rfl⟩ := List.mem_map.mp he
    exact energy_pos x
  · exact List.cons_ne_nil _ _

variable {level levels} (hl : ∀ x ∈ level :: levels, IsLevel x)
include hl

theorem partialLevel_isLevel : partialLevel (level :: levels) = levelFold (level :: levels) :=
  partialLevel_eq fun x hx => by have := (hl x hx).1; omega

/-- A relation that every rounded sum preserves, between the fold and its energies. -/
theorem preserved_partialLevel {R : ℕ → ℤ → ℝ → Prop} (hR : Preserved R)
    (hsingle : ∀ x : ℤ, R 0 x (energy x)) : R levels.length (partialLevel (level :: levels))
      ((level :: levels).map fun x : ℤ => energy x).sum := by
  rw [partialLevel_isLevel hl]
  exact hR.levelFold hsingle fun x hx => by have := (hl x hx).1; omega

/-- Each sum adds at most half a decibel to the error. -/
theorem abs_error_le :
    |(partialLevel (level :: levels) : ℝ) - energyLevel (level :: levels)| ≤ levels.length / 2 := by
  have hpos := energy_sum_pos level levels
  obtain ⟨hle, hge⟩ := preserved_partialLevel hl preserved_halfSteps
    fun x => ⟨by simp, by simp⟩
  rw [abs_le, energyLevel]
  constructor
  · have h := (level_le_iff hpos (levels.length / 2 + partialLevel (level :: levels))).mpr (by
      rwa [energy_add, energy_half])
    linarith
  · have h := (le_level_iff hpos (partialLevel (level :: levels) - levels.length / 2)).mpr (by
      refine le_of_mul_le_mul_left ?_ (pow_pos halfStep_pos levels.length)
      rw [← energy_half, ← energy_add, add_sub_cancel, energy_half]
      exact hle)
    linarith

/-- A fold is never more than a fixed amount too loud. -/
theorem error_le : (partialLevel (level :: levels) : ℝ) - energyLevel (level :: levels) ≤
    10 * Real.logb 10 ahead := by
  have hpos := energy_sum_pos level levels
  have hahead : 0 < ahead := by have := two_lt_ahead; linarith
  have h := preserved_partialLevel hl preserved_ahead fun x => by
    have := energy_pos x
    have := two_lt_ahead
    nlinarith
  have hlevel := (le_level_iff (mul_pos hahead hpos) (partialLevel (level :: levels))).mpr h
  rw [Real.logb_mul hahead.ne' hpos.ne'] at hlevel
  rw [energyLevel]
  linarith

/-- A fold is at most the level of its length too quiet. -/
theorem neg_error_le : energyLevel (level :: levels) - (partialLevel (level :: levels) : ℝ) ≤
    10 * Real.logb 10 (1 + levels.length / 8) := by
  have hpos := energy_sum_pos level levels
  have h := preserved_partialLevel hl preserved_behind fun x => by simp
  have hlen : (0 : ℝ) < 1 + levels.length / 8 := by positivity
  have hlevel := (level_le_iff hpos
    (10 * Real.logb 10 (1 + levels.length / 8) + partialLevel (level :: levels))).mpr (by
      rwa [energy_add, energy_level hlen])
  rw [energyLevel]
  linarith

end Energy

/-- One source and some that are ten decibels below it. -/
def drowned (n : ℕ) : List ℤ := 20 :: List.replicate n 10

theorem isLevel_drowned (n : ℕ) : ∀ x ∈ drowned n, IsLevel x := by
  intro x hx
  rcases List.mem_cons.mp hx with rfl | hx
  · exact ⟨by decide, by decide⟩
  · rw [List.eq_of_mem_replicate hx]
    exact ⟨by decide, by decide⟩

/-- The quieter sources are not heard at all. -/
theorem partialLevel_drowned (n : ℕ) : partialLevel (drowned n) = 20 := by
  rw [drowned, partialLevel_isLevel (isLevel_drowned n), levelFold, List.foldl_cons,
    levelSum_zero_left]
  induction n with
  | zero => rfl
  | succ n ih => exact ih

/-- Their energy is missing from the level. -/
theorem energyLevel_drowned (n : ℕ) :
    energyLevel (drowned n) = 20 + 10 * Real.logb 10 (1 + n / 10) := by
  have hsum : ((drowned n).map fun x : ℤ => energy x).sum = energy 20 * (1 + n / 10) := by
    have htwenty : energy 20 = energy 10 * 10 := by
      rw [show (20 : ℝ) = 10 + 10 by norm_num, energy_add, energy_ten]
    rw [drowned, List.map_cons, List.sum_cons, List.map_replicate, List.sum_replicate, nsmul_eq_mul]
    norm_num
    rw [htwenty]
    ring
  have hpos : (0 : ℝ) < 1 + n / 10 := by positivity
  have htwenty : 10 * Real.logb 10 (energy 20) = 20 :=
    le_antisymm ((level_le_iff (energy_pos 20) 20).mpr le_rfl)
      ((le_level_iff (energy_pos 20) 20).mpr le_rfl)
  rw [energyLevel, hsum, Real.logb_mul (energy_pos 20).ne' hpos.ne', mul_add, htwenty]

/-- Three lost sources already make up more than one decibel. -/
theorem one_lt_drowned {n : ℕ} (hn : 3 ≤ n) : 1 < 10 * Real.logb 10 (1 + (n : ℝ) / 10) := by
  have hpos : (0 : ℝ) < 1 + n / 10 := by positivity
  have hthree : (3 : ℝ) ≤ n := by exact_mod_cast hn
  by_contra hle
  have h := (level_le_iff hpos 1).mp (not_lt.mp hle)
  have hone : energy 1 = halfStep ^ 2 := by rw [← energy_half]; norm_num
  have hstep := (halfStep_pow_bounds 2).2
  rw [hone] at h
  norm_num at hstep
  linarith

/-- How far a fold of levels can be from their exact level. -/
structure LevelAccuracy : Prop where
  error_le_sums : ∀ levels : List ℤ, levels ≠ [] → (∀ x ∈ levels, IsLevel x) →
    |(partialLevel levels : ℝ) - energyLevel levels| ≤ (levels.length - 1 : ℝ) / 2
  too_loud : ∀ levels : List ℤ, levels ≠ [] → (∀ x ∈ levels, IsLevel x) →
    (partialLevel levels : ℝ) - energyLevel levels ≤ 10 * Real.logb 10 ahead
  too_quiet : ∀ levels : List ℤ, levels ≠ [] → (∀ x ∈ levels, IsLevel x) →
    energyLevel levels - partialLevel levels ≤ 10 * Real.logb 10 (1 + (levels.length - 1 : ℝ) / 8)
  /-- The exact level can be this much louder for any number of levels. -/
  lost : ∀ n : ℕ, ∃ levels : List ℤ, levels.length = n + 1 ∧ (∀ x ∈ levels, IsLevel x) ∧
    energyLevel levels - partialLevel levels = 10 * Real.logb 10 (1 + n / 10)
  /-- More than one decibel is lost from four levels on. -/
  lost_more : ∀ n : ℕ, 3 ≤ n → 1 < 10 * Real.logb 10 (1 + (n : ℝ) / 10)

/-- The accuracy of the folded level. -/
theorem levelAccuracy : LevelAccuracy := by
  constructor
  · rintro (_ | ⟨level, levels⟩) hne hl
    · exact absurd rfl hne
    · simpa using abs_error_le hl
  · rintro (_ | ⟨level, levels⟩) hne hl
    · exact absurd rfl hne
    · exact error_le hl
  · rintro (_ | ⟨level, levels⟩) hne hl
    · exact absurd rfl hne
    · simpa using neg_error_le hl
  · intro n
    refine ⟨drowned n, by simp [drowned], isLevel_drowned n, ?_⟩
    rw [energyLevel_drowned, partialLevel_drowned]
    push_cast
    ring
  · exact fun _ => one_lt_drowned

/-- Three sources ten decibels below a fourth one are lost. -/
theorem not_within_one : ¬∀ levels : List ℤ, levels ≠ [] → (∀ x ∈ levels, IsLevel x) →
    |(partialLevel levels : ℝ) - energyLevel levels| ≤ 1 := by
  intro hall
  have h := hall (drowned 3) (List.cons_ne_nil _ _) (isLevel_drowned 3)
  have hlost := one_lt_drowned (le_refl 3)
  rw [energyLevel_drowned, partialLevel_drowned, abs_le] at h
  push_cast at h hlost
  linarith

end NoiseLevel.Mpi
