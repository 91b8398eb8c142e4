import NoiseLevel.Core.LevelFold

/-!
# How far a rounded fold is from the exact level

Energies turn levels into factors: half a decibel of rounding is one half step. A
relation between the folded level and the collected energy that survives one rounded
sum holds after the whole fold, and each bound on the error is such a relation.
-/

namespace NoiseLevel.Core

/-- Every level has a positive energy. -/
theorem energy_pos (a : ℝ) : 0 < energy a := Real.rpow_pos_of_pos (by norm_num) _

/-- Levels that add up multiply energies. -/
theorem energy_add (a b : ℝ) : energy (a + b) = energy a * energy b := by
  rw [energy, energy, energy, add_div, Real.rpow_add (by norm_num)]

/-- A higher level has a higher energy. -/
theorem energy_mono {a b : ℝ} (h : a ≤ b) : energy a ≤ energy b :=
  Real.rpow_le_rpow_of_exponent_le (by norm_num) (by linarith)

/-- The energy of zero decibels. -/
@[simp] theorem energy_zero : energy 0 = 1 := by rw [energy, zero_div, Real.rpow_zero]

/-- Ten decibels are ten times the energy. -/
theorem energy_ten : energy 10 = 10 := by rw [energy, div_self (by norm_num), Real.rpow_one]

/-- Whole and half decibels are powers of the half step. -/
theorem energy_half (k : ℕ) : energy ((k : ℝ) / 2) = halfStep ^ k := by
  rw [halfStep_pow, energy]
  ring_nf

/-- A decibel is two half steps. -/
theorem energy_natCast (k : ℕ) : energy k = halfStep ^ (2 * k) := by
  rw [← energy_half]
  push_cast
  ring_nf

/-- The level of an energy. -/
theorem energy_level {s : ℝ} (hs : 0 < s) : energy (10 * Real.logb 10 s) = s := by
  rw [energy, mul_div_cancel_left₀ _ (by norm_num)]
  exact Real.rpow_logb (by norm_num) (by norm_num) hs

/-- A level is at most another one when its energy is. -/
theorem level_le_iff {s : ℝ} (hs : 0 < s) (a : ℝ) : 10 * Real.logb 10 s ≤ a ↔ s ≤ energy a := by
  rw [energy, ← Real.logb_le_iff_le_rpow (by norm_num) hs, le_div_iff₀ (by norm_num), mul_comm]

/-- A level is at least another one when its energy is. -/
theorem le_level_iff {s : ℝ} (hs : 0 < s) (a : ℝ) : a ≤ 10 * Real.logb 10 s ↔ energy a ≤ s := by
  rw [energy, ← Real.le_logb_iff_rpow_le (by norm_num) hs, div_le_iff₀ (by norm_num), mul_comm]

/-- The energy of a sum of levels is the sum of their energies. -/
theorem energy_energySum (a b : ℝ) : energy (energySum a b) = energy a + energy b :=
  energy_level (add_pos (energy_pos a) (energy_pos b))

/-- One rounded sum is at most half a decibel above the exact one. -/
theorem energy_decibelSum_le (a b : ℤ) :
    energy (decibelSum a b) ≤ halfStep * (energy a + energy b) := by
  have hfloor := Int.floor_le (energySum a b + 1 / 2)
  rw [floor_energySum] at hfloor
  calc energy (decibelSum a b) ≤ energy (energySum a b + 1 / 2) := energy_mono hfloor
    _ = (energy a + energy b) * halfStep := by
      rw [energy_add, energy_energySum, ← pow_one halfStep, ← energy_half, Nat.cast_one]
    _ = halfStep * (energy a + energy b) := mul_comm _ _

/-- One rounded sum is at most half a decibel below the exact one. -/
theorem le_energy_decibelSum (a b : ℤ) :
    energy a + energy b ≤ halfStep * energy (decibelSum a b) := by
  have hfloor := Int.lt_floor_add_one (energySum a b + 1 / 2)
  rw [floor_energySum] at hfloor
  calc energy a + energy b = energy (energySum a b) := (energy_energySum a b).symm
    _ ≤ energy (decibelSum a b + 1 / 2) := energy_mono (by linarith)
    _ = energy (decibelSum a b) * halfStep := by
      rw [energy_add, ← pow_one halfStep, ← energy_half, Nat.cast_one]
    _ = halfStep * energy (decibelSum a b) := mul_comm _ _

/-- A relation between the number of sums, the folded level and the collected energy that
every rounded sum preserves. -/
def Preserved (R : ℕ → ℤ → ℝ → Prop) : Prop :=
  ∀ n a s (x : ℤ), 0 < s → R n a s → R (n + 1) (decibelSum a x) (s + energy x)

/-- A preserved relation holds after a fold of positive levels. -/
theorem Preserved.foldl {R : ℕ → ℤ → ℝ → Prop} (hR : Preserved R) {l : List ℤ}
    (hl : ∀ x ∈ l, 0 < x) {n : ℕ} {a : ℤ} {s : ℝ} (ha : 0 < a) (hs : 0 < s) (h : R n a s) :
    R (n + l.length) (l.foldl levelSum a) (s + (l.map fun x : ℤ => energy x).sum) := by
  induction l generalizing n a s with
  | nil => simpa using h
  | cons x l ih =>
    have hx := hl x List.mem_cons_self
    have hle := le_decibelSum_left a x
    have hstep := hR n a s x hs h
    have htail := ih (fun y hy => hl y (List.mem_cons_of_mem x hy)) (ha.trans_le hle)
      (add_pos hs (energy_pos x)) hstep
    rw [add_assoc s, Nat.add_right_comm] at htail
    rwa [List.foldl_cons, levelSum_eq ha hx, List.length_cons, List.map_cons, List.sum_cons]

/-- A preserved relation that holds of single levels holds of every fold. -/
theorem Preserved.levelFold {R : ℕ → ℤ → ℝ → Prop} (hR : Preserved R)
    (hsingle : ∀ x : ℤ, R 0 x (energy x)) {x : ℤ} {l : List ℤ} (hl : ∀ y ∈ x :: l, 0 < y) :
    R l.length (Core.levelFold (x :: l)) (((x :: l).map fun y : ℤ => energy y).sum) := by
  have h := hR.foldl (fun y hy => hl y (List.mem_cons_of_mem x hy)) (hl x List.mem_cons_self)
    (energy_pos x) (hsingle x)
  rwa [Nat.zero_add] at h

/-- Half a decibel more is more energy. -/
theorem one_le_halfStep : 1 ≤ halfStep := by
  have := lt_halfStep
  linarith

/-- Half a decibel is lost or won at each sum. -/
theorem preserved_halfSteps : Preserved fun n a s =>
    energy a ≤ halfStep ^ n * s ∧ s ≤ halfStep ^ n * energy a := by
  rintro n a s x hs ⟨hle, hge⟩
  have hpow : 1 ≤ halfStep ^ n := one_le_pow₀ one_le_halfStep
  have hx := energy_pos x
  have hh := halfStep_pos
  constructor
  · calc energy (decibelSum a x) ≤ halfStep * (energy a + energy x) := energy_decibelSum_le a x
      _ ≤ halfStep * (halfStep ^ n * s + halfStep ^ n * energy x) := by gcongr; nlinarith
      _ = halfStep ^ (n + 1) * (s + energy x) := by ring
  · calc s + energy x ≤ halfStep ^ n * energy a + halfStep ^ n * energy x := by
          gcongr
          nlinarith
      _ = halfStep ^ n * (energy a + energy x) := by ring
      _ ≤ halfStep ^ n * (halfStep * energy (decibelSum a x)) := by
          gcongr
          exact le_energy_decibelSum a x
      _ = halfStep ^ (n + 1) * energy (decibelSum a x) := by ring

/-- Every sum leaves at most an eighth of the folded energy behind. -/
theorem preserved_behind : Preserved fun n a s => s ≤ (1 + (n : ℝ) / 8) * energy a := by
  intro n a s x hs h
  have hsum := le_energy_decibelSum a x
  have hstep : halfStep ≤ 9 / 8 := by have := halfStep_lt; linarith
  have hmono : energy a ≤ energy (decibelSum a x) :=
    energy_mono (by exact_mod_cast le_decibelSum_left a x)
  have hpos := energy_pos (decibelSum a x)
  have hn : (0 : ℝ) ≤ (n : ℝ) / 8 := by positivity
  calc s + energy x ≤ (1 + (n : ℝ) / 8) * energy a + energy x := by linarith
    _ = (n : ℝ) / 8 * energy a + (energy a + energy x) := by ring
    _ ≤ (n : ℝ) / 8 * energy (decibelSum a x) + 9 / 8 * energy (decibelSum a x) := by
        gcongr
        nlinarith
    _ = (1 + ((n + 1 : ℕ) : ℝ) / 8) * energy (decibelSum a x) := by push_cast; ring

/-- A bound from below on the lead. -/
theorem two_lt_ahead : 2.04 < ahead := by
  have h := (halfStep_pow_bounds 18).2
  rw [ahead, energy_ten, show (9 : ℝ) = (9 : ℕ) by norm_num, energy_natCast]
  norm_num at *
  linarith

/-- What a gain adds, relative to the quieter level. -/
theorem energy_gain_le (d : ℕ) : energy d * (energy (gain d) - 1) ≤ ahead := by
  have hb := halfStep_pow_bounds
  have hahead := two_lt_ahead
  have hfactor : ∀ e g : ℕ, d ≤ e →
      energy d * (energy g - 1) ≤ halfStep ^ (2 * (e + g)) - halfStep ^ (2 * e) := by
    intro e g he
    have hmono : energy d ≤ energy e := energy_mono (by exact_mod_cast he)
    have hone : 0 ≤ energy g - 1 := by
      have := energy_mono (show (0 : ℝ) ≤ g by positivity)
      rw [energy_zero] at this
      linarith
    calc energy d * (energy g - 1) ≤ energy e * (energy g - 1) := by gcongr
      _ = energy (e + g : ℕ) - energy e := by rw [Nat.cast_add, energy_add]; ring
      _ = halfStep ^ (2 * (e + g)) - halfStep ^ (2 * e) := by rw [energy_natCast, energy_natCast]
  unfold gain
  split_ifs with h1 h3 h9
  · refine (hfactor 1 3 h1).trans ?_
    have := (hb 8).2
    have := (hb 2).1
    norm_num at *
    linarith
  · refine (hfactor 3 2 h3).trans ?_
    have := (hb 10).2
    have := (hb 6).1
    norm_num at *
    linarith
  · refine (hfactor 9 1 h9).trans (le_of_eq ?_)
    rw [ahead, ← energy_natCast, ← energy_natCast]
    norm_num
  · norm_num
    linarith

/-- The folded energy stays within a constant factor above the collected one. -/
theorem preserved_ahead : Preserved fun _ a s => energy a ≤ ahead * s := by
  intro n a s x hs h
  have hx := energy_pos x
  have hahead := two_lt_ahead
  rcases le_total x a with hle | hle
  · have hgain := energy_gain_le (a - x).natAbs
    have hcast : (((a - x).natAbs : ℕ) : ℝ) = a - x := by
      rw [Nat.cast_natAbs, abs_of_nonneg (by omega)]
      push_cast
      ring
    have ha : energy a = energy x * energy ((a - x).natAbs : ℕ) := by
      rw [← energy_add, hcast]
      ring_nf
    calc energy (decibelSum a x) = energy a * energy (gain (a - x).natAbs) := by
          rw [decibelSum_eq hle, Int.cast_add, energy_add]
      _ = energy a + energy x * (energy ((a - x).natAbs : ℕ) *
            (energy (gain (a - x).natAbs) - 1)) := by rw [ha]; ring
      _ ≤ ahead * s + energy x * ahead := by gcongr
      _ = ahead * (s + energy x) := by ring
  · have hgain : energy (gain (x - a).natAbs) ≤ ahead := by
      have hle3 : energy (gain (x - a).natAbs) ≤ energy (3 : ℕ) :=
        energy_mono (by exact_mod_cast gain_le _)
      have hb := (halfStep_pow_bounds 6).2
      rw [energy_natCast] at hle3
      norm_num at *
      linarith
    calc energy (decibelSum a x) = energy x * energy (gain (x - a).natAbs) := by
          rw [decibelSum_comm, decibelSum_eq hle, Int.cast_add, energy_add]
      _ ≤ energy x * ahead := by gcongr
      _ ≤ ahead * (s + energy x) := by nlinarith

end NoiseLevel.Core
