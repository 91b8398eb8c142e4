import NoiseLevel.Core.LevelFold

/-!
# The decibel sum of the simulation

`sum_noises` over exact reals. On non-negative levels it is the rounded level sum,
so every fold of the simulation is a fold of the integer table.
-/

namespace NoiseLevel.Mpi

open NoiseLevel.Core

/-- C's `round`: to the nearest integer, halves away from zero. -/
noncomputable def cRound (x : ℝ) : ℤ := if 0 ≤ x then ⌊x + 1 / 2⌋ else ⌈x - 1 / 2⌉

/-- `sum_noises`: two checks avoid the rounding for silent operands, and the others add up
as energies. -/
noncomputable def sumNoises (noise1 noise2 : ℤ) : ℤ :=
  if noise1 = 0 then noise2
  else if noise2 = 0 then noise1
  else cRound (energySum noise1 noise2)

@[simp] theorem sumNoises_zero_left (b : ℤ) : sumNoises 0 b = b := if_pos rfl

@[simp] theorem sumNoises_zero_right (a : ℤ) : sumNoises a 0 = a := by
  by_cases h : a = 0 <;> simp [sumNoises, h]

/-- The exact sum of two non-negative levels is non-negative. -/
theorem energySum_nonneg {a b : ℤ} (ha : 0 ≤ a) (hb : 0 ≤ b) : 0 ≤ energySum a b := by
  rcases le_total b a with h | h
  · rw [energySum_eq h]
    have := exactGain_nonneg (a - b).natAbs
    have : (0 : ℝ) ≤ a := by exact_mod_cast ha
    linarith
  · rw [energySum_comm, energySum_eq h]
    have := exactGain_nonneg (b - a).natAbs
    have : (0 : ℝ) ≤ b := by exact_mod_cast hb
    linarith

/-- On non-negative levels `sum_noises` is the rounded level sum. -/
theorem sumNoises_eq {a b : ℤ} (ha : 0 ≤ a) (hb : 0 ≤ b) : sumNoises a b = levelSum a b := by
  unfold sumNoises levelSum
  split_ifs
  · rfl
  · rfl
  · have h := energySum_nonneg ha hb
    have hf := floor_energySum a b
    rw [cRound, if_pos h, hf]

/-- Folding non-negative levels stays inside the table. -/
theorem foldl_sumNoises {l : List ℤ} (hl : ∀ x ∈ l, 0 ≤ x) {a : ℤ} (ha : 0 ≤ a) :
    l.foldl sumNoises a = l.foldl levelSum a := by
  induction l generalizing a with
  | nil => rfl
  | cons x l ih =>
    have hx := hl x (List.mem_cons_self ..)
    rw [List.foldl_cons, List.foldl_cons, sumNoises_eq ha hx]
    exact ih (fun y hy => hl y (List.mem_cons_of_mem x hy)) (levelSum_nonneg ha hx)

/-- The sum of two positive levels is the larger one and a gain that depends on their distance
alone. -/
theorem sumNoises_eq_decibelSum {a b : ℤ} (ha : 0 < a) (hb : 0 < b) :
    sumNoises a b = decibelSum a b := by
  rw [sumNoises_eq ha.le hb.le, levelSum_eq ha hb]

/-- The rounded sum of positive levels as an integer table, and the laws that follow from it. -/
theorem sumNoises_table (a b : ℤ) (ha : 0 < a) (hb : 0 < b) :
    (sumNoises a b = max a b + gain (a - b).natAbs ∧ sumNoises a b = sumNoises b a) ∧
    (max a b ≤ sumNoises a b ∧ sumNoises a b ≤ max a b + 3) ∧
    (sumNoises a b = max a b ↔ 10 ≤ |a - b|) ∧
    (∀ c, a ≤ c → sumNoises a b ≤ sumNoises c b) ∧
    (∀ c, b ≤ c → sumNoises a b ≤ sumNoises a c) ∧
    ∀ n, 0 ≤ n → sumNoises 0 n = n ∧ sumNoises n 0 = n := by
  have hsum : sumNoises a b = max a b + gain (a - b).natAbs := sumNoises_eq_decibelSum ha hb
  refine ⟨⟨hsum, ?_⟩, ?_, ?_, fun c hc => ?_, fun c hc => ?_, fun n _ => ?_⟩
  · rw [sumNoises_eq_decibelSum ha hb, sumNoises_eq_decibelSum hb ha, decibelSum_comm]
  · have hlow := gain_nonneg (a - b).natAbs
    have hhigh := gain_le (a - b).natAbs
    constructor <;> omega
  · rw [hsum, add_eq_left, gain_eq_zero_iff, ← Int.natCast_natAbs]
    exact_mod_cast Iff.rfl
  · rw [sumNoises_eq_decibelSum ha hb, sumNoises_eq_decibelSum (ha.trans_le hc) hb]
    exact decibelSum_mono_left hc b
  · rw [sumNoises_eq_decibelSum ha hb, sumNoises_eq_decibelSum ha (hb.trans_le hc)]
    exact decibelSum_mono le_rfl hc
  · exact ⟨sumNoises_zero_left n, sumNoises_zero_right n⟩

/-- 60 dB and 57 dB are 62 dB together. -/
theorem sumNoises_table_sixty : sumNoises 60 57 = 62 :=
  (sumNoises_table 60 57 (by decide) (by decide)).1.1

end NoiseLevel.Mpi
