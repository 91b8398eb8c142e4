import Mathlib.Data.List.InsertIdx
import NoiseLevel.Mpi.NoiseSim

/-!
# The accumulated level of a cell

`compute_noise_sqm` folds the levels of the sources that reach a cell. One more source
never makes a cell quieter, no source is louder than the cell, and a cell stays within
ten decibels of the loudest source however many sources there are.
-/

namespace NoiseLevel.Mpi

open NoiseLevel.Core

/-- The levels of the sources that reach a cell, in the order of the array. -/
def reaching (simConf : SimulationConfig) (sources : List NoiseSource) (y x : ℤ) : List ℤ :=
  (sources.filter fun s => Covers simConf s y x).map NoiseSource.noiseLevel

variable {simConf : SimulationConfig} {sources : List NoiseSource} {y x : ℤ}

theorem mem_reaching {level : ℤ} : level ∈ reaching simConf sources y x ↔
    ∃ s ∈ sources, Covers simConf s y x ∧ s.noiseLevel = level := by
  simp only [reaching, List.mem_map, List.mem_filter, decide_eq_true_eq, and_assoc]

/-- What a property of all sources says about the levels at a cell. -/
theorem forall_reaching {p : ℤ → Prop} (h : ∀ s ∈ sources, p s.noiseLevel) :
    ∀ level ∈ reaching simConf sources y x, p level := by
  intro level hl
  obtain ⟨s, hs, -, rfl⟩ := mem_reaching.mp hl
  exact h s hs

/-- A cell of the zero matrix collects the levels that reach it. -/
theorem computeNoiseSqm_apply (hpos : ∀ s ∈ sources, 0 < s.noiseLevel) {numElem : ℤ}
    (hn : sources.length ≤ numElem) :
    computeNoiseSqm simConf initNoiseSqm sources numElem y x =
      levelFold (reaching simConf sources y x) := by
  have hlevels : ∀ level ∈ reaching simConf sources y x, 0 ≤ level :=
    forall_reaching fun s hs => (hpos s hs).le
  rw [computeNoiseSqm_eq, foldl_addSource_apply, List.take_of_length_le (by omega)]
  exact foldl_sumNoises hlevels le_rfl

/-- One more source in any place of the array makes no cell quieter, and no cell is quieter than
a source that reaches it. -/
theorem computeNoiseSqm_insertIdx (simConf : SimulationConfig) (sources : List NoiseSource)
    (extra : NoiseSource) (i : ℕ) (hi : i ≤ sources.length)
    (hpos : ∀ s ∈ sources, 0 < s.noiseLevel) (hextra : 0 < extra.noiseLevel) (y x : ℤ) :
    computeNoiseSqm simConf initNoiseSqm sources sources.length y x ≤
      computeNoiseSqm simConf initNoiseSqm (sources.insertIdx i extra) (sources.length + 1) y x ∧
    ∀ s ∈ sources, Covers simConf s y x →
      s.noiseLevel ≤ computeNoiseSqm simConf initNoiseSqm sources sources.length y x := by
  have hall : ∀ s ∈ sources.insertIdx i extra, 0 < s.noiseLevel := by
    intro s hs
    rcases List.eq_or_mem_of_mem_insertIdx hs with rfl | hs
    · exact hextra
    · exact hpos s hs
  have hlen : ((sources.insertIdx i extra).length : ℤ) ≤ sources.length + 1 := by
    rw [List.length_insertIdx_of_le_length hi, Nat.cast_succ]
  rw [computeNoiseSqm_apply hpos le_rfl, computeNoiseSqm_apply hall hlen]
  constructor
  · have hsub : (reaching simConf sources y x).Sublist
        (reaching simConf (sources.insertIdx i extra) y x) :=
      ((List.sublist_insertIdx sources i extra).filter _).map _
    exact levelFold_sublist hsub (forall_reaching hall)
  · intro s hs hcover
    exact mem_le_levelFold (forall_reaching fun s hs => (hpos s hs).le)
      (mem_reaching.mpr ⟨s, hs, hcover, rfl⟩)

/-- A third source between two others. -/
theorem computeNoiseSqm_insertIdx_between :
    computeNoiseSqm ⟨2, 0, 4, 4, 50, 80, 1, 2, 1, 2, 10⟩ initNoiseSqm
      [⟨50, 1, 1, 0, 0⟩, ⟨50, 1, 1, 1, 1⟩] 2 0 0 ≤
    computeNoiseSqm ⟨2, 0, 4, 4, 50, 80, 1, 2, 1, 2, 10⟩ initNoiseSqm
      [⟨50, 1, 1, 0, 0⟩, ⟨80, 2, 2, 0, 1⟩, ⟨50, 1, 1, 1, 1⟩] 3 0 0 :=
  (computeNoiseSqm_insertIdx ⟨2, 0, 4, 4, 50, 80, 1, 2, 1, 2, 10⟩
    [⟨50, 1, 1, 0, 0⟩, ⟨50, 1, 1, 1, 1⟩] ⟨80, 2, 2, 0, 1⟩ 1 (by decide) (by decide) (by decide)
    0 0).1

/-- Every value that a cell takes stays within ten decibels of the loudest level, which eight
sources of one level reach. -/
theorem accumulated_le (m : ℤ) (hm : 1 ≤ m) :
    (∀ levels : List ℤ, (∀ level ∈ levels, 1 ≤ level ∧ level ≤ m) →
      ∀ k, (levels.take k).foldl sumNoises 0 ≤ m + 10) ∧
    (∀ n, 8 ≤ n → (List.replicate n m).foldl sumNoises 0 = m + 10) ∧
    (m + 10 ≤ 2 ^ 31 - 1 → ∀ (simConf : SimulationConfig) (sources : List NoiseSource),
      (∀ s ∈ sources, 1 ≤ s.noiseLevel ∧ s.noiseLevel ≤ m) → ∀ numElem y x,
        0 ≤ computeNoiseSqm simConf initNoiseSqm sources numElem y x ∧
        computeNoiseSqm simConf initNoiseSqm sources numElem y x ≤ 2 ^ 31 - 1) := by
  refine ⟨fun levels hl k => ?_, fun n hn => ?_, fun hfits simConf sources hs numElem y x => ?_⟩
  · have htake : ∀ level ∈ levels.take k, 1 ≤ level ∧ level ≤ m :=
      fun level h => hl level (List.mem_of_mem_take h)
    rw [foldl_sumNoises (fun level h => by have := htake level h; omega) le_rfl]
    exact foldl_le_add_ten (fun level h => (htake level h).2) (by omega)
  · rw [foldl_sumNoises (fun level h => by rw [List.eq_of_mem_replicate h]; omega) le_rfl]
    exact foldl_replicate (by omega) hn
  · have htake : ∀ s ∈ sources.take numElem.toNat, 1 ≤ s.noiseLevel ∧ s.noiseLevel ≤ m :=
      fun s h => hs s (List.mem_of_mem_take h)
    have hlow : ∀ level ∈ reaching simConf (sources.take numElem.toNat) y x, 0 ≤ level :=
      forall_reaching fun s h => by have := htake s h; omega
    rw [computeNoiseSqm_eq, foldl_addSource_apply]
    have hfold : ((((sources.take numElem.toNat).filter fun s => Covers simConf s y x).map
        NoiseSource.noiseLevel).foldl sumNoises (initNoiseSqm y x)) =
        (reaching simConf (sources.take numElem.toNat) y x).foldl levelSum 0 :=
      foldl_sumNoises hlow le_rfl
    rw [hfold]
    refine ⟨levelFold_nonneg hlow, le_trans ?_ hfits⟩
    exact foldl_le_add_ten (forall_reaching fun s h => (htake s h).2) (by omega)

/-- Eight sources of 70 dB are 80 dB. -/
theorem accumulated_le_eight : (List.replicate 8 70).foldl sumNoises 0 = 80 :=
  (accumulated_le 70 (by decide)).2.1 8 le_rfl

end NoiseLevel.Mpi
