import NoiseLevel.Mpi.NoiseSim
import Mathlib.Order.Bounds.Basic

/-!
# Aggregating partial levels

Every rank folds the sources it holds, in the order of the whole list, and the owner of
a cell folds the partial levels of the other ranks into its own, in the order of their
arrival. Each sum is rounded to whole decibels, so the result depends on the grouping and
on the order. The drift is bounded.
-/

namespace NoiseLevel.Mpi

open NoiseLevel.Core

/-- The level that one process computes for the sources of its part, in order. -/
noncomputable def partialLevel (part : List ℤ) : ℤ := part.foldl sumNoises 0

/-- What the owner of a cell stores: the received levels folded into its own. -/
noncomputable def aggregate (own : ℤ) (received : List ℤ) : ℤ := received.foldl sumNoises own

/-- The part of a rank is what `compute_noise_sqm` leaves in the cell. -/
theorem computeNoiseSqm_partialLevel (simConf : SimulationConfig) (sources : List NoiseSource)
    (numElem y x : ℤ) : computeNoiseSqm simConf initNoiseSqm sources numElem y x =
      partialLevel (((sources.take numElem.toNat).filter fun s => Covers simConf s y x).map
        NoiseSource.noiseLevel) := by
  rw [computeNoiseSqm_eq, foldl_addSource_apply, initNoiseSqm, partialLevel]

/-- The levels that a rank holds, in the order in which they were dealt out. -/
def heldBy (dealt : List (ℕ × ℤ)) (r : ℕ) : List ℤ := (dealt.filter fun d => d.1 = r).map Prod.snd

/-- The levels at one cell with the ranks they were dealt to, and the order in which the partial
levels of the other ranks arrive at the owner of the cell. -/
structure Distributed (worldSize owner : ℕ) (dealt : List (ℕ × ℤ)) (arrival : List ℕ) : Prop where
  positive : ∀ d ∈ dealt, 0 < d.2
  rank_lt : ∀ d ∈ dealt, d.1 < worldSize
  owner_lt : owner < worldSize
  order : arrival.Perm ((List.range worldSize).erase owner)

/-- Every rank has a block of the list, in the order of the ranks, as `MPI_Scatterv` deals it. -/
def InBlocks (dealt : List (ℕ × ℤ)) : Prop := (dealt.map Prod.fst).Pairwise (· ≤ ·)

/-- The level that the owner stores. -/
noncomputable def sharedLevel (owner : ℕ) (dealt : List (ℕ × ℤ)) (arrival : List ℕ) : ℤ :=
  aggregate (partialLevel (heldBy dealt owner)) (arrival.map fun r => partialLevel (heldBy dealt r))

/-- The level that a single process computes. -/
noncomputable def singleLevel (dealt : List (ℕ × ℤ)) : ℤ := partialLevel (dealt.map Prod.snd)

theorem partialLevel_eq {part : List ℤ} (h : ∀ level ∈ part, 0 ≤ level) :
    partialLevel part = levelFold part := foldl_sumNoises h le_rfl

/-- The level stored by the owner is a fold of folds of the integer table. -/
theorem aggregate_eq {own : List ℤ} {arrival : List (List ℤ)}
    (h : ∀ part ∈ own :: arrival, ∀ level ∈ part, 0 ≤ level) :
    aggregate (partialLevel own) (arrival.map partialLevel) =
      ((own :: arrival).map levelFold).foldl levelSum 0 := by
  have hown := h own List.mem_cons_self
  have hmap : arrival.map partialLevel = arrival.map levelFold :=
    List.map_congr_left fun part hp => partialLevel_eq (h part (List.mem_cons_of_mem own hp))
  have hparts : ∀ level ∈ arrival.map levelFold, 0 ≤ level := by
    intro level hl
    obtain ⟨part, hp, rfl⟩ := List.mem_map.mp hl
    exact levelFold_nonneg (h part (List.mem_cons_of_mem own hp))
  rw [aggregate, hmap, partialLevel_eq hown, foldl_sumNoises hparts (levelFold_nonneg hown),
    List.map_cons, List.foldl_cons, levelSum_zero_left]

/-- A rank holds its levels in the order of the list. -/
theorem heldBy_sublist (dealt : List (ℕ × ℤ)) (r : ℕ) :
    (heldBy dealt r).Sublist (dealt.map Prod.snd) := List.filter_sublist.map _

section Distributed

variable {worldSize owner : ℕ} {dealt : List (ℕ × ℤ)} {arrival : List ℕ}
  (h : Distributed worldSize owner dealt arrival)
include h

theorem Distributed.pos : ∀ level ∈ dealt.map Prod.snd, 0 < level := by
  intro level hl
  obtain ⟨d, hd, rfl⟩ := List.mem_map.mp hl
  exact h.positive d hd

theorem Distributed.nonneg :
    ∀ part ∈ heldBy dealt owner :: arrival.map (heldBy dealt), ∀ level ∈ part, 0 ≤ level := by
  intro part hp level hl
  have hsub : part.Sublist (dealt.map Prod.snd) := by
    rcases List.mem_cons.mp hp with rfl | hp
    · exact heldBy_sublist dealt owner
    · obtain ⟨r, -, rfl⟩ := List.mem_map.mp hp
      exact heldBy_sublist dealt r
  exact (h.pos level (hsub.subset hl)).le

/-- Every rank is the owner or sends its partial level, once. -/
theorem Distributed.ranks_perm : (owner :: arrival).Perm (List.range worldSize) :=
  (h.order.cons owner).trans (List.perm_cons_erase (List.mem_range.mpr h.owner_lt)).symm

theorem Distributed.sharedLevel_eq : sharedLevel owner dealt arrival =
    (((owner :: arrival).map (heldBy dealt)).map levelFold).foldl levelSum 0 := by
  have heq := aggregate_eq h.nonneg
  rwa [List.map_map] at heq

theorem Distributed.singleLevel_eq : singleLevel dealt = levelFold (dealt.map Prod.snd) :=
  partialLevel_eq fun level hl => (h.pos level hl).le

/-- The aggregated level is at most ten decibels away. -/
theorem Distributed.drift_le : |sharedLevel owner dealt arrival - singleLevel dealt| ≤ 10 := by
  have hsub : ∀ part ∈ (owner :: arrival).map (heldBy dealt),
      part.Sublist (dealt.map Prod.snd) := by
    intro part hp
    obtain ⟨r, -, rfl⟩ := List.mem_map.mp hp
    exact heldBy_sublist dealt r
  have hle := foldl_parts_le h.pos hsub
  have hge : levelFold (dealt.map Prod.snd) ≤ _ := le_foldl_parts h.nonneg fun level hl => by
    obtain ⟨d, hd, rfl⟩ := List.mem_map.mp hl
    have hrank := h.ranks_perm.mem_iff.mpr (List.mem_range.mpr (h.rank_lt d hd))
    refine ⟨heldBy dealt d.1, List.mem_map_of_mem hrank, ?_⟩
    exact List.mem_map_of_mem (List.mem_filter.mpr ⟨hd, decide_eq_true rfl⟩)
  rw [h.sharedLevel_eq, h.singleLevel_eq, abs_le]
  rw [← List.map_cons] at hge
  omega

end Distributed

/-- How far the aggregated level can be from that of a single process when the levels are dealt
out in a certain way. -/
def drifts (Dealt : List (ℕ × ℤ) → Prop) : Set ℤ :=
  {drift | ∃ worldSize owner dealt arrival, Distributed worldSize owner dealt arrival ∧
    Dealt dealt ∧ drift = |sharedLevel owner dealt arrival - singleLevel dealt|}

/-- One source of thirty decibels, and seven blocks of eight sources that fold to thirty. -/
def quietBlocks : List (ℕ × ℤ) :=
  (0, 30) :: (List.range' 1 7).flatMap fun r => List.replicate 8 (r, 20)

theorem distributed_quietBlocks : Distributed 8 0 quietBlocks (List.range' 1 7) where
  positive := by decide +kernel
  rank_lt := by decide +kernel
  owner_lt := by decide
  order := by decide

/-- The owner hears eight times thirty decibels, a single process only thirty. -/
theorem ten_mem_drifts {Dealt : List (ℕ × ℤ) → Prop} (h : Dealt quietBlocks) :
    10 ∈ drifts Dealt := by
  refine ⟨8, 0, quietBlocks, List.range' 1 7, distributed_quietBlocks, h, ?_⟩
  rw [distributed_quietBlocks.sharedLevel_eq, distributed_quietBlocks.singleLevel_eq]
  decide +kernel

theorem inBlocks_quietBlocks : InBlocks quietBlocks := by
  rw [InBlocks]
  decide +kernel

/-- The drift of the rounded sums is at most ten decibels, which is attained, also where the
levels are dealt out in blocks. -/
theorem isGreatest_drifts :
    IsGreatest (drifts fun _ => True) 10 ∧ IsGreatest (drifts InBlocks) 10 := by
  have hbound (Dealt : List (ℕ × ℤ) → Prop) : 10 ∈ upperBounds (drifts Dealt) := by
    rintro _ ⟨worldSize, owner, dealt, arrival, h, -, rfl⟩
    exact h.drift_le
  exact ⟨⟨ten_mem_drifts trivial, hbound _⟩, ten_mem_drifts inBlocks_quietBlocks, hbound _⟩

/-- Two sources on one rank and one on another add up to 21 decibels, on one rank to 20. -/
theorem aggregate_depends : ¬∀ worldSize owner dealt arrival,
    Distributed worldSize owner dealt arrival →
      sharedLevel owner dealt arrival = singleLevel dealt := by
  intro hall
  have hd : Distributed 2 0 [(0, 20), (1, 10), (1, 10)] [1] :=
    ⟨by decide, by decide, by decide, List.Perm.refl _⟩
  have h := hall _ _ _ _ hd
  rw [hd.sharedLevel_eq, hd.singleLevel_eq] at h
  exact absurd h (by decide)

end NoiseLevel.Mpi
