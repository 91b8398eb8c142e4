import NoiseLevel.Core.Tiling
import NoiseLevel.Mpi.NoiseSim
import Mathlib.Tactic.Ring

/-!
# How the sources are distributed and used

`main` fills two pairs of count and displacement arrays with the same loop, one for
the sources and one for the cells. The sources are scattered by these arrays, but the
calls that compute and move them are given the quotient without its remainder.
-/

namespace NoiseLevel.Mpi

open NoiseLevel.Core

/-- A displacement array, a count array and the running sum of their loop. -/
structure BlockArrays where
  displs : List ℤ
  counts : List ℤ
  inc : ℤ
  deriving DecidableEq, Repr

/-- The size of block `i` when `res` blocks hold one element more. -/
def blockCount (perProc res : ℤ) (i : ℕ) : ℤ := if (i : ℤ) + 1 ≤ res then perProc + 1 else perProc

/-- The loop of `main` that fills the arrays, one iteration for each rank. -/
def fillCounts (perProc res : ℤ) (worldSize : ℕ) : BlockArrays :=
  (List.range worldSize).foldl (fun a i =>
    ⟨a.displs ++ [a.inc], a.counts ++ [blockCount perProc res i], a.inc + blockCount perProc res i⟩)
    ⟨[], [], 0⟩

/-- Where block `i` starts. -/
def blockDispl (perProc res : ℤ) (i : ℕ) : ℤ := i * perProc + min (i : ℤ) res

theorem blockDispl_succ {perProc res : ℤ} (i : ℕ) :
    blockDispl perProc res i + blockCount perProc res i = blockDispl perProc res (i + 1) := by
  unfold blockDispl blockCount
  push_cast
  rw [add_mul, one_mul]
  split <;> omega

/-- The arrays in closed form. -/
theorem fillCounts_eq {perProc res : ℤ} (hres : 0 ≤ res) (worldSize : ℕ) :
    fillCounts perProc res worldSize =
      ⟨(List.range worldSize).map (blockDispl perProc res),
        (List.range worldSize).map (blockCount perProc res), blockDispl perProc res worldSize⟩ := by
  unfold fillCounts
  induction worldSize with
  | zero => simp [blockDispl, hres]
  | succ n ih =>
    rw [List.range_succ, List.foldl_append, ih]
    simp [blockDispl_succ]

/-- The blocks follow each other without gap or overlap. -/
theorem tiles_fillCounts {perProc res : ℤ} (hper : 0 ≤ perProc) (hres : 0 ≤ res) (worldSize : ℕ) :
    Tiles 0
      ((fillCounts perProc res worldSize).displs.zip (fillCounts perProc res worldSize).counts)
      (blockDispl perProc res worldSize) := by
  rw [fillCounts_eq hres]
  induction worldSize with
  | zero => simp [Tiles, blockDispl, hres]
  | succ n ih =>
    have hc : 0 ≤ blockCount perProc res n := by
      unfold blockCount
      split <;> omega
    have hstep := ih.snoc hc
    rw [blockDispl_succ] at hstep
    simpa [List.range_succ, List.zip_append] using hstep

/-- With quotient and remainder the blocks hold everything. -/
theorem blockDispl_div_mod {total : ℤ} {worldSize : ℕ} (h : 0 < worldSize) :
    blockDispl (total / worldSize) (total % worldSize) worldSize = total := by
  have hlt := Int.emod_lt_of_pos total (Int.natCast_pos.mpr h)
  rw [blockDispl, min_eq_right hlt.le]
  exact Int.mul_ediv_add_emod total worldSize

/-- `num_elem_per_proc`. -/
def numElemPerProc (simConf : SimulationConfig) (worldSize : ℕ) : ℤ :=
  (numSources simConf).tdiv worldSize

/-- `elem_res`. -/
def elemRes (simConf : SimulationConfig) (worldSize : ℕ) : ℤ :=
  (simConf.p + simConf.v).tmod worldSize

/-- `elem_displs` and `elem_send_count`. -/
def elemArrays (simConf : SimulationConfig) (worldSize : ℕ) : BlockArrays :=
  fillCounts (numElemPerProc simConf worldSize) (elemRes simConf worldSize) worldSize

/-- What `MPI_Scatterv` copies to one rank. -/
def scatterv {α : Type*} (global : List α) (arrays : BlockArrays) (rank : ℕ) : List α :=
  (global.drop ((arrays.displs[rank]?).getD 0).toNat).take ((arrays.counts[rank]?).getD 0).toNat

/-- `local_arr` of one rank after the scatter. -/
def localArr (simConf : SimulationConfig) (worldSize : ℕ) (rand : ℕ → ℕ) (rank : ℕ) :
    List NoiseSource :=
  scatterv (initSourcesArray simConf rand) (elemArrays simConf worldSize) rank

/-- Local array and matrix of one rank at the top of the loop of `main`; cycle `c`
moves the sources with the values `draws c`. -/
noncomputable def cycleStart (simConf : SimulationConfig) (worldSize : ℕ) (rand : ℕ → ℕ)
    (draws : ℕ → ℕ → ℕ) (rank : ℕ) : ℕ → List NoiseSource × Matrix
  | 0 => (localArr simConf worldSize rand rank, initNoiseSqm)
  | c + 1 =>
    let (sources, noiseSqm) := cycleStart simConf worldSize rand draws rank c
    let numElem := numElemPerProc simConf worldSize
    (moveNoiseSources simConf (draws c) sources numElem,
      resetMatrix (computeNoiseSqm simConf noiseSqm sources numElem) simConf.maxX simConf.maxY)

/-- How often a loop over the first `numElem` elements handles element `l`. -/
def passes (numElem : ℤ) (l : ℕ) : ℕ := (loopIndices numElem).count l

/-- Every source is held once and, in every cycle, computed once and moved once.
Elements of the global array are told apart by their index. -/
structure SourceCoverage (simConf : SimulationConfig) (worldSize : ℕ) (rand : ℕ → ℕ)
    (draws : ℕ → ℕ → ℕ → ℕ) : Prop where
  /-- Exactly one element of the local arrays is a copy of each global element. -/
  held_once : ∀ g < (initSourcesArray simConf rand).length, ∃! h : ℕ × ℕ, h.1 < worldSize ∧
    (scatterv (initSourcesArray simConf rand).zipIdx (elemArrays simConf worldSize) h.1)[h.2]? =
      ((initSourcesArray simConf rand)[g]?).map (·, g)
  /-- The loops of `compute_noise_sqm` and `move_noise_sources` handle each element once. -/
  passed_once : ∀ c, ∀ r < worldSize, ∀ l,
    l < (cycleStart simConf worldSize rand (draws r) r c).1.length →
      passes (numElemPerProc simConf worldSize) l = 1
  /-- The matrix sums the levels of all held sources that cover the cell. -/
  contributes : ∀ c, ∀ r < worldSize, ∀ y x, 0 ≤ y → y < simConf.maxY → 0 ≤ x → x < simConf.maxX →
    let s := cycleStart simConf worldSize rand (draws r) r c
    computeNoiseSqm simConf s.2 s.1 (numElemPerProc simConf worldSize) y x =
      ((s.1.filter fun source => Covers simConf source y x).map NoiseSource.noiseLevel).foldl
        sumNoises 0
  /-- Every held source makes one step of its walk. -/
  moves : ∀ c, ∀ r < worldSize, ∀ l,
    (cycleStart simConf worldSize rand (draws r) r (c + 1)).1[l]? =
      ((cycleStart simConf worldSize rand (draws r) r c).1[l]?).map fun source =>
        moveSource simConf source (draws r c (2 * l)) (draws r c (2 * l + 1))

theorem getElem?_scatterv {α : Type*} (global : List α) {perProc res : ℤ} (hres : 0 ≤ res)
    {worldSize rank : ℕ} (hr : rank < worldSize) (l : ℕ) :
    (scatterv global (fillCounts perProc res worldSize) rank)[l]? =
      if l < (blockCount perProc res rank).toNat then
        global[(blockDispl perProc res rank).toNat + l]?
      else none := by
  simp [scatterv, fillCounts_eq hres, hr, List.getElem?_take, List.getElem?_drop]

/-- The blocks of an array over the ranks. -/
theorem getElem?_blocks_iff (perProc : ℤ) {res : ℤ} (hres : 0 ≤ res) (worldSize r : ℕ)
    (block : ℤ × ℤ) : ((fillCounts perProc res worldSize).displs.zip
      (fillCounts perProc res worldSize).counts)[r]? = some block ↔
        r < worldSize ∧ block = (blockDispl perProc res r, blockCount perProc res r) := by
  rw [fillCounts_eq hres, List.zip_map', List.getElem?_map]
  rcases lt_or_ge r worldSize with hr | hr
  · simp [hr, eq_comm]
  · simp [not_lt.mpr hr]

theorem blockDispl_nonneg {perProc res : ℤ} (hper : 0 ≤ perProc) (hres : 0 ≤ res) (r : ℕ) :
    0 ≤ blockDispl perProc res r := by
  have := mul_nonneg (Int.natCast_nonneg r) hper
  unfold blockDispl
  omega

theorem length_scatterv {α : Type*} {global : List α} {perProc res : ℤ} (hper : 0 ≤ perProc)
    (hres : 0 ≤ res) {worldSize rank : ℕ} (hr : rank < worldSize)
    (hlen : blockDispl perProc res worldSize = global.length) :
    (scatterv global (fillCounts perProc res worldSize) rank).length =
      (blockCount perProc res rank).toNat := by
  have hblock := (getElem?_blocks_iff perProc hres worldSize rank _).mpr ⟨hr, rfl⟩
  obtain ⟨hlo, hhi, hpos⟩ := (tiles_fillCounts hper hres worldSize).bounds hblock
  simp only [scatterv, fillCounts_eq hres, List.length_take, List.length_drop]
  simp only [List.getElem?_map, List.getElem?_range hr, Option.map_some, Option.getD_some]
  omega

/-- A copy of an element stands at the index that its block gives it. -/
theorem getElem?_scatterv_zipIdx_iff {α : Type*} {global : List α} {perProc res : ℤ}
    (hres : 0 ≤ res) {worldSize r : ℕ} (hr : r < worldSize) {g : ℕ} (hg : g < global.length)
    (l : ℕ) : (scatterv global.zipIdx (fillCounts perProc res worldSize) r)[l]? =
      (global[g]?).map (·, g) ↔
        l < (blockCount perProc res r).toNat ∧ (blockDispl perProc res r).toNat + l = g := by
  rw [getElem?_scatterv _ hres hr, List.getElem?_zipIdx, List.getElem?_eq_getElem hg]
  constructor
  · intro h
    split at h
    · next hl =>
      refine ⟨hl, ?_⟩
      obtain ⟨x, _, hx⟩ := Option.map_eq_some_iff.mp h
      simpa using congrArg Prod.snd hx
    · cases h
  · rintro ⟨hl, rfl⟩
    simp [hl, hg]

/-- A scattered array holds every element once. -/
theorem scatterv_held_once {α : Type*} {global : List α} {perProc res : ℤ} (hper : 0 ≤ perProc)
    (hres : 0 ≤ res) {worldSize : ℕ} (hlen : blockDispl perProc res worldSize = global.length)
    {g : ℕ} (hg : g < global.length) :
    ∃! h : ℕ × ℕ, h.1 < worldSize ∧
      (scatterv global.zipIdx (fillCounts perProc res worldSize) h.1)[h.2]? =
        (global[g]?).map (·, g) := by
  obtain ⟨r, ⟨block, hb, hin⟩, huniq⟩ := (tiles_fillCounts hper hres worldSize).existsUnique
    (Int.natCast_nonneg g) (by rw [hlen]; exact_mod_cast hg)
  obtain ⟨hr, rfl⟩ := (getElem?_blocks_iff perProc hres worldSize r block).mp hb
  have hd := blockDispl_nonneg hper hres r
  refine ⟨(r, g - (blockDispl perProc res r).toNat),
    ⟨hr, (getElem?_scatterv_zipIdx_iff hres hr hg _).mpr ?_⟩, ?_⟩
  · unfold InBlock at hin
    omega
  · rintro ⟨r', l'⟩ ⟨hr', hl'⟩
    dsimp only at hr' hl'
    obtain ⟨hlt, hsum⟩ := (getElem?_scatterv_zipIdx_iff hres hr' hg l').mp hl'
    have hd' := blockDispl_nonneg hper hres r'
    have hin' : InBlock (blockDispl perProc res r', blockCount perProc res r') g := by
      unfold InBlock
      omega
    obtain rfl : r' = r :=
      huniq r' ⟨_, (getElem?_blocks_iff perProc hres worldSize r' _).mpr ⟨hr', rfl⟩, hin'⟩
    exact Prod.ext rfl (by omega)

variable {simConf : SimulationConfig} {worldSize : ℕ}

theorem numElemPerProc_eq (hp : 0 ≤ simConf.p) (hv : 0 ≤ simConf.v) :
    numElemPerProc simConf worldSize = (simConf.p + simConf.v) / worldSize := by
  rw [numElemPerProc, numSources, add_comm, Int.tdiv_eq_ediv_of_nonneg (add_nonneg hp hv)]

theorem elemRes_eq (hp : 0 ≤ simConf.p) (hv : 0 ≤ simConf.v) :
    elemRes simConf worldSize = (simConf.p + simConf.v) % worldSize := by
  rw [elemRes, Int.tmod_eq_emod_of_nonneg (add_nonneg hp hv)]

theorem length_cycleStart (rand : ℕ → ℕ) (draws : ℕ → ℕ → ℕ) (rank c : ℕ) :
    (cycleStart simConf worldSize rand draws rank c).1.length =
      (localArr simConf worldSize rand rank).length := by
  induction c with
  | zero => rfl
  | succ c ih => simpa [cycleStart] using ih

/-- Every cycle starts from a silent region. -/
theorem cycleStart_zero (rand : ℕ → ℕ) (draws : ℕ → ℕ → ℕ) (rank c : ℕ) {y x : ℤ} (hy : 0 ≤ y)
    (hy' : y < simConf.maxY) (hx : 0 ≤ x) (hx' : x < simConf.maxX) :
    (cycleStart simConf worldSize rand draws rank c).2 y x = 0 := by
  cases c with
  | zero => rfl
  | succ c =>
    simp only [cycleStart]
    rw [resetMatrix_apply, if_pos ⟨⟨hy, hy'⟩, hx, hx'⟩]

theorem passes_eq (numElem : ℤ) (l : ℕ) :
    passes numElem l = if (l : ℤ) < numElem then 1 else 0 := by
  unfold passes loopIndices
  split
  · exact List.count_eq_one_of_mem List.nodup_range (List.mem_range.mpr (by omega))
  · exact List.count_eq_zero_of_not_mem (by rw [List.mem_range]; omega)

section Coverage

variable (hp : 0 ≤ simConf.p) (hv : 0 ≤ simConf.v) (hw : 0 < worldSize)
include hp hv

theorem length_localArr (rand : ℕ → ℕ) {rank : ℕ} (hr : rank < worldSize) :
    (localArr simConf worldSize rand rank).length =
      (blockCount (numElemPerProc simConf worldSize) (elemRes simConf worldSize) rank).toNat := by
  have hw : 0 < worldSize := by omega
  rw [numElemPerProc_eq hp hv, elemRes_eq hp hv]
  rw [localArr, elemArrays, numElemPerProc_eq hp hv, elemRes_eq hp hv]
  refine length_scatterv (Int.ediv_nonneg (add_nonneg hp hv) (Int.natCast_nonneg _))
    (Int.emod_nonneg _ (by omega)) hr ?_
  rw [blockDispl_div_mod hw, length_initSourcesArray]
  omega

include hw

/-- When the ranks do not share the sources evenly, the last source of the first rank
is never passed to either loop. -/
theorem not_sourceCoverage (hres : (simConf.p + simConf.v) % worldSize ≠ 0) (rand : ℕ → ℕ)
    (draws : ℕ → ℕ → ℕ → ℕ) : ¬SourceCoverage simConf worldSize rand draws := by
  intro h
  have hres' := Int.emod_nonneg (simConf.p + simConf.v) (b := worldSize) (by omega)
  have hper := Int.ediv_nonneg (add_nonneg hp hv) (Int.natCast_nonneg worldSize)
  have hlen := length_localArr hp hv rand hw
  rw [numElemPerProc_eq hp hv, elemRes_eq hp hv, blockCount, if_pos (by push_cast; omega)] at hlen
  have hpass := h.passed_once 0 0 hw ((simConf.p + simConf.v) / worldSize).toNat
    (by rw [length_cycleStart, hlen]; omega)
  rw [passes_eq, numElemPerProc_eq hp hv, if_neg (by omega)] at hpass
  cases hpass

/-- The sources are covered exactly when every rank holds the same number of them. -/
theorem sourceCoverage_iff (rand : ℕ → ℕ) (draws : ℕ → ℕ → ℕ → ℕ) :
    SourceCoverage simConf worldSize rand draws ↔ (simConf.p + simConf.v) % worldSize = 0 := by
  constructor
  · intro h
    by_contra hres
    exact not_sourceCoverage hp hv hw hres rand draws h
  · intro hres
    have hper := Int.ediv_nonneg (add_nonneg hp hv) (Int.natCast_nonneg worldSize)
    -- without a remainder the loops run over the whole local array
    have hlen : ∀ r < worldSize, ∀ c,
        ((cycleStart simConf worldSize rand (draws r) r c).1.length : ℤ) =
          numElemPerProc simConf worldSize := by
      intro r hr c
      rw [length_cycleStart, length_localArr hp hv rand hr, elemRes_eq hp hv, hres, blockCount,
        if_neg (by omega), numElemPerProc_eq hp hv, Int.toNat_of_nonneg hper]
    constructor
    · intro g hg
      rw [elemArrays, numElemPerProc_eq hp hv, elemRes_eq hp hv]
      refine scatterv_held_once hper (Int.emod_nonneg _ (by omega)) ?_ hg
      rw [blockDispl_div_mod hw, length_initSourcesArray]
      omega
    · intro c r hr l hl
      rw [passes_eq, if_pos]
      rw [← hlen r hr c]
      exact_mod_cast hl
    · intro c r hr y x hy hy' hx hx'
      simp only
      rw [computeNoiseSqm_eq, List.take_of_length_le (by have := hlen r hr c; omega),
        foldl_addSource_apply, cycleStart_zero rand (draws r) r c hy hy' hx hx']
    · intro c r hr l
      simp only [cycleStart]
      rw [getElem?_moveNoiseSources]
      split
      · rfl
      · next hl =>
        rw [List.getElem?_eq_none (by have := hlen r hr c; omega)]
        rfl

end Coverage

/-- The values of `conf/simulation.cfg`. -/
def shippedConf : SimulationConfig where
  p := 10
  v := 5
  maxY := 100
  maxX := 100
  np := 40
  nv := 45
  dp := 1
  dv := 2
  vp := 2
  vv := 10
  t := 60

/-- Three ranks share the fifteen shipped sources. -/
theorem sourceCoverage_three :
    SourceCoverage shippedConf 3 (fun _ => 0) (fun _ _ _ => 0) :=
  (sourceCoverage_iff (by decide) (by decide) (by decide) _ _).mpr (by decide)

/-- Two ranks, as the Makefile starts them, leave out one of the fifteen sources. -/
theorem not_sourceCoverage_two :
    ¬SourceCoverage shippedConf 2 (fun _ => 0) (fun _ _ _ => 0) :=
  not_sourceCoverage (by decide) (by decide) (by decide) (by decide) _ _

end NoiseLevel.Mpi
