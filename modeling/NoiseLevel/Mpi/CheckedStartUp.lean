import NoiseLevel.Core.CheckedInt
import NoiseLevel.Core.OptionLoop
import NoiseLevel.Mpi.Movement

/-!
# The start-up in checked arithmetic

The start-up of `main` once more, with every operator of `int` checked and every element
count of an allocation required to be nonnegative. The array of all sources is a map from
its indices, and no access is checked. A loop counter stops at the `int` it is compared
with, so its increments are not checked either.
-/

namespace NoiseLevel.Mpi.Checked

open NoiseLevel.Core

/-- What people have in common, and what vehicles have in common. -/
structure Kind where
  noiseLevel : ℤ
  distanceAffected : ℤ
  movingSpeed : ℤ

def people (simConf : SimulationConfig) : Kind := ⟨simConf.np, simConf.dp, simConf.vp⟩

def vehicles (simConf : SimulationConfig) : Kind := ⟨simConf.nv, simConf.dv, simConf.vv⟩

/-- The array of all sources, and how many calls of `rand` were made for it. -/
structure SourceArray where
  calls : ℕ
  sources : ℤ → NoiseSource

/-- The body of the two loops of `init_sources_array`. -/
def initSource (simConf : SimulationConfig) (rand : ℕ → ℕ) (kind : Kind) (array : SourceArray)
    (i : ℤ) : Option SourceArray := do
  let x ← modInt (rand array.calls) simConf.maxX
  let y ← modInt (rand (array.calls + 1)) simConf.maxY
  return ⟨array.calls + 2, Function.update array.sources i
    ⟨kind.noiseLevel, kind.distanceAffected, kind.movingSpeed, x, y⟩⟩

section Sources

variable {simConf : SimulationConfig} {rand : ℕ → ℕ}

/-- The source made from two calls of `rand`. -/
def drawSource (simConf : SimulationConfig) (rand : ℕ → ℕ) (kind : Kind) (call : ℕ) :
    NoiseSource :=
  ⟨kind.noiseLevel, kind.distanceAffected, kind.movingSpeed,
    (rand call : ℤ).tmod simConf.maxX, (rand (call + 1) : ℤ).tmod simConf.maxY⟩

/-- The values that `rand` returns: none is above `RAND_MAX`, which is `INT_MAX`. -/
def Drawn (rand : ℕ → ℕ) : Prop := ∀ n, (rand n : ℤ) ≤ intMax

/-- A source can be made in a region that is not empty. -/
theorem initSource_eq_some_iff (simConf : SimulationConfig) (hrand : Drawn rand) (kind : Kind)
    (i : ℤ) (array array' : SourceArray) : initSource simConf rand kind array i = some array' ↔
      (simConf.maxX ≠ 0 ∧ simConf.maxY ≠ 0) ∧ ⟨array.calls + 2,
        Function.update array.sources i (drawSource simConf rand kind array.calls)⟩ = array' := by
  simp [initSource, Option.bind_eq_some_iff,
    modInt_eq_some_iff_of_nonneg (Int.natCast_nonneg _) (hrand _), drawSource, and_assoc]

/-- What a loop over some elements writes. -/
theorem foldl_update_drawSource (kind : Kind) (lo hi : ℤ) (array : SourceArray) :
    (loopRange lo hi).foldl (fun array i => ⟨array.calls + 2,
        Function.update array.sources i (drawSource simConf rand kind array.calls)⟩) array =
      ⟨array.calls + 2 * (hi + 1 - lo).toNat, fun j => if lo ≤ j ∧ j ≤ hi then
        drawSource simConf rand kind (array.calls + 2 * (j - lo).toNat) else array.sources j⟩ := by
  obtain ⟨n, hn⟩ : ∃ n, n = (hi + 1 - lo).toNat := ⟨_, rfl⟩
  have hiff : ∀ j, (lo ≤ j ∧ j ≤ hi) ↔ lo ≤ j ∧ j < lo + n := fun j => by omega
  simp only [loopRange, ← hn, List.foldl_map, hiff]
  clear hn hiff
  induction n with
  | zero =>
    have hnone : ∀ j, ¬(lo ≤ j ∧ j < lo) := fun j => by omega
    simp [hnone]
  | succ n ih =>
    rw [List.range_succ, List.foldl_append, ih, List.foldl_cons, List.foldl_nil]
    congr 1
    ext j
    by_cases hj : j = lo + n
    · subst hj
      simp
    · have hiff : j < lo + ((n : ℤ) + 1) ↔ j < lo + n := by omega
      simp [hj, hiff]

end Sources

/-- `init_sources_array`: its return value and what it leaves in the memory it has
allocated. -/
def initSourcesArray (simConf : SimulationConfig) (rand : ℕ → ℕ) (memory : ℤ → NoiseSource) :
    Option (ℤ × (ℤ → NoiseSource)) := do
  let size ← addInt simConf.p simConf.v
  let _ ← elements size
  let array ← (loopRange 0 (simConf.p - 1)).foldlM (initSource simConf rand (people simConf))
    ⟨0, memory⟩
  let last ← addInt simConf.v simConf.p
  let array ← (loopRange simConf.p (last - 1)).foldlM
    (initSource simConf rand (vehicles simConf)) array
  let number ← addInt simConf.v simConf.p
  return (number, array.sources)

/-- What the array holds after `init_sources_array`. -/
def sourcesWritten (simConf : SimulationConfig) (rand : ℕ → ℕ) (memory : ℤ → NoiseSource)
    (j : ℤ) : NoiseSource :=
  if simConf.p ≤ j ∧ j < simConf.v + simConf.p then
    drawSource simConf rand (vehicles simConf)
      (2 * simConf.p.toNat + 2 * (j - simConf.p).toNat)
  else if 0 ≤ j ∧ j < simConf.p then drawSource simConf rand (people simConf) (2 * j.toNat)
  else memory j

/-- The array is allocated and filled exactly when its size is an `int` and not negative, and
the region has a place for the first source. -/
theorem initSourcesArray_eq_some_iff {simConf : SimulationConfig} {rand : ℕ → ℕ}
    (hrand : Drawn rand) (memory : ℤ → NoiseSource) (r : ℤ × (ℤ → NoiseSource)) :
    initSourcesArray simConf rand memory = some r ↔
      ((0 ≤ simConf.p + simConf.v ∧ simConf.p + simConf.v ≤ intMax) ∧
        (0 < simConf.p ∨ 0 < simConf.v → simConf.maxX ≠ 0 ∧ simConf.maxY ≠ 0)) ∧
      (numSources simConf, sourcesWritten simConf rand memory) = r := by
  have hloop := fun kind lo hi => foldlM_eq_some_iff (l := loopRange lo hi)
    fun i (_ : i ∈ loopRange lo hi) => initSource_eq_some_iff simConf hrand kind i
  simp only [initSourcesArray, Option.bind_eq_bind, Option.bind_eq_some_iff, addInt_eq_some_iff,
    elements_eq_some_iff, hloop, foldl_update_drawSource, Option.pure_def, Option.some.injEq,
    and_assoc, exists_and_left, exists_eq_left', mem_loopRange, Int.le_sub_one_iff, zero_add,
    sub_add_cancel, sub_zero]
  constructor
  · rintro ⟨⟨-, hmax⟩, hpos, hp, -, hv, -, hr⟩
    exact ⟨hpos, hmax, fun h => h.elim (fun h => hp 0 ⟨le_rfl, h⟩)
      fun h => hv simConf.p ⟨le_rfl, by omega⟩, hr⟩
  · rintro ⟨hpos, hmax, hany, hr⟩
    have hint := IsInt.of_nonneg hpos hmax
    have hint' : IsInt (simConf.v + simConf.p) := by rwa [add_comm]
    exact ⟨hint, hpos, fun i hi => hany (Or.inl (by omega)), hint',
      fun i hi => hany (Or.inr (by omega)), hint', hr⟩

/-- `init_noise_sqm`. -/
def initNoiseSqm (simConf : SimulationConfig) : Option PUnit := do
  let _ ← elements simConf.maxY
  (loopRange 0 (simConf.maxY - 1)).forM fun _ => do
    let _ ← elements simConf.maxX

/-- No part of the matrix has a negative size. -/
theorem initNoiseSqm_eq_some_iff {simConf : SimulationConfig} {u : PUnit} :
    initNoiseSqm simConf = some u ↔
      0 ≤ simConf.maxY ∧ (0 < simConf.maxY → 0 ≤ simConf.maxX) := by
  simp only [initNoiseSqm, Option.bind_eq_bind, Option.bind_eq_some_iff, elements_eq_some_iff,
    forM_eq_some_iff, mem_loopRange]
  constructor
  · rintro ⟨_, ⟨hY, -⟩, hrows⟩
    refine ⟨hY, fun h => ?_⟩
    obtain ⟨_, ⟨hX, -⟩, -⟩ := hrows 0 ⟨le_rfl, by omega⟩
    exact hX
  · rintro ⟨hY, hX⟩
    exact ⟨_, ⟨hY, rfl⟩, fun i hi => ⟨_, ⟨hX (by omega), rfl⟩, rfl⟩⟩

/-- The body of the loops of `main` that fill the arrays of a scatter or gather. -/
def fillBlock (perProc res : ℤ) (a : BlockArrays) (i : ℕ) : Option BlockArrays := do
  let next ← addInt i 1
  let count ← (if next ≤ res then addInt perProc 1 else some perProc)
  let inc ← addInt a.inc count
  return ⟨a.displs ++ [a.inc], a.counts ++ [count], inc⟩

/-- The loops of `main` that fill the arrays, one iteration for each rank. -/
def fillCounts (perProc res : ℤ) (worldSize : ℕ) : Option BlockArrays :=
  (List.range worldSize).foldlM (fillBlock perProc res) ⟨[], [], 0⟩

/-- Blocks grow from one rank to the next. -/
theorem blockDispl_mono {perProc : ℤ} (hper : 0 ≤ perProc) (res : ℤ) :
    Monotone (blockDispl perProc res) := by
  refine monotone_nat_of_le_succ fun i => ?_
  rw [← blockDispl_succ]
  unfold blockCount
  split <;> omega

section Blocks

variable {perProc res : ℤ}

/-- A loop that stays below `INT_MAX` fills one block after the other. -/
theorem fillBlock_eq (hper : 0 ≤ perProc) (hres : 0 ≤ res) {n : ℕ}
    (hn : (n : ℤ) + 1 ≤ intMax) (hmax : blockDispl perProc res (n + 1) ≤ intMax) :
    fillBlock perProc res (Mpi.fillCounts perProc res n) n =
      some (Mpi.fillCounts perProc res (n + 1)) := by
  have hpos : 0 ≤ blockDispl perProc res (n + 1) := blockDispl_nonneg hper hres _
  have hcount : blockCount perProc res n ≤ blockDispl perProc res (n + 1) := by
    have := blockDispl_nonneg hper hres n
    rw [← blockDispl_succ]
    omega
  have hsum : IsInt (blockDispl perProc res n + blockCount perProc res n) := by
    rw [blockDispl_succ]
    exact IsInt.of_nonneg hpos hmax
  have hif : (if (n : ℤ) + 1 ≤ res then addInt perProc 1 else some perProc) =
      some (blockCount perProc res n) := by
    unfold blockCount at *
    split_ifs at * with h
    · rw [addInt_eq_some_iff]
      exact ⟨IsInt.of_nonneg (by omega) (by omega), rfl⟩
    · rfl
  rw [fillCounts_eq hres, fillCounts_eq hres, List.range_succ]
  simp only [fillBlock, Option.bind_eq_bind, Option.bind_eq_some_iff, addInt_eq_some_iff]
  refine ⟨n + 1, ⟨IsInt.of_nonneg (by omega) hn, rfl⟩, _, hif, _, ⟨hsum, rfl⟩, ?_⟩
  simp [blockDispl_succ]

theorem fillCounts_eq_of_le (hper : 0 ≤ perProc) (hres : 0 ≤ res) {worldSize : ℕ}
    (hw : (worldSize : ℤ) ≤ intMax) (hmax : blockDispl perProc res worldSize ≤ intMax) :
    fillCounts perProc res worldSize = some (Mpi.fillCounts perProc res worldSize) := by
  have hstep : ∀ i < worldSize, ∀ arrays, arrays = Mpi.fillCounts perProc res i →
      ∃ next, fillBlock perProc res arrays i = some next ∧
        next = Mpi.fillCounts perProc res (i + 1) := by
    rintro i hi _ rfl
    have hi' := (blockDispl_mono hper res (Nat.succ_le_of_lt hi)).trans hmax
    exact ⟨_, fillBlock_eq hper hres (by omega) hi', rfl⟩
  obtain ⟨_, harrays, rfl⟩ := exists_foldlM_range (fun i arrays =>
    arrays = Mpi.fillCounts perProc res i) rfl hstep
  exact harrays

end Blocks

/-- Up to `INT_MAX` elements are split among the ranks without overflow. -/
theorem fillCounts_eq {total : ℤ} {worldSize : ℕ} (hpos : 0 ≤ total) (hmax : total ≤ intMax)
    (hw : 0 < worldSize) (hwmax : (worldSize : ℤ) ≤ intMax) :
    fillCounts (total.tdiv worldSize) (total.tmod worldSize) worldSize =
      some (Mpi.fillCounts (total.tdiv worldSize) (total.tmod worldSize) worldSize) := by
  rw [Int.tdiv_eq_ediv_of_nonneg hpos, Int.tmod_eq_emod_of_nonneg hpos]
  refine fillCounts_eq_of_le (Int.ediv_nonneg hpos (Int.natCast_nonneg worldSize))
    (Int.emod_nonneg total (by omega)) hwmax ?_
  rwa [blockDispl_div_mod hw]

/-- No rank gets a negative number of elements. -/
theorem counts_nonneg {total : ℤ} (hpos : 0 ≤ total) (worldSize rank : ℕ) :
    0 ≤ ((Mpi.fillCounts (total.tdiv worldSize) (total.tmod worldSize)
      worldSize).counts[rank]?).getD 0 := by
  rw [Mpi.fillCounts_eq (Int.tmod_nonneg _ hpos), List.getElem?_map]
  have hper : 0 ≤ total.tdiv worldSize := Int.tdiv_nonneg hpos (Int.natCast_nonneg _)
  cases (List.range worldSize)[rank]? with
  | none => exact le_rfl
  | some i =>
    simp only [Option.map_some, Option.getD_some]
    unfold blockCount
    split <;> omega

/-- A total is split among the ranks in checked arithmetic. -/
structure SplitDefined (total : ℤ) (worldSize rank : ℕ) : Prop where
  quotient : divInt total worldSize = some (total.tdiv worldSize)
  remainder : modInt total worldSize = some (total.tmod worldSize)
  arrays : fillCounts (total.tdiv worldSize) (total.tmod worldSize) worldSize =
    some (Mpi.fillCounts (total.tdiv worldSize) (total.tmod worldSize) worldSize)
  count_nonneg : 0 ≤ ((Mpi.fillCounts (total.tdiv worldSize) (total.tmod worldSize)
    worldSize).counts[rank]?).getD 0

/-- Every total that is an `int` and not negative is. -/
theorem splitDefined {total : ℤ} {worldSize : ℕ} (hpos : 0 ≤ total) (hmax : total ≤ intMax)
    (hw : 0 < worldSize) (hwmax : (worldSize : ℤ) ≤ intMax) (rank : ℕ) :
    SplitDefined total worldSize rank where
  quotient := (divInt_eq_some_iff_of_nonneg hpos hmax).mpr ⟨by omega, rfl⟩
  remainder := (modInt_eq_some_iff_of_nonneg hpos hmax).mpr ⟨by omega, rfl⟩
  arrays := fillCounts_eq hpos hmax hw hwmax
  count_nonneg := counts_nonneg hpos worldSize rank

/-- What `MPI_Scatterv` copies to one rank. -/
def scatterv (sources : ℤ → NoiseSource) (arrays : BlockArrays) (rank : ℕ) : List NoiseSource :=
  (List.range ((arrays.counts[rank]?).getD 0).toNat).map fun l : ℕ =>
    sources ((arrays.displs[rank]?).getD 0 + l)

/-- The sources that one rank holds after the scatter. -/
def localSources (simConf : SimulationConfig) (worldSize : ℕ) (rand : ℕ → ℕ)
    (memory : ℤ → NoiseSource) (rank : ℕ) : List NoiseSource :=
  scatterv (sourcesWritten simConf rand memory) (elemArrays simConf worldSize) rank

/-- The buffers of the root for the gather that `DEBUG` turns on. -/
def gatherBuffers (simConf : SimulationConfig) : Option PUnit := do
  let _ ← elements (simConf.maxX * simConf.maxY)
  initNoiseSqm simConf

/-- `main` up to its loop, with the part of the root: the local array of one rank and
`num_elem_per_proc`. -/
def startUp (debug : Bool) (simConf : SimulationConfig) (worldSize : ℕ) (rand : ℕ → ℕ)
    (memory : ℤ → NoiseSource) (rank : ℕ) : Option (List NoiseSource × ℤ) := do
  let (number, globalArr) ← initSourcesArray simConf rand memory
  let numElem ← divInt number worldSize
  bif debug then gatherBuffers simConf else some ⟨⟩
  let total ← addInt simConf.p simConf.v
  let elemRes ← modInt total worldSize
  let elemArrays ← fillCounts numElem elemRes worldSize
  let _ ← elements ((elemArrays.counts[rank]?).getD 0)
  let cells ← mulInt simConf.maxY simConf.maxX
  let noisesPerProc ← divInt cells worldSize
  let cells ← mulInt simConf.maxX simConf.maxY
  let noisesRes ← modInt cells worldSize
  let noisesArrays ← fillCounts noisesPerProc noisesRes worldSize
  let _ ← elements ((noisesArrays.counts[rank]?).getD 0)
  initNoiseSqm simConf
  return (scatterv globalArr elemArrays rank, numElem)

/-- The two sums of people and vehicles agree. -/
theorem numElemPerProc_eq_tdiv (simConf : SimulationConfig) (worldSize : ℕ) :
    numElemPerProc simConf worldSize = (simConf.p + simConf.v).tdiv worldSize := by
  rw [numElemPerProc, numSources, add_comm]

/-- The configurations whose start-up is defined. -/
structure StartDefined (simConf : SimulationConfig) : Prop where
  sources_nonneg : 0 ≤ simConf.p + simConf.v
  sources_le : simConf.p + simConf.v ≤ intMax
  /-- A source is drawn from a row and a column. -/
  region : 0 < simConf.p ∨ 0 < simConf.v → simConf.maxX ≠ 0 ∧ simConf.maxY ≠ 0
  cells_le : simConf.maxX * simConf.maxY ≤ intMax
  rows_nonneg : 0 ≤ simConf.maxY
  columns_nonneg : 0 < simConf.maxY → 0 ≤ simConf.maxX

theorem StartDefined.cells_nonneg {simConf : SimulationConfig} (h : StartDefined simConf) :
    0 ≤ simConf.maxX * simConf.maxY := by
  rcases h.rows_nonneg.eq_or_lt with hY | hY
  · rw [← hY, mul_zero]
  · exact mul_nonneg (h.columns_nonneg hY) hY.le

section StartUp

variable {debug : Bool} {simConf : SimulationConfig} {worldSize : ℕ} {rand : ℕ → ℕ}
  {memory : ℤ → NoiseSource} {rank : ℕ}

theorem startDefined_of_startUp (hrand : Drawn rand) {r : List NoiseSource × ℤ}
    (h : startUp debug simConf worldSize rand memory rank = some r) : StartDefined simConf := by
  simp only [startUp, Option.bind_eq_bind, Option.bind_eq_some_iff,
    initSourcesArray_eq_some_iff hrand, initNoiseSqm_eq_some_iff, mulInt_eq_some_iff] at h
  -- the array of the root, then the split of the sources, of the cells, and the matrix
  obtain ⟨_, ⟨⟨hsum, hregion⟩, -⟩, _, -, _, -, h⟩ := h
  obtain ⟨_, -, _, -, _, -, _, -, h⟩ := h
  obtain ⟨_, -, _, -, _, ⟨hcells, -⟩, _, -, _, -, _, -, h⟩ := h
  obtain ⟨_, ⟨hrows, hcolumns⟩, -⟩ := h
  exact ⟨hsum.1, hsum.2, hregion, hcells.2, hrows, hcolumns⟩

theorem StartDefined.startUp_eq (hrand : Drawn rand) (hw : 0 < worldSize)
    (hwmax : (worldSize : ℤ) ≤ intMax) (h : StartDefined simConf) :
    startUp debug simConf worldSize rand memory rank =
      some (localSources simConf worldSize rand memory rank, numElemPerProc simConf worldSize) := by
  have hsources := splitDefined h.sources_nonneg h.sources_le hw hwmax rank
  have hcells := splitDefined h.cells_nonneg h.cells_le hw hwmax rank
  have hsumInt := IsInt.of_nonneg h.sources_nonneg h.sources_le
  have hcellsInt := IsInt.of_nonneg h.cells_nonneg h.cells_le
  have hmatrix : initNoiseSqm simConf = some ⟨⟩ :=
    initNoiseSqm_eq_some_iff.mpr ⟨h.rows_nonneg, h.columns_nonneg⟩
  have hbuffers : (bif debug then gatherBuffers simConf else some ⟨⟩) = some ⟨⟩ := by
    cases debug with
    | false => rfl
    | true =>
      rw [cond_true, gatherBuffers, Option.bind_eq_bind, Option.bind_eq_some_iff]
      exact ⟨_, elements_eq_some_iff.mpr ⟨h.cells_nonneg, rfl⟩, hmatrix⟩
  have hnumber : numSources simConf = simConf.p + simConf.v := add_comm _ _
  simp only [startUp, Option.bind_eq_bind, Option.bind_eq_some_iff,
    initSourcesArray_eq_some_iff hrand, addInt_eq_some_iff, mulInt_eq_some_iff,
    elements_eq_some_iff, localSources, elemArrays, elemRes, numElemPerProc_eq_tdiv, hnumber,
    mul_comm simConf.maxY]
  exact ⟨_, ⟨⟨⟨h.sources_nonneg, h.sources_le⟩, h.region⟩, rfl⟩, _, hsources.quotient, _, hbuffers,
    _, ⟨hsumInt, rfl⟩, _, hsources.remainder, _, hsources.arrays, _, ⟨hsources.count_nonneg, rfl⟩,
    _, ⟨hcellsInt, rfl⟩, _, hcells.quotient, _, ⟨hcellsInt, rfl⟩, _, hcells.remainder,
    _, hcells.arrays, _, ⟨hcells.count_nonneg, rfl⟩, _, hmatrix, rfl⟩

/-- A rank holds sources that follow each other in the array. -/
theorem getElem?_localSources (hsum : 0 ≤ simConf.p + simConf.v) (hr : rank < worldSize) (l : ℕ) :
    (localSources simConf worldSize rand memory rank)[l]? =
      if l < (blockCount (numElemPerProc simConf worldSize) (elemRes simConf worldSize) rank).toNat
        then some (sourcesWritten simConf rand memory
          (blockDispl (numElemPerProc simConf worldSize) (elemRes simConf worldSize) rank + l))
      else none := by
  have hres : 0 ≤ elemRes simConf worldSize := Int.tmod_nonneg _ hsum
  rw [localSources, scatterv, elemArrays, Mpi.fillCounts_eq hres]
  simp only [List.getElem?_map, List.getElem?_range hr, Option.map_some, Option.getD_some]
  split_ifs with hl
  · rw [List.getElem?_range hl, Option.map_some]
  · rw [List.getElem?_eq_none (by simpa using not_lt.mp hl), Option.map_none]

/-- The sources of a rank lie in the array. -/
theorem localIndex_bounds (hsum : 0 ≤ simConf.p + simConf.v) (hr : rank < worldSize) {l : ℕ}
    (hl : l < (blockCount (numElemPerProc simConf worldSize) (elemRes simConf worldSize)
      rank).toNat) :
    0 ≤ blockDispl (numElemPerProc simConf worldSize) (elemRes simConf worldSize) rank ∧
      blockDispl (numElemPerProc simConf worldSize) (elemRes simConf worldSize) rank + l <
        simConf.p + simConf.v := by
  have hper : 0 ≤ numElemPerProc simConf worldSize := by
    rw [numElemPerProc_eq_tdiv]
    exact Int.tdiv_nonneg hsum (Int.natCast_nonneg _)
  have hres : 0 ≤ elemRes simConf worldSize := Int.tmod_nonneg _ hsum
  have hhi := blockDispl_mono hper (elemRes simConf worldSize) (Nat.succ_le_of_lt hr)
  have hend : blockDispl (numElemPerProc simConf worldSize) (elemRes simConf worldSize) worldSize =
      simConf.p + simConf.v := by
    rw [numElemPerProc_eq_tdiv, Int.tdiv_eq_ediv_of_nonneg hsum, elemRes,
      Int.tmod_eq_emod_of_nonneg hsum, blockDispl_div_mod (by omega)]
  rw [hend, Nat.succ_eq_add_one, ← blockDispl_succ] at hhi
  exact ⟨blockDispl_nonneg hper hres rank, by omega⟩

/-- Every source that a rank holds is one of the people or one of the vehicles. -/
theorem exists_drawSource (hsum : 0 ≤ simConf.p + simConf.v) (hr : rank < worldSize)
    {source : NoiseSource} (h : source ∈ localSources simConf worldSize rand memory rank) :
    0 < simConf.p + simConf.v ∧ ∃ call,
      (0 < simConf.p ∧ source = drawSource simConf rand (people simConf) call) ∨
      (0 < simConf.v ∧ source = drawSource simConf rand (vehicles simConf) call) := by
  obtain ⟨l, hl⟩ := List.mem_iff_getElem?.mp h
  rw [getElem?_localSources hsum hr] at hl
  split_ifs at hl with hlt
  obtain ⟨hlo, hhi⟩ := localIndex_bounds hsum hr hlt
  rw [← Option.some.inj hl, sourcesWritten]
  refine ⟨by omega, ?_⟩
  split_ifs with hvehicle hperson
  · exact ⟨_, Or.inr ⟨by omega, rfl⟩⟩
  · exact ⟨_, Or.inl ⟨by omega, rfl⟩⟩
  · omega

/-- Where no count is negative, the array is the list of the unchecked start-up. -/
theorem getElem?_initSourcesArray (hp : 0 ≤ simConf.p) (hv : 0 ≤ simConf.v) (rand : ℕ → ℕ)
    (memory : ℤ → NoiseSource) {g : ℕ} (hg : (g : ℤ) < simConf.p + simConf.v) :
    (Mpi.initSourcesArray simConf rand)[g]? = some (sourcesWritten simConf rand memory g) := by
  rw [Mpi.initSourcesArray, List.getElem?_append]
  simp only [List.length_map, loopIndices, List.length_range, List.getElem?_map]
  split_ifs with hperson
  · rw [List.getElem?_range hperson, sourcesWritten, if_neg (by omega), if_pos (by omega)]
    simp [drawSource, people]
  · have hcall : 2 * simConf.p.toNat + 2 * ((g : ℤ) - simConf.p).toNat =
        2 * (simConf.p.toNat + (g - simConf.p.toNat)) := by omega
    rw [List.getElem?_range (by omega), sourcesWritten, if_pos (by omega), hcall]
    rfl

theorem localSources_eq_localArr (hp : 0 ≤ simConf.p) (hv : 0 ≤ simConf.v) (rand : ℕ → ℕ)
    (memory : ℤ → NoiseSource) (hr : rank < worldSize) :
    localSources simConf worldSize rand memory rank = localArr simConf worldSize rand rank := by
  have hsum := add_nonneg hp hv
  refine List.ext_getElem? fun l => ?_
  have hres : 0 ≤ elemRes simConf worldSize := Int.tmod_nonneg _ hsum
  rw [getElem?_localSources hsum hr, localArr, elemArrays, getElem?_scatterv _ hres hr]
  refine if_ctx_congr Iff.rfl (fun hl => ?_) fun _ => rfl
  obtain ⟨hlo, hhi⟩ := localIndex_bounds hsum hr hl
  rw [getElem?_initSourcesArray hp hv rand memory (by omega)]
  push_cast
  rw [Int.toNat_of_nonneg hlo]

/-- A start-up is defined or not for all numbers of ranks and all values drawn. -/
theorem startUp_eq_some_iff (hrand : Drawn rand) (hw : 0 < worldSize)
    (hwmax : (worldSize : ℤ) ≤ intMax) (r : List NoiseSource × ℤ) :
    startUp debug simConf worldSize rand memory rank = some r ↔ StartDefined simConf ∧
      (localSources simConf worldSize rand memory rank, numElemPerProc simConf worldSize) = r := by
  constructor
  · intro h
    have hdef := startDefined_of_startUp hrand h
    rw [hdef.startUp_eq hrand hw hwmax] at h
    exact ⟨hdef, Option.some.inj h⟩
  · rintro ⟨hdef, rfl⟩
    exact hdef.startUp_eq hrand hw hwmax

end StartUp

end NoiseLevel.Mpi.Checked
