import NoiseLevel.Core.OptionLoop
import NoiseLevel.Mpi.SumNoises

/-!
# Noise sources on the grid

The data of the simulation and the functions that create noise sources, add them to
the matrix of one rank, move them and clear the matrix again. Loops are folds over
the values of their variable; `rand` is the stream of values the calls return.
-/

namespace NoiseLevel.Mpi

open NoiseLevel.Core

/-- `simulation_config`: the eleven integers of the configuration file. -/
structure SimulationConfig where
  /-- Number of people and of vehicles. -/
  p : ℤ
  v : ℤ
  maxY : ℤ
  maxX : ℤ
  /-- Noise level of a person and of a vehicle. -/
  np : ℤ
  nv : ℤ
  /-- Distance affected by a person and by a vehicle. -/
  dp : ℤ
  dv : ℤ
  /-- Moving speed of a person and of a vehicle. -/
  vp : ℤ
  vv : ℤ
  t : ℤ
  deriving DecidableEq, Repr

/-- `noise_source`. -/
structure NoiseSource where
  noiseLevel : ℤ
  distanceAffected : ℤ
  movingSpeed : ℤ
  x : ℤ
  y : ℤ
  deriving DecidableEq, Repr

/-- `noise_data`: the level of one cell. -/
structure NoiseData where
  noiseLevel : ℤ
  x : ℤ
  y : ℤ
  deriving DecidableEq, Repr

/-- A matrix of levels, by row and column. -/
abbrev Matrix := ℤ → ℤ → ℤ

/-- One assignment to a cell. -/
def Matrix.set (m : Matrix) (y x level : ℤ) : Matrix :=
  fun a b => if a = y ∧ b = x then level else m a b

/-- The values of a loop variable that starts at `lo` and runs while it is at most `hi`. -/
def loopRange (lo hi : ℤ) : List ℤ := (List.range (hi + 1 - lo).toNat).map fun k : ℕ => lo + k

/-- The indices visited by a loop over the first `numElem` array elements. -/
def loopIndices (numElem : ℤ) : List ℕ := List.range numElem.toNat

/-- A double loop that rewrites every visited cell from its own value. -/
def updateCells (rows cols : List ℤ) (f : ℤ → ℤ) (m : Matrix) : Matrix :=
  rows.foldl (fun m y => cols.foldl (fun m x => m.set y x (f (m y x))) m) m

/-- The body of the loop of `compute_noise_sqm` for one source. -/
noncomputable def addSource (simConf : SimulationConfig) (noiseSqm : Matrix)
    (source : NoiseSource) : Matrix :=
  let maxXIncrement := source.x - source.distanceAffected
  let minXIncrement := source.x + source.distanceAffected
  let maxYIncrement := source.y - source.distanceAffected
  let minYIncrement := source.y + source.distanceAffected
  updateCells (loopRange (max 0 maxYIncrement) (min minYIncrement (simConf.maxY - 1)))
    (loopRange (max 0 maxXIncrement) (min minXIncrement (simConf.maxX - 1)))
    (fun level => sumNoises level source.noiseLevel) noiseSqm

/-- `compute_noise_sqm`. -/
noncomputable def computeNoiseSqm (simConf : SimulationConfig) (noiseSqm : Matrix)
    (sources : List NoiseSource) (numElem : ℤ) : Matrix :=
  (loopIndices numElem).foldl (fun m i => (sources[i]?).elim m (addSource simConf m)) noiseSqm

/-- The body of the loop of `move_noise_sources`, with the two values drawn for it. -/
def moveSource (simConf : SimulationConfig) (source : NoiseSource) (randX randY : ℕ) :
    NoiseSource :=
  let deltaX := source.movingSpeed * ((randX % 3 : ℕ) - 1)
  let deltaY := source.movingSpeed * ((randY % 3 : ℕ) - 1)
  let deltaX := if source.x + deltaX ≥ simConf.maxX ∨ source.x + deltaX < 0 then -deltaX else deltaX
  let deltaY := if source.y + deltaY ≥ simConf.maxY ∨ source.y + deltaY < 0 then -deltaY else deltaY
  { source with x := source.x + deltaX, y := source.y + deltaY }

/-- `move_noise_sources`: iteration `i` draws the values `2 i` and `2 i + 1`. -/
def moveNoiseSources (simConf : SimulationConfig) (rand : ℕ → ℕ) (sources : List NoiseSource)
    (numElem : ℤ) : List NoiseSource :=
  (loopIndices numElem).foldl (fun s i => s.modify i fun source =>
    moveSource simConf source (rand (2 * i)) (rand (2 * i + 1))) sources

/-- The array written by `init_sources_array`: people first, then vehicles. -/
def initSourcesArray (simConf : SimulationConfig) (rand : ℕ → ℕ) : List NoiseSource :=
  (loopIndices simConf.p).map (fun i =>
    { noiseLevel := simConf.np, distanceAffected := simConf.dp, movingSpeed := simConf.vp,
      x := (rand (2 * i) : ℤ).tmod simConf.maxX, y := (rand (2 * i + 1) : ℤ).tmod simConf.maxY }) ++
  (loopIndices simConf.v).map (fun k =>
    let i := simConf.p.toNat + k
    { noiseLevel := simConf.nv, distanceAffected := simConf.dv, movingSpeed := simConf.vv,
      x := (rand (2 * i) : ℤ).tmod simConf.maxX, y := (rand (2 * i + 1) : ℤ).tmod simConf.maxY })

/-- The number that `init_sources_array` returns. -/
def numSources (simConf : SimulationConfig) : ℤ := simConf.v + simConf.p

/-- `init_noise_sqm`: the allocation is zeroed. -/
def initNoiseSqm : Matrix := fun _ _ => 0

/-- `reset_matrix`. -/
def resetMatrix (m : Matrix) (maxX maxY : ℤ) : Matrix :=
  updateCells (loopRange 0 (maxY - 1)) (loopRange 0 (maxX - 1)) (fun _ => 0) m

theorem mem_loopRange {lo hi k : ℤ} : k ∈ loopRange lo hi ↔ lo ≤ k ∧ k ≤ hi := by
  simp only [loopRange, List.mem_map, List.mem_range]
  constructor
  · rintro ⟨n, hn, rfl⟩
    omega
  · rintro ⟨hl, hh⟩
    exact ⟨(k - lo).toNat, by omega, by omega⟩

theorem nodup_loopRange (lo hi : ℤ) : (loopRange lo hi).Nodup :=
  List.nodup_range.map fun a b h => by
    have h : lo + (a : ℤ) = lo + b := h
    omega

theorem Matrix.set_apply (m : Matrix) (y x level a b : ℤ) :
    m.set y x level a b = if a = y ∧ b = x then level else m a b := rfl

/-- One row of a double loop rewrites each visited column once. -/
theorem updateRow_apply {cols : List ℤ} (hc : cols.Nodup) (f : ℤ → ℤ) (m : Matrix) (y a b : ℤ) :
    cols.foldl (fun m x => m.set y x (f (m y x))) m a b =
      if a = y ∧ b ∈ cols then f (m a b) else m a b := by
  induction cols generalizing m with
  | nil => simp
  | cons x cols ih =>
    obtain ⟨hx, hc⟩ := List.nodup_cons.mp hc
    rw [List.foldl_cons, ih hc]
    by_cases ha : a = y
    · subst ha
      by_cases hb : b = x
      · subst hb
        simp [hx, Matrix.set_apply]
      · simp [hb, Matrix.set_apply]
    · simp [ha, Matrix.set_apply]

/-- A double loop over distinct rows and columns rewrites each visited cell once. -/
theorem updateCells_apply {rows cols : List ℤ} (hr : rows.Nodup) (hc : cols.Nodup) (f : ℤ → ℤ)
    (m : Matrix) (a b : ℤ) :
    updateCells rows cols f m a b = if a ∈ rows ∧ b ∈ cols then f (m a b) else m a b := by
  unfold updateCells
  induction rows generalizing m with
  | nil => simp
  | cons y rows ih =>
    obtain ⟨hy, hr⟩ := List.nodup_cons.mp hr
    rw [List.foldl_cons, ih hr, updateRow_apply hc]
    by_cases ha : a = y
    · subst ha
      simp [hy]
    · simp [ha]

/-- The cells that a source reaches inside the region. -/
def Covers (simConf : SimulationConfig) (source : NoiseSource) (y x : ℤ) : Prop :=
  (0 ≤ y ∧ y < simConf.maxY ∧ |y - source.y| ≤ source.distanceAffected) ∧
    0 ≤ x ∧ x < simConf.maxX ∧ |x - source.x| ≤ source.distanceAffected

instance (simConf : SimulationConfig) (source : NoiseSource) (y x : ℤ) :
    Decidable (Covers simConf source y x) := by unfold Covers; infer_instance

/-- One source adds its level to exactly the cells it covers. -/
theorem addSource_apply (simConf : SimulationConfig) (m : Matrix) (source : NoiseSource)
    (y x : ℤ) : addSource simConf m source y x =
      if Covers simConf source y x then sumNoises (m y x) source.noiseLevel else m y x := by
  have hiff : (y ∈ loopRange (max 0 (source.y - source.distanceAffected))
        (min (source.y + source.distanceAffected) (simConf.maxY - 1)) ∧
      x ∈ loopRange (max 0 (source.x - source.distanceAffected))
        (min (source.x + source.distanceAffected) (simConf.maxX - 1))) ↔
      Covers simConf source y x := by
    rw [mem_loopRange, mem_loopRange, Covers, abs_le, abs_le]
    omega
  rw [addSource, updateCells_apply (nodup_loopRange _ _) (nodup_loopRange _ _)]
  exact if_congr hiff rfl rfl

/-- Clearing a matrix leaves silence in every cell of the region. -/
theorem resetMatrix_apply (m : Matrix) (maxX maxY y x : ℤ) :
    resetMatrix m maxX maxY y x =
      if (0 ≤ y ∧ y < maxY) ∧ 0 ≤ x ∧ x < maxX then 0 else m y x := by
  rw [resetMatrix, updateCells_apply (nodup_loopRange _ _) (nodup_loopRange _ _)]
  refine if_congr ?_ rfl rfl
  rw [mem_loopRange, mem_loopRange]
  omega

/-- The loop of `compute_noise_sqm` adds the first sources of the array in order. -/
theorem computeNoiseSqm_eq (simConf : SimulationConfig) (m : Matrix)
    (sources : List NoiseSource) (numElem : ℤ) :
    computeNoiseSqm simConf m sources numElem =
      (sources.take numElem.toNat).foldl (addSource simConf) m := by
  unfold computeNoiseSqm loopIndices
  induction numElem.toNat with
  | zero => rfl
  | succ n ih =>
    rw [List.range_succ, List.foldl_append, ih, List.foldl_cons, List.foldl_nil,
      List.take_add_one, List.foldl_append]
    cases sources[n]? with
    | none => rfl
    | some source => rfl

/-- The level that a list of sources adds up to at one cell. -/
theorem foldl_addSource_apply (simConf : SimulationConfig) (sources : List NoiseSource)
    (m : Matrix) (y x : ℤ) :
    sources.foldl (addSource simConf) m y x =
      ((sources.filter fun s => Covers simConf s y x).map NoiseSource.noiseLevel).foldl
        sumNoises (m y x) := by
  induction sources generalizing m with
  | nil => rfl
  | cons source sources ih =>
    rw [List.foldl_cons, ih, addSource_apply]
    by_cases h : Covers simConf source y x <;> simp [h]

/-- Each of the first sources is moved exactly once, the others stay. -/
theorem getElem?_moveNoiseSources (simConf : SimulationConfig) (rand : ℕ → ℕ)
    (sources : List NoiseSource) (numElem : ℤ) (l : ℕ) :
    (moveNoiseSources simConf rand sources numElem)[l]? =
      if l < numElem.toNat then
        (sources[l]?).map fun s => moveSource simConf s (rand (2 * l)) (rand (2 * l + 1))
      else sources[l]? :=
  getElem?_foldl_modify
    (fun i source => moveSource simConf source (rand (2 * i)) (rand (2 * i + 1))) numElem.toNat l

@[simp] theorem length_moveNoiseSources (simConf : SimulationConfig) (rand : ℕ → ℕ)
    (sources : List NoiseSource) (numElem : ℤ) :
    (moveNoiseSources simConf rand sources numElem).length = sources.length := by
  unfold moveNoiseSources
  induction loopIndices numElem generalizing sources with
  | nil => rfl
  | cons i is ih => rw [List.foldl_cons, ih, List.length_modify]

theorem length_initSourcesArray (simConf : SimulationConfig) (rand : ℕ → ℕ) :
    (initSourcesArray simConf rand).length = simConf.p.toNat + simConf.v.toNat := by
  simp [initSourcesArray, loopIndices]

end NoiseLevel.Mpi
