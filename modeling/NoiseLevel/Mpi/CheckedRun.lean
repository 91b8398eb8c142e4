import NoiseLevel.Mpi.CheckedStartUp

/-!
# The cycles in checked arithmetic

The loop of `main` with every operator of `int` checked; levels are left out. A run is
defined when its start-up is and every source it holds can be spread and moved in every
cycle.
-/

namespace NoiseLevel.Mpi.Checked

open NoiseLevel.Core

/-- The body of the loop of `compute_noise_sqm` without the levels. -/
def addSource (simConf : SimulationConfig) (source : NoiseSource) : Option PUnit := do
  let _ ← subInt source.x source.distanceAffected
  let _ ← addInt source.x source.distanceAffected
  let maxYIncrement ← subInt source.y source.distanceAffected
  let minYIncrement ← addInt source.y source.distanceAffected
  let lastY ← subInt simConf.maxY 1
  (loopRange (max 0 maxYIncrement) (min minYIncrement lastY)).forM fun _ => do
    let _ ← subInt simConf.maxX 1

/-- `compute_noise_sqm` without the levels. -/
def computeNoiseSqm (simConf : SimulationConfig) (sources : List NoiseSource) (numElem : ℤ) :
    Option PUnit :=
  (loopIndices numElem).forM fun i => (sources[i]?).elim (some ⟨⟩) (addSource simConf)

/-- The region that a source covers can be computed along one axis. -/
def SpreadDefined (source : NoiseSource) (axis : Axis) : Prop :=
  IsInt (source.coord axis - source.distanceAffected) ∧
    IsInt (source.coord axis + source.distanceAffected)

section Spread

variable {simConf : SimulationConfig}

theorem addSource_eq_some_iff (hX : IsInt simConf.maxX) (hY : IsInt simConf.maxY)
    (hdef : StartDefined simConf) (source : NoiseSource) (u : PUnit) :
    addSource simConf source = some u ↔ ∀ axis, SpreadDefined source axis := by
  simp only [addSource, Option.bind_eq_bind, Option.bind_eq_some_iff, subInt_eq_some_iff,
    addInt_eq_some_iff, forM_eq_some_iff, mem_loopRange]
  constructor
  · rintro ⟨_, ⟨hlowX, -⟩, _, ⟨hhighX, -⟩, _, ⟨hlowY, -⟩, _, ⟨hhighY, -⟩, -⟩ axis
    cases axis with
    | x => exact ⟨hlowX, hhighX⟩
    | y => exact ⟨hlowY, hhighY⟩
  · intro h
    refine ⟨_, ⟨(h .x).1, rfl⟩, _, ⟨(h .x).2, rfl⟩, _, ⟨(h .y).1, rfl⟩, _, ⟨(h .y).2, rfl⟩,
      _, ⟨hY.sub_one hdef.rows_nonneg, rfl⟩, fun y hy => ⟨_, ⟨hX.sub_one ?_, rfl⟩, rfl⟩⟩
    -- a visited row makes the region nonempty
    exact hdef.columns_nonneg (by omega)

theorem computeNoiseSqm_eq_some_iff (hX : IsInt simConf.maxX) (hY : IsInt simConf.maxY)
    (hdef : StartDefined simConf) (sources : List NoiseSource) (numElem : ℤ) (u : PUnit) :
    computeNoiseSqm simConf sources numElem = some u ↔
      ∀ l < numElem.toNat, ∀ source, sources[l]? = some source →
        ∀ axis, SpreadDefined source axis := by
  simp only [computeNoiseSqm, loopIndices, forM_eq_some_iff, List.mem_range]
  refine forall₂_congr fun l _ => ?_
  cases sources[l]? with
  | none => simp
  | some source => simp [addSource_eq_some_iff hX hY hdef]

end Spread

/-- One cell of the shuffle: `count` after it. -/
def shuffleCell (simConf : SimulationConfig) (worldSize rank : ℕ) (i : ℤ) (count j : ℤ) :
    Option ℤ := do
  let row ← mulInt i simConf.maxX
  let cell ← addInt row j
  let receiver ← modInt cell worldSize
  if receiver = rank then
    let _ ← subInt worldSize 1
    addInt count 1
  else some count

/-- The shuffle: the number of cells that a rank received. -/
def shuffle (simConf : SimulationConfig) (worldSize rank : ℕ) : Option ℤ :=
  (loopRange 0 (simConf.maxY - 1)).foldlM (fun count i =>
    (loopRange 0 (simConf.maxX - 1)).foldlM (shuffleCell simConf worldSize rank i) count) 0

section Shuffle

variable {simConf : SimulationConfig} {worldSize : ℕ}

/-- A rank receives at most one cell more. -/
theorem exists_shuffleCell (hdef : StartDefined simConf) (hw : 0 < worldSize)
    (hwmax : (worldSize : ℤ) ≤ intMax) (rank : ℕ) {i j count : ℤ} (hi : 0 ≤ i)
    (hi' : i < simConf.maxY) (hj : 0 ≤ j) (hj' : j < simConf.maxX) (hcount : 0 ≤ count)
    (hle : count ≤ i * simConf.maxX + j) :
    ∃ count', shuffleCell simConf worldSize rank i count j = some count' ∧ 0 ≤ count' ∧
      count' ≤ i * simConf.maxX + (j + 1) := by
  have hrow : 0 ≤ i * simConf.maxX := mul_nonneg hi (by omega)
  have hcells : i * simConf.maxX + (j + 1) ≤ intMax := by
    have hmul : (i + 1) * simConf.maxX ≤ simConf.maxY * simConf.maxX :=
      mul_le_mul_of_nonneg_right (by omega) (by omega)
    have := hdef.cells_le
    rw [mul_comm] at this
    rw [add_mul, one_mul] at hmul
    omega
  have hreceiver : modInt (i * simConf.maxX + j) worldSize =
      some ((i * simConf.maxX + j).tmod worldSize) :=
    (modInt_eq_some_iff_of_nonneg (by omega) (by omega)).mpr ⟨by omega, rfl⟩
  simp only [shuffleCell, Option.bind_eq_bind, Option.bind_eq_some_iff, mulInt_eq_some_iff,
    addInt_eq_some_iff]
  by_cases hrank : (i * simConf.maxX + j).tmod worldSize = rank
  · refine ⟨count + 1, ⟨_, ⟨IsInt.of_nonneg hrow (by omega), rfl⟩, _,
      ⟨IsInt.of_nonneg (by omega) (by omega), rfl⟩, _, hreceiver, ?_⟩, by omega, by omega⟩
    rw [if_pos hrank, Option.bind_eq_some_iff]
    exact ⟨_, subInt_eq_some_iff.mpr ⟨IsInt.of_nonneg (by omega) (by omega), rfl⟩,
      addInt_eq_some_iff.mpr ⟨IsInt.of_nonneg (by omega) (by omega), rfl⟩⟩
  · refine ⟨count, ⟨_, ⟨IsInt.of_nonneg hrow (by omega), rfl⟩, _,
      ⟨IsInt.of_nonneg (by omega) (by omega), rfl⟩, _, hreceiver, ?_⟩, by omega, by omega⟩
    rw [if_neg hrank]

/-- No index of the shuffle overflows. -/
theorem exists_shuffle (hdef : StartDefined simConf) (hw : 0 < worldSize)
    (hwmax : (worldSize : ℤ) ≤ intMax) (rank : ℕ) :
    ∃ count, shuffle simConf worldSize rank = some count := by
  have hrange : ∀ n : ℤ, loopRange 0 (n - 1) = (List.range n.toNat).map fun k : ℕ => (k : ℤ) := by
    intro n
    simp [loopRange]
  have hrow : ∀ i < simConf.maxY.toNat, ∀ count, 0 ≤ count ∧ count ≤ i * simConf.maxX →
      ∃ count', (List.range simConf.maxX.toNat).foldlM
          (fun count (j : ℕ) => shuffleCell simConf worldSize rank i count j) count = some count' ∧
        0 ≤ count' ∧ count' ≤ (i + 1 : ℕ) * simConf.maxX := by
    intro i hi count hcount
    have hX := hdef.columns_nonneg (by omega)
    obtain ⟨count', hfold, hinv⟩ := exists_foldlM_range
      (f := fun count (j : ℕ) => shuffleCell simConf worldSize rank i count j)
      (n := simConf.maxX.toNat) (fun j count => 0 ≤ count ∧ count ≤ i * simConf.maxX + j)
      (by simpa using hcount) fun j hj count hinv => by
        push_cast
        exact exists_shuffleCell hdef hw hwmax rank (by omega) (by omega) (by omega) (by omega)
          hinv.1 hinv.2
    refine ⟨count', hfold, hinv.1, ?_⟩
    rw [Int.toNat_of_nonneg hX] at hinv
    push_cast
    rw [add_mul, one_mul]
    exact hinv.2
  obtain ⟨count, hcount, -⟩ := exists_foldlM_range
    (f := fun count (i : ℕ) => (List.range simConf.maxX.toNat).foldlM
      (fun count (j : ℕ) => shuffleCell simConf worldSize rank i count j) count)
    (fun i count => 0 ≤ count ∧ count ≤ i * simConf.maxX) (s := 0) (by simp) hrow
  refine ⟨count, ?_⟩
  simpa only [shuffle, hrange, List.foldlM_map] using hcount

end Shuffle

/-- `moving_speed * (rand() % 3 - 1)`. -/
def delta (speed : ℤ) (rand : ℕ) : Option ℤ := do
  let draw ← modInt rand 3
  let direction ← subInt draw 1
  mulInt speed direction

/-- The step of `move_noise_sources` that stays inside the border it looks at. -/
def turn (size x delta : ℤ) : Option ℤ := do
  let next ← addInt x delta
  if next ≥ size ∨ next < 0 then negInt delta else some delta

/-- The body of the loop of `move_noise_sources`, with the two values drawn for it. -/
def moveSource (simConf : SimulationConfig) (source : NoiseSource) (randX randY : ℕ) :
    Option NoiseSource := do
  let deltaX ← delta source.movingSpeed randX
  let deltaY ← delta source.movingSpeed randY
  let deltaX ← turn simConf.maxX source.x deltaX
  let deltaY ← turn simConf.maxY source.y deltaY
  let x ← addInt source.x deltaX
  let y ← addInt source.y deltaY
  return { source with x, y }

/-- One coordinate can be moved in the given direction. -/
structure StepDefined (size speed direction x : ℤ) : Prop where
  delta : IsInt (speed * direction)
  next : IsInt (x + speed * direction)
  turned : x + speed * direction ≥ size ∨ x + speed * direction < 0 →
    IsInt (-(speed * direction))
  moved : IsInt (moveCoord size speed direction x)

section Move

theorem delta_eq_some_iff {rand : ℕ} (hrand : (rand : ℤ) ≤ intMax) {speed d : ℤ} :
    delta speed rand = some d ↔ IsInt (speed * direction rand) ∧ speed * direction rand = d := by
  have hdraw : modInt rand 3 = some ((rand % 3 : ℕ) : ℤ) :=
    (modInt_eq_some_iff_of_nonneg (Int.natCast_nonneg _) hrand).mpr ⟨by omega, rfl⟩
  have hint : IsInt ((rand : ℤ) % 3 - 1) := by
    unfold IsInt intMax
    omega
  simp [delta, Option.bind_eq_some_iff, hdraw, hint, direction]

theorem turn_eq_some_iff {size x δ d : ℤ} : turn size x δ = some d ↔ IsInt (x + δ) ∧
    (x + δ ≥ size ∨ x + δ < 0 → IsInt (-δ)) ∧
      (if x + δ ≥ size ∨ x + δ < 0 then -δ else δ) = d := by
  simp only [turn, Option.bind_eq_bind, Option.bind_eq_some_iff, addInt_eq_some_iff, and_assoc,
    exists_and_left, exists_eq_left']
  split_ifs with h <;> simp [h]

variable {simConf : SimulationConfig} {rand : ℕ → ℕ}

theorem moveSource_eq_some_iff (hrand : Drawn rand) (l : ℕ) (source moved : NoiseSource) :
    moveSource simConf source (rand (2 * l)) (rand (2 * l + 1)) = some moved ↔
      (∀ axis, StepDefined (simConf.size axis) source.movingSpeed
        (direction (axisDraw rand l axis)) (source.coord axis)) ∧
      Mpi.moveSource simConf source (rand (2 * l)) (rand (2 * l + 1)) = moved := by
  simp only [moveSource, Option.bind_eq_bind, Option.bind_eq_some_iff, addInt_eq_some_iff,
    delta_eq_some_iff (hrand _), turn_eq_some_iff, and_assoc, exists_and_left, exists_eq_left']
  constructor
  · rintro ⟨hdeltaX, hdeltaY, hnextX, hturnX, hnextY, hturnY, hmovedX, hmovedY, hmoved⟩
    refine ⟨fun axis => ?_, Option.some.inj hmoved⟩
    cases axis with
    | x => exact ⟨hdeltaX, hnextX, hturnX, hmovedX⟩
    | y => exact ⟨hdeltaY, hnextY, hturnY, hmovedY⟩
  · rintro ⟨h, rfl⟩
    exact ⟨(h .x).delta, (h .y).delta, (h .x).next, (h .x).turned, (h .y).next, (h .y).turned,
      (h .x).moved, (h .y).moved, rfl⟩

end Move

/-- `move_noise_sources`: iteration `i` draws the values `2 i` and `2 i + 1`. -/
def moveNoiseSources (simConf : SimulationConfig) (rand : ℕ → ℕ) (sources : List NoiseSource)
    (numElem : ℤ) : Option (List NoiseSource) :=
  (loopIndices numElem).foldlM (fun s i => (s[i]?).elim (some s) fun source =>
    (moveSource simConf source (rand (2 * i)) (rand (2 * i + 1))).map (s.set i)) sources

theorem moveNoiseSources_eq_some_iff {simConf : SimulationConfig} {rand : ℕ → ℕ}
    (hrand : Drawn rand) (sources : List NoiseSource) (numElem : ℤ) (moved : List NoiseSource) :
    moveNoiseSources simConf rand sources numElem = some moved ↔
      (∀ l < numElem.toNat, ∀ source, sources[l]? = some source →
        ∀ axis, StepDefined (simConf.size axis) source.movingSpeed
          (direction (axisDraw rand l axis)) (source.coord axis)) ∧
      Mpi.moveNoiseSources simConf rand sources numElem = moved :=
  foldlM_set_eq_some_iff (moveSource_eq_some_iff hrand) numElem.toNat moved

/-- One cycle of the loop of `main`. -/
def cycle (debug : Bool) (simConf : SimulationConfig) (worldSize rank : ℕ) (rand : ℕ → ℕ)
    (sources : List NoiseSource) (numElem : ℤ) : Option (List NoiseSource) := do
  computeNoiseSqm simConf sources numElem
  let _ ← shuffle simConf worldSize rank
  let _ ← bif debug && rank == 0 then mulInt simConf.maxX simConf.maxY else some 0
  moveNoiseSources simConf rand sources numElem

/-- A source can be spread and moved along one axis with the values drawn for it. -/
def SourceDefined (simConf : SimulationConfig) (rand : ℕ → ℕ) (l : ℕ) (source : NoiseSource)
    (axis : Axis) : Prop :=
  SpreadDefined source axis ∧ StepDefined (simConf.size axis) source.movingSpeed
    (direction (axisDraw rand l axis)) (source.coord axis)

/-- A cycle is defined when every source it handles can be spread and moved. -/
theorem cycle_eq_some_iff {debug : Bool} {simConf : SimulationConfig} {worldSize rank : ℕ}
    {rand : ℕ → ℕ} (hX : IsInt simConf.maxX) (hY : IsInt simConf.maxY)
    (hdef : StartDefined simConf) (hw : 0 < worldSize) (hwmax : (worldSize : ℤ) ≤ intMax)
    (hrand : Drawn rand) (sources : List NoiseSource) (numElem : ℤ) (moved : List NoiseSource) :
    cycle debug simConf worldSize rank rand sources numElem = some moved ↔
      (∀ l < numElem.toNat, ∀ source, sources[l]? = some source →
        ∀ axis, SourceDefined simConf rand l source axis) ∧
      Mpi.moveNoiseSources simConf rand sources numElem = moved := by
  obtain ⟨count, hcount⟩ := exists_shuffle hdef hw hwmax rank
  have hcells := IsInt.of_nonneg hdef.cells_nonneg hdef.cells_le
  obtain ⟨cells, hgather⟩ : ∃ cells,
      (bif debug && rank == 0 then mulInt simConf.maxX simConf.maxY else some 0) = some cells := by
    cases debug && rank == 0 with
    | false => exact ⟨0, rfl⟩
    | true => exact ⟨_, mulInt_eq_some_iff.mpr ⟨hcells, rfl⟩⟩
  simp only [cycle, Option.bind_eq_bind, Option.bind_eq_some_iff, hcount, hgather,
    Option.some.injEq, exists_eq_left', computeNoiseSqm_eq_some_iff hX hY hdef,
    moveNoiseSources_eq_some_iff hrand, exists_const]
  constructor
  · rintro ⟨hspread, hstep, hmoved⟩
    exact ⟨fun l hl source hs axis => ⟨hspread l hl source hs axis, hstep l hl source hs axis⟩,
      hmoved⟩
  · rintro ⟨h, hmoved⟩
    exact ⟨fun l hl source hs axis => (h l hl source hs axis).1,
      fun l hl source hs axis => (h l hl source hs axis).2, hmoved⟩

/-- `main` after some cycles; cycle `c` moves the sources with the values `draws c`. -/
def run (debug : Bool) (simConf : SimulationConfig) (worldSize : ℕ) (rand : ℕ → ℕ)
    (memory : ℤ → NoiseSource) (draws : ℕ → ℕ → ℕ) (rank : ℕ) :
    ℕ → Option (List NoiseSource × ℤ)
  | 0 => startUp debug simConf worldSize rand memory rank
  | c + 1 => do
    let (sources, numElem) ← run debug simConf worldSize rand memory draws rank c
    let moved ← cycle debug simConf worldSize rank (draws c) sources numElem
    return (moved, numElem)

section Run

variable {debug : Bool} {simConf : SimulationConfig} {worldSize : ℕ} {rand : ℕ → ℕ}
  {memory : ℤ → NoiseSource} {draws : ℕ → ℕ → ℕ} {rank : ℕ}

/-- A run is defined when its start-up is and every source it holds can be spread and moved
in every cycle. -/
theorem run_eq_some_iff (hX : IsInt simConf.maxX) (hY : IsInt simConf.maxY)
    (hw : 0 < worldSize) (hwmax : (worldSize : ℤ) ≤ intMax) (hrand : Drawn rand)
    (hdraws : ∀ c, Drawn (draws c)) (c : ℕ) (r : List NoiseSource × ℤ) :
    run debug simConf worldSize rand memory draws rank c = some r ↔ StartDefined simConf ∧
      (∀ k < c, ∀ l < (numElemPerProc simConf worldSize).toNat, ∀ source,
        (moves simConf draws (localSources simConf worldSize rand memory rank)
          (numElemPerProc simConf worldSize) k)[l]? = some source →
        ∀ axis, SourceDefined simConf (draws k) l source axis) ∧
      (moves simConf draws (localSources simConf worldSize rand memory rank)
        (numElemPerProc simConf worldSize) c, numElemPerProc simConf worldSize) = r := by
  induction c generalizing r with
  | zero =>
    rw [run, startUp_eq_some_iff hrand hw hwmax]
    simp [moves]
  | succ c ih =>
    simp only [run, Option.bind_eq_bind, Option.bind_eq_some_iff, ih]
    constructor
    · rintro ⟨_, ⟨hdef, hbefore, rfl⟩, moved, hcycle, hr⟩
      obtain ⟨hlast, rfl⟩ := (cycle_eq_some_iff hX hY hdef hw hwmax (hdraws c) _ _ _).mp hcycle
      refine ⟨hdef, fun k hk => ?_, Option.some.inj hr⟩
      rcases Nat.lt_succ_iff_lt_or_eq.mp hk with hk | rfl
      · exact hbefore k hk
      · exact hlast
    · rintro ⟨hdef, hall, rfl⟩
      refine ⟨_, ⟨hdef, fun k hk => hall k (by omega), rfl⟩, _, ?_, rfl⟩
      exact (cycle_eq_some_iff hX hY hdef hw hwmax (hdraws c) _ _ _).mpr
        ⟨hall c c.lt_succ_self, rfl⟩

/-- The loop of `main` moves the local array as often as it has run. -/
theorem cycleStart_fst (simConf : SimulationConfig) (worldSize : ℕ) (rand : ℕ → ℕ)
    (draws : ℕ → ℕ → ℕ) (rank c : ℕ) : (cycleStart simConf worldSize rand draws rank c).1 =
      moves simConf draws (localArr simConf worldSize rand rank)
        (numElemPerProc simConf worldSize) c := by
  induction c with
  | zero => rfl
  | succ c ih => rw [moves, ← ih, cycleStart]

/-- A defined run holds the sources of the unchecked one. -/
theorem run_eq_cycleStart (hX : IsInt simConf.maxX) (hY : IsInt simConf.maxY)
    (hp : 0 ≤ simConf.p) (hv : 0 ≤ simConf.v) (hwmax : (worldSize : ℤ) ≤ intMax)
    (hr : rank < worldSize) (hrand : Drawn rand) (hdraws : ∀ c, Drawn (draws c)) {c : ℕ}
    {r : List NoiseSource × ℤ}
    (h : run debug simConf worldSize rand memory draws rank c = some r) :
    r = ((cycleStart simConf worldSize rand draws rank c).1, numElemPerProc simConf worldSize) := by
  obtain ⟨-, -, hresult⟩ := (run_eq_some_iff hX hY (by omega) hwmax hrand hdraws c r).mp h
  rw [← hresult, cycleStart_fst, localSources_eq_localArr hp hv rand memory hr]

end Run

end NoiseLevel.Mpi.Checked
