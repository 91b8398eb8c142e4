import NoiseLevel.Mpi.Partition

/-!
# Where sources can move

A step that would leave the region is taken the other way, without a second look at the
border on that side. A source is at most one step outside, and it never leaves the
region exactly when two steps fit into it.
-/

namespace NoiseLevel.Mpi

/-- The two axes of the region. -/
inductive Axis where
  | x
  | y

/-- `MAX_X` or `MAX_Y`. -/
def SimulationConfig.size (simConf : SimulationConfig) : Axis → ℤ
  | .x => simConf.maxX
  | .y => simConf.maxY

def NoiseSource.coord (source : NoiseSource) : Axis → ℤ
  | .x => source.x
  | .y => source.y

/-- The value drawn for an axis of the source with the given index. -/
def axisDraw (rand : ℕ → ℕ) (i : ℕ) : Axis → ℕ
  | .x => rand (2 * i)
  | .y => rand (2 * i + 1)

/-- The direction that `move_noise_sources` takes from a drawn value. -/
def direction (draw : ℕ) : ℤ := (draw % 3 : ℕ) - 1

/-- One coordinate after a step in the given direction. -/
def moveCoord (size speed direction x : ℤ) : ℤ :=
  x + if x + speed * direction ≥ size ∨ x + speed * direction < 0 then -(speed * direction)
    else speed * direction

/-- The coordinates of an axis that lie in the region. -/
def Inside (size x : ℤ) : Prop := 0 ≤ x ∧ x < size

/-- Inside the region, or one step beyond either border. -/
def Near (size speed x : ℤ) : Prop :=
  Inside size x ∨ (x < 0 ∧ Inside size (x + speed)) ∨ (size ≤ x ∧ Inside size (x - speed))

/-- The sources after some calls of `move_noise_sources`. -/
def moves (simConf : SimulationConfig) (draws : ℕ → ℕ → ℕ) (sources : List NoiseSource)
    (numElem : ℤ) : ℕ → List NoiseSource
  | 0 => sources
  | k + 1 => moveNoiseSources simConf (draws k) (moves simConf draws sources numElem k) numElem

theorem coord_moveSource (simConf : SimulationConfig) (source : NoiseSource) (rand : ℕ → ℕ)
    (l : ℕ) (axis : Axis) :
    (moveSource simConf source (rand (2 * l)) (rand (2 * l + 1))).coord axis =
      moveCoord (simConf.size axis) source.movingSpeed (direction (axisDraw rand l axis))
        (source.coord axis) := by
  cases axis <;> rfl

theorem direction_cases (draw : ℕ) :
    direction draw = -1 ∨ direction draw = 0 ∨ direction draw = 1 := by
  unfold direction
  omega

section Step

variable {size speed d x : ℤ}

/-- A step from near the region stays near it. -/
theorem Near.move (hspeed : 0 ≤ speed) (hd : d = -1 ∨ d = 0 ∨ d = 1) (h : Near size speed x) :
    Near size speed (moveCoord size speed d x) := by
  unfold Near Inside moveCoord at *
  rcases hd with rfl | rfl | rfl <;> split_ifs <;> omega

/-- The next step of a source outside brings it back. -/
theorem Near.inside_move (hd : d = -1 ∨ d = 1) (h : Near size speed x) (hout : ¬Inside size x) :
    Inside size (moveCoord size speed d x) := by
  unfold Near Inside moveCoord at *
  rcases hd with rfl | rfl <;> split_ifs <;> omega

/-- Where two steps fit into the region, no step leaves it. -/
theorem Inside.move (hspeed : 0 ≤ speed) (hd : d = -1 ∨ d = 0 ∨ d = 1) (hfit : 2 * speed ≤ size)
    (h : Inside size x) :
    Inside size (moveCoord size speed d x) := by
  unfold Inside moveCoord at *
  rcases hd with rfl | rfl | rfl <;> split_ifs <;> omega

end Step

/-- Where two steps do not fit, some start leads outside in one step. -/
theorem exists_leaves {size speed : ℤ} (hsize : 1 ≤ size) (h : size < 2 * speed) :
    ∃ x, Inside size x ∧ ¬Inside size (moveCoord size speed 1 x) := by
  refine ⟨max 0 (size - speed), ?_, ?_⟩
  · unfold Inside
    omega
  · unfold Inside moveCoord
    split_ifs <;> omega

section Run

variable (simConf : SimulationConfig) (draws : ℕ → ℕ → ℕ) (sources : List NoiseSource)
  (numElem : ℤ)

/-- What one call does to one source. -/
theorem getElem?_moves_succ {k l : ℕ} {source : NoiseSource}
    (h : (moves simConf draws sources numElem k)[l]? = some source) :
    ∃ moved, (moves simConf draws sources numElem (k + 1))[l]? = some moved ∧
      moved.movingSpeed = source.movingSpeed ∧
      ∀ axis, moved.coord axis = if l < numElem.toNat then
        moveCoord (simConf.size axis) source.movingSpeed (direction (axisDraw (draws k) l axis))
          (source.coord axis) else source.coord axis := by
  rw [moves, getElem?_moveNoiseSources, h]
  by_cases hl : l < numElem.toNat
  · refine ⟨_, if_pos hl, rfl, fun axis => ?_⟩
    rw [coord_moveSource, if_pos hl]
  · exact ⟨source, if_neg hl, rfl, fun axis => (if_neg hl).symm⟩

/-- A source of the given speed whose coordinate has a property. -/
def HasSource (axis : Axis) (speed : ℤ) (P : ℤ → Prop) (sources : List NoiseSource) (l : ℕ) :
    Prop :=
  ∃ source : NoiseSource, sources[l]? = some source ∧ source.movingSpeed = speed ∧
    P (source.coord axis)

theorem HasSource.mono {axis : Axis} {speed : ℤ} {P Q : ℤ → Prop} {sources : List NoiseSource}
    {l : ℕ} (h : HasSource axis speed P sources l) (hPQ : ∀ x, P x → Q x) :
    HasSource axis speed Q sources l := by
  obtain ⟨source, hl, hv, hP⟩ := h
  exact ⟨source, hl, hv, hPQ _ hP⟩

/-- A property of a coordinate that every step keeps holds after any number of calls. -/
theorem HasSource.moves {axis : Axis} {speed : ℤ} {P : ℤ → Prop}
    (hstep : ∀ d x, (d = -1 ∨ d = 0 ∨ d = 1) → P x → P (moveCoord (simConf.size axis) speed d x))
    {l : ℕ} (h : HasSource axis speed P sources l) (k : ℕ) :
    HasSource axis speed P (Mpi.moves simConf draws sources numElem k) l := by
  induction k with
  | zero => exact h
  | succ k ih =>
    obtain ⟨source, hl, hv, hP⟩ := ih
    obtain ⟨moved, hmoved, hmv, hcoord⟩ := getElem?_moves_succ _ _ _ _ hl
    refine ⟨moved, hmoved, hmv.trans hv, ?_⟩
    rw [hcoord axis, hv]
    split_ifs
    · exact hstep _ _ (direction_cases _) hP
    · exact hP

end Run

/-- How far sources of one speed move along one axis, from any start inside the region and
with any values drawn. -/
structure SourceContainment (simConf : SimulationConfig) (axis : Axis) (speed : ℤ) : Prop where
  near : ∀ draws sources numElem l,
    HasSource axis speed (Inside (simConf.size axis)) sources l → ∀ k,
    HasSource axis speed (Near (simConf.size axis) speed)
      (moves simConf draws sources numElem k) l
  /-- A source outside comes back as soon as a direction is drawn for it. -/
  comes_back : ∀ draws sources (numElem : ℤ) l,
    HasSource axis speed (Inside (simConf.size axis)) sources l → ∀ k,
    l < numElem.toNat → direction (axisDraw (draws k) l axis) ≠ 0 →
    HasSource axis speed (fun x => ¬Inside (simConf.size axis) x)
      (moves simConf draws sources numElem k) l →
    HasSource axis speed (Inside (simConf.size axis))
      (moves simConf draws sources numElem (k + 1)) l
  contained_iff : (∀ draws sources numElem l,
    HasSource axis speed (Inside (simConf.size axis)) sources l → ∀ k,
    HasSource axis speed (Inside (simConf.size axis))
      (moves simConf draws sources numElem k) l) ↔ 2 * speed ≤ simConf.size axis

section Containment

variable {simConf : SimulationConfig} {axis : Axis} {speed : ℤ}

theorem near_moves (hspeed : 0 ≤ speed) (draws : ℕ → ℕ → ℕ) {sources : List NoiseSource}
    (numElem : ℤ) {l : ℕ} (h : HasSource axis speed (Inside (simConf.size axis)) sources l)
    (k : ℕ) : HasSource axis speed (Near (simConf.size axis) speed)
      (moves simConf draws sources numElem k) l :=
  (h.mono (Q := Near (simConf.size axis) speed) fun _ => Or.inl).moves simConf draws sources
    numElem (fun _ _ hd hx => hx.move hspeed hd) k

/-- Where two steps do not fit, a source leaves the region in the first call. -/
theorem not_inside_moves (hsize : 1 ≤ simConf.size axis) (h : simConf.size axis < 2 * speed) :
    ∃ source : NoiseSource, HasSource axis speed (Inside (simConf.size axis)) [source] 0 ∧
      ¬HasSource axis speed (Inside (simConf.size axis))
        (moves simConf (fun _ _ => 2) [source] 1 1) 0 := by
  obtain ⟨x, hx, hleaves⟩ := exists_leaves hsize h
  let source : NoiseSource := ⟨0, 0, speed, x, x⟩
  have hcoord : source.coord axis = x := by cases axis <;> rfl
  refine ⟨source, ⟨source, rfl, rfl, hcoord.symm ▸ hx⟩, ?_⟩
  rintro ⟨moved, hmoved, -, hin⟩
  obtain ⟨moved', hmoved', -, hstep⟩ :=
    getElem?_moves_succ simConf (fun _ _ => 2) [source] 1 (show (moves _ _ _ _ 0)[0]? = _ from rfl)
  obtain rfl : moved = moved' := Option.some.inj (hmoved.symm.trans hmoved')
  have hdir : direction (axisDraw (fun _ => 2) 0 axis) = 1 := by cases axis <;> rfl
  rw [hstep axis, if_pos (show 0 < Int.toNat 1 by decide), hcoord, hdir] at hin
  exact hleaves hin

/-- Sources stay within one step of the region, and inside it exactly when two steps fit. -/
theorem sourceContainment (hsize : 1 ≤ simConf.size axis) (hspeed : 0 ≤ speed) :
    SourceContainment simConf axis speed := by
  refine ⟨fun draws _ numElem _ h k => near_moves hspeed draws numElem h k, ?_, ?_, ?_⟩
  · intro draws sources numElem l h k hlt hd hout
    obtain ⟨source, hl, hv, hnear⟩ := near_moves hspeed draws numElem h k
    obtain ⟨source', hl', -, hout⟩ := hout
    obtain rfl : source = source' := Option.some.inj (hl.symm.trans hl')
    obtain ⟨back, hback, hbv, hcoord⟩ := getElem?_moves_succ _ _ _ _ hl
    refine ⟨back, hback, hbv.trans hv, ?_⟩
    rw [hcoord axis, if_pos hlt, hv]
    refine hnear.inside_move ?_ hout
    rcases direction_cases (axisDraw (draws k) l axis) with h | h | h
    · exact Or.inl h
    · exact absurd h hd
    · exact Or.inr h
  · intro hall
    by_contra hlt
    obtain ⟨source, hin, hout⟩ := not_inside_moves hsize (not_le.mp hlt)
    exact hout (hall _ _ _ _ hin 1)
  · intro hfit draws sources numElem l h k
    exact h.moves simConf draws sources numElem (fun _ _ hd hx => hx.move hspeed hd hfit) k

end Containment

/-- A region of one column, which sources of speed three leave. -/
theorem sourceContainment_one_column :
    SourceContainment { shippedConf with maxX := 1 } .x 3 :=
  sourceContainment (by decide) (by decide)

/-- A drawn value is reduced to a place in the region. -/
theorem inside_tmod {size : ℤ} (hsize : 1 ≤ size) (r : ℕ) : Inside size ((r : ℤ).tmod size) :=
  ⟨Int.tmod_nonneg _ (Int.natCast_nonneg r), Int.tmod_lt_of_pos _ (by omega)⟩

/-- New sources lie in the region. -/
theorem inside_initSourcesArray {simConf : SimulationConfig} {rand : ℕ → ℕ} {axis : Axis}
    (hsize : 1 ≤ simConf.size axis) {source : NoiseSource}
    (h : source ∈ initSourcesArray simConf rand) :
    Inside (simConf.size axis) (source.coord axis) := by
  simp only [initSourcesArray, List.mem_append, List.mem_map] at h
  rcases h with ⟨i, -, rfl⟩ | ⟨i, -, rfl⟩ <;> cases axis <;> exact inside_tmod hsize _

end NoiseLevel.Mpi
