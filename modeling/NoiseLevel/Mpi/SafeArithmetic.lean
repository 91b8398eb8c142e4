import NoiseLevel.Mpi.CheckedRun
import NoiseLevel.Mpi.ConfigParser

/-!
# Configurations whose arithmetic is defined

No parameter is checked when it is read. Every run is defined exactly when the sizes of the
arrays are, a source has a place, and two more distances beyond the farthest coordinate
that a source can reach are values of `int`.
-/

namespace NoiseLevel.Mpi.Checked

open NoiseLevel.Core

/-- Inside the region, or where a step that was turned leads from inside. -/
def Reached (size speed x : ℤ) : Prop :=
  Inside size x ∨ (x < 0 ∧ Inside size (x + speed) ∧ size - speed ≤ x + speed) ∨
    (size ≤ x ∧ Inside size (x - speed) ∧ x - speed < speed)

/-- The farthest coordinate that a source reaches. -/
def reachMax (size speed : ℤ) : ℤ :=
  if 2 * speed ≤ size then size - 1 else min speed size - 1 + speed

section Reach

variable {size speed x : ℤ}

/-- A move leads to a place that can be reached. -/
theorem Reached.move {d : ℤ} (hd : d = -1 ∨ d = 0 ∨ d = 1) (h : Reached size |speed| x) :
    Reached size |speed| (moveCoord size speed d x) := by
  have habs := abs_choice speed
  have hpos := abs_nonneg speed
  unfold Reached Inside moveCoord at *
  rcases hd with rfl | rfl | rfl <;> split_ifs <;> omega

/-- The places that can be reached are bounded. -/
theorem Reached.le (h : Reached size speed x) :
    size - 1 - reachMax size speed ≤ x ∧ x ≤ reachMax size speed := by
  unfold Reached Inside at h
  unfold reachMax
  split_ifs <;> omega

/-- The bound is not negative. -/
theorem reachMax_nonneg (hsize : 1 ≤ size) (hspeed : 0 ≤ speed) : 0 ≤ reachMax size speed := by
  unfold reachMax
  split_ifs <;> omega

/-- Some drawn value makes the step point upwards. -/
theorem exists_direction_eq_abs (speed : ℤ) :
    ∃ draw : ℕ, draw < 3 ∧ speed * direction draw = |speed| := by
  rcases abs_choice speed with habs | habs <;> rw [habs]
  · exact ⟨2, by omega, mul_one _⟩
  · exact ⟨0, by omega, mul_neg_one _⟩

/-- The farthest coordinate is reached in one step from inside. -/
theorem exists_move_eq_reachMax (hsize : 1 ≤ size) (speed : ℤ) :
    ∃ x draw, Inside size x ∧ draw < 3 ∧
      moveCoord size speed (direction draw) x = reachMax size |speed| := by
  unfold reachMax Inside
  by_cases hfit : 2 * |speed| ≤ size
  · refine ⟨size - 1, 1, by omega, by omega, ?_⟩
    rw [if_pos hfit, show direction 1 = 0 from rfl, moveCoord, mul_zero]
    split_ifs <;> omega
  · rw [if_neg hfit]
    rcases abs_cases speed with ⟨habs, hspeed⟩ | ⟨habs, hspeed⟩
    · refine ⟨min |speed| size - 1, 0, by omega, by omega, ?_⟩
      rw [show direction 0 = -1 from rfl, moveCoord]
      split_ifs <;> omega
    · refine ⟨min |speed| size - 1, 2, by omega, by omega, ?_⟩
      rw [show direction 2 = 1 from rfl, moveCoord]
      split_ifs <;> omega

end Reach

/-- Sources of one kind are spread and moved without overflow wherever they are. -/
structure KindSafe (simConf : SimulationConfig) (kind : Kind) (axis : Axis) : Prop where
  spread : reachMax (simConf.size axis) |kind.movingSpeed| + |kind.distanceAffected| ≤ intMax
  step : reachMax (simConf.size axis) |kind.movingSpeed| + |kind.movingSpeed| ≤ intMax

/-- The configurations whose arithmetic is defined. -/
structure SafeArithmetic (simConf : SimulationConfig) : Prop where
  startUp : StartDefined simConf
  people : 0 < simConf.p → 0 < simConf.p + simConf.v →
    ∀ axis, KindSafe simConf (people simConf) axis
  vehicles : 0 < simConf.v → 0 < simConf.p + simConf.v →
    ∀ axis, KindSafe simConf (vehicles simConf) axis

/-- In every run of every number of ranks, every rank gets through all cycles. -/
def ArithmeticDefined (debug : Bool) (simConf : SimulationConfig) : Prop :=
  ∀ (worldSize : ℕ) (rand : ℕ → ℕ) (memory : ℤ → NoiseSource) (draws : ℕ → ℕ → ℕ) (rank c : ℕ),
    0 < worldSize → (worldSize : ℤ) ≤ intMax → rank < worldSize → Drawn rand →
    (∀ c, Drawn (draws c)) →
    (run debug simConf worldSize rand memory draws rank c).isSome

section Safe

variable {simConf : SimulationConfig} {axis : Axis}

/-- A place for a source is a row and a column. -/
theorem StartDefined.one_le_size (h : StartDefined simConf)
    (hsources : 0 < simConf.p ∨ 0 < simConf.v) (axis : Axis) : 1 ≤ simConf.size axis := by
  obtain ⟨hX, hY⟩ := h.region hsources
  have hrows := h.rows_nonneg
  have hcolumns := h.columns_nonneg
  cases axis <;> simp only [SimulationConfig.size] <;> omega

/-- A source is drawn inside the region. -/
theorem inside_drawSource {rand : ℕ → ℕ} (hsize : 1 ≤ simConf.size axis) (kind : Kind)
    (call : ℕ) : Inside (simConf.size axis) ((drawSource simConf rand kind call).coord axis) := by
  cases axis <;> exact inside_tmod hsize _

/-- Any place inside can be drawn. -/
theorem coord_drawSource_of_inside {x : ℤ} (h : Inside (simConf.size axis) x) (kind : Kind)
    (call : ℕ) : (drawSource simConf (fun _ => x.toNat) kind call).coord axis = x := by
  have hmod : (x.toNat : ℤ).tmod (simConf.size axis) = x := by
    rw [Int.toNat_of_nonneg h.1, Int.tmod_eq_of_lt h.1 h.2]
  cases axis <;> exact hmod

/-- A sum stays in the range of `int` if its distances do. -/
theorem isInt_add {bound x a : ℤ} (hlo : -bound ≤ x) (hhi : x ≤ bound)
    (h : bound + |a| ≤ intMax) : IsInt (x + a) := by
  have := abs_le.mp (le_refl |a|)
  unfold IsInt
  omega

/-- Where a kind is safe, a source of it is handled wherever it is. -/
theorem KindSafe.sourceDefined {kind : Kind} (h : KindSafe simConf kind axis)
    (hsize : 1 ≤ simConf.size axis) (rand : ℕ → ℕ) (l : ℕ) {source : NoiseSource}
    (hdistance : source.distanceAffected = kind.distanceAffected)
    (hspeed : source.movingSpeed = kind.movingSpeed)
    (hreached : Reached (simConf.size axis) |kind.movingSpeed| (source.coord axis)) :
    SourceDefined simConf rand l source axis := by
  have hR := reachMax_nonneg hsize (abs_nonneg kind.movingSpeed)
  obtain ⟨hlo, hhi⟩ := hreached.le
  replace hlo : -reachMax (simConf.size axis) |kind.movingSpeed| ≤ source.coord axis := by omega
  have hspread := h.spread
  rw [← hdistance] at hspread
  have hdelta : |source.movingSpeed * direction (axisDraw rand l axis)| ≤ |kind.movingSpeed| := by
    rw [hspeed, abs_mul]
    apply mul_le_of_le_one_right (abs_nonneg _)
    rcases direction_cases (axisDraw rand l axis) with hd | hd | hd <;> rw [hd] <;> decide
  replace hdelta := (Int.add_le_add_left hdelta _).trans h.step
  have hback := hdelta
  rw [← abs_neg (source.movingSpeed * _)] at hback
  refine ⟨⟨?_, isInt_add hlo hhi hspread⟩, ?_, isInt_add hlo hhi hdelta, fun _ => ?_, ?_⟩
  · rw [sub_eq_add_neg]
    exact isInt_add hlo hhi (by rwa [abs_neg])
  · rw [← zero_add (source.movingSpeed * _)]
    exact isInt_add (by omega) hR hdelta
  · rw [← zero_add (-(source.movingSpeed * _))]
    exact isInt_add (by omega) hR hback
  · unfold moveCoord
    split_ifs
    · exact isInt_add hlo hhi hback
    · exact isInt_add hlo hhi hdelta

/-- What stays of a source in any number of calls of `move_noise_sources`. -/
theorem exists_source_of_moves (draws : ℕ → ℕ → ℕ) (sources : List NoiseSource) (numElem : ℤ)
    (k : ℕ) {l : ℕ} {moved : NoiseSource}
    (h : (moves simConf draws sources numElem k)[l]? = some moved) :
    ∃ source, sources[l]? = some source ∧ moved.distanceAffected = source.distanceAffected ∧
      moved.movingSpeed = source.movingSpeed ∧
      ∀ axis, Inside (simConf.size axis) (source.coord axis) →
        Reached (simConf.size axis) |source.movingSpeed| (moved.coord axis) := by
  induction k generalizing moved with
  | zero => exact ⟨moved, h, rfl, rfl, fun axis hin => Or.inl hin⟩
  | succ k ih =>
    rw [moves, getElem?_moveNoiseSources] at h
    split_ifs at h with hl
    · obtain ⟨before, hbefore, rfl⟩ := Option.map_eq_some_iff.mp h
      obtain ⟨source, hs, hdistance, hspeed, hreached⟩ := ih hbefore
      refine ⟨source, hs, hdistance, hspeed, fun axis hin => ?_⟩
      rw [coord_moveSource, hspeed]
      exact (hreached axis hin).move (direction_cases _)
    · exact ih h

/-- Every run of a safe configuration is defined. -/
theorem SafeArithmetic.arithmeticDefined (hX : IsInt simConf.maxX) (hY : IsInt simConf.maxY)
    (h : SafeArithmetic simConf) (debug : Bool) : ArithmeticDefined debug simConf := by
  intro worldSize rand memory draws rank c hw hwmax hr hrand hdraws
  rw [Option.isSome_iff_exists]
  refine ⟨_, (run_eq_some_iff hX hY hw hwmax hrand hdraws c _).mpr
    ⟨h.startUp, fun k _ l _ moved hmoved axis => ?_, rfl⟩⟩
  obtain ⟨source, hs, hdistance, hspeed, hreached⟩ := exists_source_of_moves _ _ _ k hmoved
  obtain ⟨hsum, call, ⟨hp, rfl⟩ | ⟨hv, rfl⟩⟩ :=
    exists_drawSource h.startUp.sources_nonneg hr (List.mem_of_getElem? hs)
  · have hsize := h.startUp.one_le_size (Or.inl hp) axis
    exact (h.people hp hsum axis).sourceDefined hsize _ _ hdistance hspeed
      (hreached axis (inside_drawSource hsize _ _))
  · have hsize := h.startUp.one_le_size (Or.inr hv) axis
    exact (h.vehicles hv hsum axis).sourceDefined hsize _ _ hdistance hspeed
      (hreached axis (inside_drawSource hsize _ _))

/-- One rank computes all sources. -/
theorem numElemPerProc_one (simConf : SimulationConfig) :
    numElemPerProc simConf 1 = simConf.p + simConf.v :=
  (numElemPerProc_eq_tdiv simConf 1).trans (Int.tdiv_one _)

/-- A single rank holds all sources. -/
theorem getElem?_localSources_one (hsum : 0 ≤ simConf.p + simConf.v) (rand : ℕ → ℕ)
    (memory : ℤ → NoiseSource) {l : ℕ} (hl : (l : ℤ) < simConf.p + simConf.v) :
    (localSources simConf 1 rand memory 0)[l]? = some (sourcesWritten simConf rand memory l) := by
  have hres : elemRes simConf 1 = 0 := Int.tmod_one _
  have hcount : blockCount (simConf.p + simConf.v) 0 0 = simConf.p + simConf.v := if_neg (by decide)
  rw [getElem?_localSources hsum one_pos, hres, numElemPerProc_one, hcount, if_pos (by omega)]
  simp [blockDispl]

/-- A kind is safe if a source of it is handled on the farthest coordinate, with a step that
points upwards. -/
theorem KindSafe.of_sourceDefined {kind : Kind} {rand : ℕ → ℕ} {l : ℕ} {source : NoiseSource}
    (h : SourceDefined simConf rand l source axis)
    (hdistance : source.distanceAffected = kind.distanceAffected)
    (hspeed : source.movingSpeed = kind.movingSpeed)
    (hfar : source.coord axis = reachMax (simConf.size axis) |kind.movingSpeed|)
    (hup : kind.movingSpeed * direction (axisDraw rand l axis) = |kind.movingSpeed|) :
    KindSafe simConf kind axis := by
  obtain ⟨⟨hlo, hhi⟩, hstep⟩ := h
  have hnext := hstep.next
  rw [hfar, hspeed, hup] at hnext
  rw [hfar, hdistance] at hlo hhi
  refine ⟨?_, hnext.2⟩
  rcases abs_choice kind.distanceAffected with habs | habs <;> rw [habs]
  · exact hhi.2
  · exact hlo.2

/-- What is defined of a run of a single rank. -/
theorem ArithmeticDefined.sourceDefined (hX : IsInt simConf.maxX) (hY : IsInt simConf.maxY)
    {debug : Bool} (h : ArithmeticDefined debug simConf) {rand : ℕ → ℕ} {draws : ℕ → ℕ → ℕ}
    (hrand : Drawn rand) (hdraws : ∀ c, Drawn (draws c)) (memory : ℤ → NoiseSource) (k l : ℕ)
    (hl : l < (numElemPerProc simConf 1).toNat) {source : NoiseSource}
    (hs : (moves simConf draws (localSources simConf 1 rand memory 0)
      (numElemPerProc simConf 1) k)[l]? = some source) (axis : Axis) :
    SourceDefined simConf (draws k) l source axis := by
  have hrun := h 1 rand memory draws 0 (k + 1) one_pos (by decide) one_pos hrand hdraws
  obtain ⟨r, hr⟩ := Option.isSome_iff_exists.mp hrun
  obtain ⟨-, hall, -⟩ := (run_eq_some_iff hX hY one_pos (by decide) hrand hdraws (k + 1) r).mp hr
  exact hall k k.lt_succ_self l hl source hs axis

/-- Constant draws. -/
theorem axisDraw_const (draw l : ℕ) (axis : Axis) : axisDraw (fun _ => draw) l axis = draw := by
  cases axis <;> rfl

/-- A held source starts where a turned step leads to the farthest coordinate, and the next
cycle spreads and moves it there. -/
theorem kindSafe_of_held (hX : IsInt simConf.maxX) (hY : IsInt simConf.maxY) {debug : Bool}
    (h : ArithmeticDefined debug simConf) (hsize : 1 ≤ simConf.size axis) {kind : Kind}
    (l call : ℕ) (hl : l < (numElemPerProc simConf 1).toNat)
    (hheld : ∀ rand memory, (localSources simConf 1 rand memory 0)[l]? =
      some (drawSource simConf rand kind call)) : KindSafe simConf kind axis := by
  obtain ⟨x, draw, hin, hdraw, hmove⟩ := exists_move_eq_reachMax hsize kind.movingSpeed
  obtain ⟨upward, hupward, hup⟩ := exists_direction_eq_abs kind.movingSpeed
  have hmax : simConf.size axis ≤ intMax := by
    cases axis
    · exact hX.2
    · exact hY.2
  have hrand : Drawn fun _ => x.toNat := fun _ => by
    rw [Int.toNat_of_nonneg hin.1]
    exact hin.2.le.trans hmax
  let draws : ℕ → ℕ → ℕ := fun k _ => if k = 0 then draw else upward
  have hdraws : ∀ c, Drawn (draws c) := by
    intro c n
    simp only [draws]
    unfold intMax
    split <;> omega
  let memory : ℤ → NoiseSource := fun _ => ⟨0, 0, 0, 0, 0⟩
  -- one cycle takes the source to the farthest coordinate
  obtain ⟨moved, hmoved, hspeed, hcoord⟩ := getElem?_moves_succ simConf draws _
    (numElemPerProc simConf 1) (k := 0) (hheld _ memory)
  obtain ⟨source, hs, hdistance, -, -⟩ := exists_source_of_moves draws _ _ 1 hmoved
  obtain rfl := Option.some.inj (hs.symm.trans (hheld _ memory))
  have hfar := hcoord axis
  rw [if_pos hl, coord_drawSource_of_inside hin, show axisDraw (draws 0) l axis = draw from
    axisDraw_const draw l axis] at hfar
  -- and the next one handles it there
  refine KindSafe.of_sourceDefined
    (h.sourceDefined hX hY hrand hdraws memory 1 l hl hmoved axis) hdistance hspeed
    (hfar.trans hmove) ?_
  rw [show axisDraw (draws 1) l axis = upward from axisDraw_const upward l axis]
  exact hup

/-- What is defined in every cycle is defined at the start. -/
theorem ArithmeticDefined.startDefined {debug : Bool} (h : ArithmeticDefined debug simConf) :
    StartDefined simConf := by
  have hzero : Drawn fun _ => 0 := fun _ => show (0 : ℤ) ≤ intMax by decide
  obtain ⟨r, hr⟩ := Option.isSome_iff_exists.mp (h 1 (fun _ => 0) (fun _ => ⟨0, 0, 0, 0, 0⟩)
    (fun _ _ => 0) 0 0 one_pos (by decide) one_pos hzero fun _ => hzero)
  exact startDefined_of_startUp hzero hr

/-- A configuration whose arithmetic is defined is safe. -/
theorem safeArithmetic_of_arithmeticDefined (hX : IsInt simConf.maxX) (hY : IsInt simConf.maxY)
    {debug : Bool} (h : ArithmeticDefined debug simConf) : SafeArithmetic simConf := by
  have hdef := h.startDefined
  have hper := numElemPerProc_one simConf
  refine ⟨hdef, fun hp hsum axis => ?_, fun hv hsum axis => ?_⟩
  · refine kindSafe_of_held hX hY h (hdef.one_le_size (Or.inl hp) axis) 0 0 (by omega)
      fun rand memory => ?_
    rw [getElem?_localSources_one hdef.sources_nonneg rand memory (by omega), sourcesWritten,
      if_neg (by omega), if_pos (by omega)]
    rfl
  · refine kindSafe_of_held hX hY h (hdef.one_le_size (Or.inr hv) axis) simConf.p.toNat
      (2 * simConf.p.toNat + 2 * ((simConf.p.toNat : ℤ) - simConf.p).toNat) (by omega)
      fun rand memory => ?_
    rw [getElem?_localSources_one hdef.sources_nonneg rand memory (by omega), sourcesWritten,
      if_pos (by omega)]

end Safe

/-- The values of a file that are numbers are values of `int`. -/
def IntFile (file : Option ConfigFile) : Prop :=
  ∀ cfg name group, file = some cfg → cfg name = some group →
    ∀ key n, lookupInt group key = some n → IsInt n

/-- Every field is an `int`. -/
def IntFields (simConf : SimulationConfig) : Prop := ∀ e ∈ simulationFields, IsInt (e.2 simConf)

instance (simConf : SimulationConfig) : Decidable (IntFields simConf) := by
  unfold IntFields
  infer_instance

section Read

variable {σ : Type*} {P : σ → Prop}

/-- Lookups keep what each of them keeps. -/
theorem storeAll_keeps {steps : List (σ → Bool × σ)}
    (hsteps : ∀ f ∈ steps, ∀ s, P s → P (f s).2) {s : σ} (h : P s) : P (storeAll steps s).2 := by
  induction steps generalizing s with
  | nil => exact h
  | cons f rest ih =>
    obtain ⟨hf, hrest⟩ := List.forall_mem_cons.mp hsteps
    rw [storeAll]
    split
    · exact ih hrest (hf s h)
    · exact hf s h

/-- A lookup keeps a property if storing its value does. -/
theorem storeFound_keeps {α : Type*} {found : Option α} {put : α → σ → σ}
    (hput : ∀ value, found = some value → ∀ s, P s → P (put value s)) (s : σ) (h : P s) :
    P (storeFound found put s).2 := by
  cases found with
  | none => exact h
  | some value => exact hput value rfl s h

/-- What is read from a file are values of `int`. -/
theorem intFields_readSimulationConfig {file : Option ConfigFile} {before : SimulationConfig}
    (hfile : IntFile file) (hbefore : IntFields before) :
    IntFields (readSimulationConfig file before).2 := by
  unfold readSimulationConfig
  cases file with
  | none => exact hbefore
  | some cfg =>
    cases hsim : cfg "simulation" with
    | none => simpa [hsim] using hbefore
    | some sim =>
      simp only [hsim]
      have hput : ∀ key (put : ℤ → SimulationConfig → SimulationConfig),
          (∀ n s, IsInt n → IntFields s → IntFields (put n s)) → ∀ s, IntFields s →
            IntFields (storeFound (lookupInt sim key) put s).2 := fun key put h =>
        storeFound_keeps fun n hn s => h n s (hfile cfg _ sim rfl hsim key n hn)
      refine storeAll_keeps ?_ hbefore
      simp only [List.forall_mem_cons]
      refine ⟨hput _ _ ?_, hput _ _ ?_, hput _ _ ?_, hput _ _ ?_, hput _ _ ?_, hput _ _ ?_,
        hput _ _ ?_, hput _ _ ?_, hput _ _ ?_, hput _ _ ?_, hput _ _ ?_,
        List.forall_mem_nil _⟩
      all_goals
        intro n s hn hs
        simp only [IntFields, simulationFields, List.forall_mem_cons] at hs ⊢
        simp only [hn, hs, true_and]
        exact List.forall_mem_nil _

end Read

/-- A file with the eleven values of a configuration. -/
def simulationFile (simConf : SimulationConfig) : ConfigFile := fun name =>
  if name = "simulation" then
    some fun key => (simulationFields.find? (·.1 = key)).map fun e => .int (e.2 simConf)
  else none

section File

variable {simConf : SimulationConfig}

/-- The file of a configuration is read back. -/
theorem readSimulationConfig_simulationFile (before : SimulationConfig) :
    readSimulationConfig (some (simulationFile simConf)) before = (.success, simConf) := by
  simp [readSimulationConfig, simulationFile, storeAll, storeFound, lookupInt, simulationFields]

/-- The file of a configuration has numbers of 32 bits. -/
theorem intFile_simulationFile (h : IntFields simConf) :
    IntFile (some (simulationFile simConf)) := by
  rintro cfg name group hcfg hgroup key n hn
  obtain rfl := Option.some.inj hcfg
  unfold simulationFile at hgroup
  split_ifs at hgroup
  obtain rfl := Option.some.inj hgroup
  unfold lookupInt at hn
  cases hfind : simulationFields.find? (·.1 = key) with
  | none => simp [hfind] at hn
  | some e =>
    simp only [hfind, Option.map_some, Option.some.injEq] at hn
    rw [← hn]
    exact h e (List.mem_of_find?_eq_some hfind)

end File

/-- For every configuration that is read with success, the arithmetic of all runs is defined
exactly when the configuration is safe. -/
theorem arithmeticDefined_iff {file : Option ConfigFile} {before simConf : SimulationConfig}
    (hfile : IntFile file) (hbefore : IntFields before)
    (hread : readSimulationConfig file before = (.success, simConf)) (debug : Bool) :
    ArithmeticDefined debug simConf ↔ SafeArithmetic simConf := by
  have hints := intFields_readSimulationConfig hfile hbefore
  rw [hread] at hints
  have hX := hints ("MAX_X", (·.maxX)) (by simp [simulationFields])
  have hY := hints ("MAX_Y", (·.maxY)) (by simp [simulationFields])
  exact ⟨safeArithmetic_of_arithmeticDefined hX hY, fun h => h.arithmeticDefined hX hY debug⟩

/-- The shipped configuration is safe. -/
theorem arithmeticDefined_shipped : ArithmeticDefined false shippedConf := by
  refine (arithmeticDefined_iff (intFile_simulationFile (by decide)) (by decide)
    (readSimulationConfig_simulationFile shippedConf) false).mpr ⟨?_, ?_, ?_⟩
  · exact ⟨by decide, by decide, by decide, by decide, by decide, by decide⟩
  · intro _ _ axis
    cases axis <;> exact ⟨by decide, by decide⟩
  · intro _ _ axis
    cases axis <;> exact ⟨by decide, by decide⟩

/-- A region without columns is read with success and has no place for a source. -/
theorem not_arithmeticDefined_no_columns : ¬∀ (file : Option ConfigFile)
    (before simConf : SimulationConfig), IntFile file → IntFields before →
    readSimulationConfig file before = (.success, simConf) → ArithmeticDefined false simConf := by
  intro hall
  have h := hall _ shippedConf { shippedConf with maxX := 0 } (intFile_simulationFile (by decide))
    (by decide) (readSimulationConfig_simulationFile shippedConf)
  exact (h.startDefined.region (by decide)).1 rfl

end NoiseLevel.Mpi.Checked
