import NoiseLevel.Mpi.Partition

/-!
# The levels of single cells

`compute_noise_sqm` over the rows that are allocated for a matrix, where an access beyond
a row or beyond the last row has no result. The loops stay inside, and every cell ends up
with the levels of the sources that cover it folded into its old value, in index order.
-/

namespace NoiseLevel.Mpi

open NoiseLevel.Core

/-- The allocated rows of a matrix. -/
abbrev Rows := List (List ℤ)

namespace Rows

/-- The value of `noise_sqm[y][x]`. -/
def read (rows : Rows) (y x : ℤ) : Option ℤ :=
  if 0 ≤ y ∧ 0 ≤ x then do (← rows[y.toNat]?)[x.toNat]? else none

theorem read_eq (rows : Rows) {y x : ℤ} (hy : 0 ≤ y) (hx : 0 ≤ x) :
    rows.read y x = rows[y.toNat]?.bind fun row => row[x.toNat]? := if_pos ⟨hy, hx⟩

/-- An assignment to `noise_sqm[y][x]`. -/
def write (rows : Rows) (y x level : ℤ) : Option Rows :=
  (rows.read y x).map fun _ => rows.modify y.toNat fun row => row.set x.toNat level

end Rows

/-- The body of the three loops of `compute_noise_sqm`. -/
noncomputable def addLevel (level : ℤ) (rows : Rows) (y x : ℤ) : Option Rows := do
  rows.write y x (sumNoises (← rows.read y x) level)

/-- The loops of `compute_noise_sqm` for one source. -/
noncomputable def addSourceRows (simConf : SimulationConfig) (rows : Rows) (source : NoiseSource) :
    Option Rows :=
  let maxXIncrement := source.x - source.distanceAffected
  let minXIncrement := source.x + source.distanceAffected
  let maxYIncrement := source.y - source.distanceAffected
  let minYIncrement := source.y + source.distanceAffected
  (loopRange (max 0 maxYIncrement) (min minYIncrement (simConf.maxY - 1))).foldlM (fun rows y =>
    (loopRange (max 0 maxXIncrement) (min minXIncrement (simConf.maxX - 1))).foldlM (fun rows x =>
      addLevel source.noiseLevel rows y x) rows) rows

/-- `compute_noise_sqm` on allocated rows. -/
noncomputable def computeNoiseSqmRows (simConf : SimulationConfig) (rows : Rows)
    (sources : List NoiseSource) (numElem : ℤ) : Option Rows :=
  (loopIndices numElem).foldlM (fun rows i => do addSourceRows simConf rows (← sources[i]?)) rows

/-- The cells of the region. -/
def InRegion (simConf : SimulationConfig) (y x : ℤ) : Prop :=
  (0 ≤ y ∧ y < simConf.maxY) ∧ 0 ≤ x ∧ x < simConf.maxX

/-- A matrix with `MAX_Y` rows of `MAX_X` cells. -/
def IsRegion (simConf : SimulationConfig) (rows : Rows) : Prop :=
  (rows.length : ℤ) = simConf.maxY ∧ ∀ row ∈ rows, (row.length : ℤ) = simConf.maxX

/-- The rows hold the values of a matrix in the region, and no cell beyond it. -/
def Represents (simConf : SimulationConfig) (rows : Rows) (m : Matrix) : Prop :=
  IsRegion simConf rows ∧ ∀ y x, InRegion simConf y x → rows.read y x = some (m y x)

variable {simConf : SimulationConfig} {rows : Rows} {m : Matrix}

theorem IsRegion.exists_row (h : IsRegion simConf rows) {y : ℤ} (hy : 0 ≤ y ∧ y < simConf.maxY) :
    ∃ row, rows[y.toNat]? = some row ∧ (row.length : ℤ) = simConf.maxX := by
  have hlt : y.toNat < rows.length := by have := h.1; omega
  exact ⟨rows[y.toNat], List.getElem?_eq_getElem hlt, h.2 _ (List.getElem_mem hlt)⟩

theorem IsRegion.exists_read (h : IsRegion simConf rows) {y x : ℤ} (hc : InRegion simConf y x) :
    ∃ level, rows.read y x = some level := by
  obtain ⟨row, hrow, hlen⟩ := h.exists_row hc.1
  obtain ⟨⟨hy, -⟩, hx, hlt⟩ := hc
  have hcol : x.toNat < row.length := by omega
  refine ⟨row[x.toNat], ?_⟩
  rw [Rows.read_eq _ hy hx, hrow]
  exact List.getElem?_eq_getElem hcol

/-- A matrix that some rows represent. -/
theorem IsRegion.represents (h : IsRegion simConf rows) :
    Represents simConf rows fun y x => (rows.read y x).getD 0 := by
  refine ⟨h, fun y x hc => ?_⟩
  obtain ⟨level, hlevel⟩ := h.exists_read hc
  simp only [hlevel, Option.getD_some]

/-- Reading after an assignment inside the region. -/
theorem read_modify (h : IsRegion simConf rows) {y x a b : ℤ} (hc : InRegion simConf y x)
    (hab : InRegion simConf a b) (level : ℤ) :
    Rows.read (rows.modify y.toNat fun row => row.set x.toNat level) a b =
      if a = y ∧ b = x then some level else rows.read a b := by
  obtain ⟨row, hrow, hlen⟩ := h.exists_row hab.1
  obtain ⟨⟨hy, -⟩, hx, hxlt⟩ := hc
  obtain ⟨⟨ha, -⟩, hb, hblt⟩ := hab
  rw [Rows.read_eq _ ha hb, Rows.read_eq _ ha hb, List.getElem?_modify, hrow]
  by_cases hrows : y = a
  · subst hrows
    by_cases hcols : x = b
    · subst hcols
      have hcol : x.toNat < row.length := by omega
      simp [hcol]
    · have hne : x.toNat ≠ b.toNat := by omega
      simp [hne, Ne.symm hcols]
  · have hne : y.toNat ≠ a.toNat := by omega
    simp [hne, Ne.symm hrows]

theorem IsRegion.modify (h : IsRegion simConf rows) (i j : ℕ) (level : ℤ) :
    IsRegion simConf (rows.modify i fun row => row.set j level) := by
  refine ⟨by rw [List.length_modify]; exact h.1, fun row hrow => ?_⟩
  obtain ⟨k, hk⟩ := List.mem_iff_getElem?.mp hrow
  rw [List.getElem?_modify, Option.map_eq_map, Option.map_eq_some_iff] at hk
  obtain ⟨old, hold, rfl⟩ := hk
  have hlen := h.2 old (List.mem_of_getElem? hold)
  split_ifs
  · rw [List.length_set, hlen]
  · exact hlen

/-- An assignment inside the region changes that cell alone. -/
theorem Represents.write (h : Represents simConf rows m) {y x : ℤ} (hc : InRegion simConf y x)
    (level : ℤ) :
    ∃ rows', rows.write y x level = some rows' ∧ Represents simConf rows' (m.set y x level) := by
  refine ⟨_, by rw [Rows.write, h.2 y x hc]; rfl, h.1.modify _ _ _, fun a b hab => ?_⟩
  rw [read_modify h.1 hc hab, Matrix.set_apply, h.2 a b hab]
  split_ifs <;> rfl

/-- One assignment of the loops, inside the region. -/
theorem Represents.addLevel (h : Represents simConf rows m) {y x : ℤ} (hc : InRegion simConf y x)
    (level : ℤ) :
    ∃ rows', Mpi.addLevel level rows y x = some rows' ∧
      Represents simConf rows' (m.set y x (sumNoises (m y x) level)) := by
  obtain ⟨rows', hwrite, hrep⟩ := h.write hc (sumNoises (m y x) level)
  exact ⟨rows', by rw [Mpi.addLevel, h.2 y x hc]; exact hwrite, hrep⟩

/-- A loop over represented matrices whose every iteration succeeds. -/
theorem Represents.foldlM {α : Type*} {f : Rows → α → Option Rows} {g : Matrix → α → Matrix}
    {l : List α} (hstep : ∀ a ∈ l, ∀ rows m, Represents simConf rows m →
      ∃ rows', f rows a = some rows' ∧ Represents simConf rows' (g m a))
    (h : Represents simConf rows m) :
    ∃ rows', l.foldlM f rows = some rows' ∧ Represents simConf rows' (l.foldl g m) := by
  induction l generalizing rows m with
  | nil => exact ⟨rows, rfl, h⟩
  | cons a l ih =>
    obtain ⟨mid, hmid, hrep⟩ := hstep a List.mem_cons_self rows m h
    obtain ⟨rows', hrows', hrep'⟩ := ih (fun b hb => hstep b (List.mem_cons_of_mem a hb)) hrep
    refine ⟨rows', ?_, hrep'⟩
    rw [List.foldlM_cons, hmid]
    exact hrows'

/-- One source on the rows does what it does to the matrix. -/
theorem Represents.addSourceRows (h : Represents simConf rows m) (source : NoiseSource) :
    ∃ rows', Mpi.addSourceRows simConf rows source = some rows' ∧
      Represents simConf rows' (addSource simConf m source) := by
  refine Represents.foldlM (fun y hy rows m hm => ?_) h
  refine Represents.foldlM (g := fun m x => m.set y x (sumNoises (m y x) source.noiseLevel))
    (fun x hx rows m hm => hm.addLevel ?_ _) hm
  rw [mem_loopRange] at hy hx
  unfold InRegion
  omega

/-- The whole loop on the rows does what it does to the matrix. -/
theorem Represents.computeNoiseSqmRows (h : Represents simConf rows m) {sources : List NoiseSource}
    {numElem : ℤ} (hn : numElem ≤ sources.length) :
    ∃ rows', Mpi.computeNoiseSqmRows simConf rows sources numElem = some rows' ∧
      Represents simConf rows' (computeNoiseSqm simConf m sources numElem) := by
  refine Represents.foldlM (fun i hi rows m hm => ?_) h
  have hlt : i < sources.length := by
    have := List.mem_range.mp hi
    omega
  rw [List.getElem?_eq_getElem hlt]
  exact hm.addSourceRows sources[i]

/-- The sources among the processed ones whose square reaches a cell. -/
def covering (sources : List NoiseSource) (numElem y x : ℤ) : List NoiseSource :=
  (sources.take numElem.toNat).filter fun source =>
    |x - source.x| ≤ source.distanceAffected ∧ |y - source.y| ≤ source.distanceAffected

/-- Inside the region these are the sources that cover the cell. -/
theorem covering_eq {y x : ℤ} (hc : InRegion simConf y x) (sources : List NoiseSource)
    (numElem : ℤ) : covering sources numElem y x =
      (sources.take numElem.toNat).filter fun source => Covers simConf source y x := by
  refine List.filter_congr fun source _ => decide_eq_decide.mpr ?_
  unfold Covers
  exact ⟨fun h => ⟨⟨hc.1.1, hc.1.2, h.2⟩, hc.2.1, hc.2.2, h.1⟩, fun h => ⟨h.2.2.2, h.1.2.2⟩⟩

/-- A cell that starts silent is heard when a source is folded into it. -/
theorem foldl_sumNoises_pos {l : List ℤ} (hl : ∀ level ∈ l, 0 < level) :
    0 < l.foldl sumNoises 0 ↔ l ≠ [] := by
  have hnonneg : ∀ level ∈ l, 0 ≤ level := fun level h => (hl level h).le
  rw [foldl_sumNoises hnonneg le_rfl]
  cases l with
  | nil => simp
  | cons level l =>
    have hlevel := hl level List.mem_cons_self
    have hle := mem_le_foldl hnonneg le_rfl (List.mem_cons_self (a := level) (l := l))
    exact iff_of_true (hlevel.trans_le hle) (List.cons_ne_nil _ _)

/-- What `compute_noise_sqm` leaves in every cell of the allocated rows. -/
structure PointwiseLevels (simConf : SimulationConfig) (before : Rows) (sources : List NoiseSource)
    (numElem : ℤ) (after : Rows) : Prop where
  /-- No access of the loops has been beyond the rows. -/
  completed : computeNoiseSqmRows simConf before sources numElem = some after
  region : IsRegion simConf after
  folded : ∀ y x, InRegion simConf y x → ∃ old, before.read y x = some old ∧
    after.read y x = some (((covering sources numElem y x).map NoiseSource.noiseLevel).foldl
      sumNoises old)
  heard : (∀ y x, InRegion simConf y x → before.read y x = some 0) →
    (∀ source ∈ sources.take numElem.toNat, 0 < source.noiseLevel) →
    ∀ y x, InRegion simConf y x → ((∃ level, after.read y x = some level ∧ 0 < level) ↔
      ∃ source ∈ sources.take numElem.toNat, |x - source.x| ≤ source.distanceAffected ∧
        |y - source.y| ≤ source.distanceAffected)

/-- Every cell collects the sources that cover it, and no access leaves the matrix. -/
theorem pointwiseLevels {before : Rows} (hb : IsRegion simConf before) {sources : List NoiseSource}
    {numElem : ℤ} (hn : numElem ≤ sources.length) :
    ∃ after, PointwiseLevels simConf before sources numElem after := by
  obtain ⟨after, hafter, hrep⟩ := hb.represents.computeNoiseSqmRows hn
  have hfold : ∀ y x, InRegion simConf y x → ∃ old, before.read y x = some old ∧
      after.read y x = some (((covering sources numElem y x).map NoiseSource.noiseLevel).foldl
        sumNoises old) := by
    intro y x hc
    obtain ⟨old, hold⟩ := hb.exists_read hc
    refine ⟨old, hold, ?_⟩
    rw [hrep.2 y x hc, computeNoiseSqm_eq, foldl_addSource_apply, covering_eq hc, hold,
      Option.getD_some]
  refine ⟨after, hafter, hrep.1, hfold, fun hzero hpos y x hc => ?_⟩
  obtain ⟨old, hold, hlevel⟩ := hfold y x hc
  obtain rfl : old = 0 := Option.some.inj (hold.symm.trans (hzero y x hc))
  have hlevels :
      ∀ level ∈ (covering sources numElem y x).map NoiseSource.noiseLevel, 0 < level := by
    intro level hl
    obtain ⟨source, hs, rfl⟩ := List.mem_map.mp hl
    exact hpos source (List.mem_of_mem_filter hs)
  have hne : (covering sources numElem y x).map NoiseSource.noiseLevel ≠ [] ↔
      ∃ source ∈ sources.take numElem.toNat, |x - source.x| ≤ source.distanceAffected ∧
        |y - source.y| ≤ source.distanceAffected := by
    rw [Ne, List.map_eq_nil_iff, covering, List.filter_eq_nil_iff]
    simp
  rw [← hne, ← foldl_sumNoises_pos hlevels, hlevel]
  simp

/-- A source on a corner of two rows of three cells, with another one outside. -/
theorem pointwiseLevels_two_by_three :
    ∃ after, PointwiseLevels { shippedConf with maxX := 3, maxY := 2 } [[0, 0, 0], [0, 0, 0]]
      [⟨40, 1, 1, 2, 1⟩, ⟨45, 2, 1, -1, 0⟩] 2 after :=
  pointwiseLevels ⟨by decide, by decide⟩ (by decide)

end NoiseLevel.Mpi
