import NoiseLevel.Mpi.Partition
import Mathlib.Data.Set.Function

/-!
# Owners of cells and their slots

The double loop of the shuffle gives cell `(i, j)` to the rank `(i * MAX_X + j) % world_size`,
which stores it in the next slot of its buffer. The slots that are allocated, and the
displacements of the gather, come from the block arrays instead. Both agree.
-/

namespace NoiseLevel.Mpi

open NoiseLevel.Core

/-- The numbers of columns and rows of the region. -/
def SimulationConfig.columns (simConf : SimulationConfig) : ℕ := simConf.maxX.toNat

def SimulationConfig.rows (simConf : SimulationConfig) : ℕ := simConf.maxY.toNat

/-- The rank that collects a cell. -/
def receiver (simConf : SimulationConfig) (worldSize i j : ℕ) : ℕ :=
  (i * simConf.columns + j) % worldSize

/-- `count` and the buffer `my_noises` of one rank, whose slots start unwritten. -/
structure OwnCells where
  count : ℕ
  myNoises : ℕ → Option NoiseData

/-- What one iteration of the double loop stores, given the level collected there. -/
def visitCell (simConf : SimulationConfig) (worldSize rank : ℕ) (level : ℕ → ℕ → ℤ)
    (own : OwnCells) (i j : ℕ) : OwnCells :=
  if receiver simConf worldSize i j = rank then
    ⟨own.count + 1, Function.update own.myNoises own.count (some ⟨level i j, j, i⟩)⟩
  else own

/-- The double loop of one rank. -/
def shuffleLoop (simConf : SimulationConfig) (worldSize rank : ℕ) (level : ℕ → ℕ → ℤ) : OwnCells :=
  (loopIndices simConf.maxY).foldl (fun own i =>
    (loopIndices simConf.maxX).foldl (fun own j =>
      visitCell simConf worldSize rank level own i j) own) ⟨0, fun _ => none⟩

/-- `noises_displs` and `noises_recv_count`. -/
def noisesArrays (simConf : SimulationConfig) (worldSize : ℕ) : BlockArrays :=
  fillCounts ((simConf.maxY * simConf.maxX).tdiv worldSize)
    ((simConf.maxX * simConf.maxY).tmod worldSize) worldSize

/-- `noise_size`: the number of slots allocated by one rank. -/
def noiseSize (simConf : SimulationConfig) (worldSize rank : ℕ) : ℤ :=
  ((noisesArrays simConf worldSize).counts[rank]?).getD 0

/-- `MPI_Gatherv`: the root finds the buffer of each rank at its displacement. -/
def gatherv (arrays : BlockArrays) (buffers : ℕ → ℕ → Option NoiseData) (g : ℕ) :
    Option NoiseData :=
  (List.range arrays.counts.length).findSome? fun rank =>
    let displ : ℤ := (arrays.displs[rank]?).getD 0
    let count : ℤ := (arrays.counts[rank]?).getD 0
    if displ ≤ g ∧ g < displ + count then buffers rank (g - displ).toNat else none

/-- The buffer that the root gathers. -/
def gatherBuffer (simConf : SimulationConfig) (worldSize : ℕ) (level : ℕ → ℕ → ℤ) :
    ℕ → Option NoiseData :=
  gatherv (noisesArrays simConf worldSize) fun rank =>
    (shuffleLoop simConf worldSize rank level).myNoises

/-- The loop of the root that fills `gather_matrix`. -/
def gatherMatrix (simConf : SimulationConfig) (worldSize : ℕ) (level : ℕ → ℕ → ℤ) : Matrix :=
  (loopIndices (simConf.maxX * simConf.maxY)).foldl (fun m g =>
    (gatherBuffer simConf worldSize level g).elim m fun d => m.set d.y d.x d.noiseLevel)
    initNoiseSqm

/-- Row and column of an entry. -/
def NoiseData.cell (d : NoiseData) : ℤ × ℤ := (d.y, d.x)

/-- A double loop visits the cells in the order of their linear index. -/
theorem foldl_cells {α : Type*} (f : α → ℕ → ℕ → α) (a : α) (rows : ℕ) {columns : ℕ}
    (hc : 0 < columns) :
    (List.range rows).foldl (fun a i => (List.range columns).foldl (fun a j => f a i j) a) a =
      (List.range (rows * columns)).foldl (fun a t => f a (t / columns) (t % columns)) a := by
  induction rows with
  | zero => simp
  | succ n ih =>
    rw [List.range_succ, List.foldl_append, ih, Nat.succ_mul, List.range_add, List.foldl_append,
      List.foldl_cons, List.foldl_nil, List.foldl_map]
    refine List.foldl_ext _ _ _ fun b j hj => ?_
    have hj := List.mem_range.mp hj
    rw [Nat.mul_comm n, Nat.mul_add_div hc, Nat.mul_add_mod, Nat.div_eq_of_lt hj,
      Nat.mod_eq_of_lt hj, Nat.add_zero]

/-- The entry stored for a cell, by its linear index. -/
def cellEntry (simConf : SimulationConfig) (level : ℕ → ℕ → ℤ) (t : ℕ) : NoiseData :=
  ⟨level (t / simConf.columns) (t % simConf.columns), (t % simConf.columns : ℕ),
    (t / simConf.columns : ℕ)⟩

/-- The double loop of one rank over the first cells, by linear index. -/
def visitCells (simConf : SimulationConfig) (worldSize rank : ℕ) (level : ℕ → ℕ → ℤ) (n : ℕ) :
    OwnCells :=
  (List.range n).foldl (fun own t => visitCell simConf worldSize rank level own
    (t / simConf.columns) (t % simConf.columns)) ⟨0, fun _ => none⟩

theorem receiver_div_mod (simConf : SimulationConfig) (worldSize t : ℕ) :
    receiver simConf worldSize (t / simConf.columns) (t % simConf.columns) = t % worldSize := by
  rw [receiver, Nat.div_add_mod']

/-- The number of cells that a rank owns among the first `n`. -/
def CountsOwn (worldSize rank n count : ℕ) : Prop := ∀ k, k < count ↔ rank + k * worldSize < n

section CountsOwn

variable {worldSize rank n count : ℕ} (hr : rank < worldSize)
include hr

/-- The next own cell belongs to the next slot. -/
theorem CountsOwn.next_eq (h : CountsOwn worldSize rank n count) (hown : n % worldSize = rank) :
    rank + count * worldSize = n := by
  have hn : rank + n / worldSize * worldSize = n := by rw [← hown, Nat.mod_add_div']
  have hlt : ∀ k, k < count ↔ k < n / worldSize := by
    intro k
    have hmul : k * worldSize < n / worldSize * worldSize ↔ k < n / worldSize :=
      Nat.mul_lt_mul_right (by omega)
    rw [h k, ← hmul]
    omega
  have h1 := hlt (n / worldSize)
  have h2 := hlt count
  rw [show count = n / worldSize by omega, hn]

theorem CountsOwn.lt_succ_iff (h : CountsOwn worldSize rank n count) (hown : n % worldSize = rank)
    (k : ℕ) : rank + k * worldSize < n + 1 ↔ rank + k * worldSize < n ∨ k = count := by
  have hnext := h.next_eq hr hown
  rw [Nat.lt_succ_iff_lt_or_eq]
  refine or_congr_right ⟨fun h => ?_, fun h => by rw [h, hnext]⟩
  exact Nat.eq_of_mul_eq_mul_right (show 0 < worldSize by omega) (by omega)

/-- Passing an own cell counts it. -/
theorem CountsOwn.own (h : CountsOwn worldSize rank n count) (hown : n % worldSize = rank) :
    CountsOwn worldSize rank (n + 1) (count + 1) := by
  intro k
  rw [h.lt_succ_iff hr hown, ← h k]
  exact Nat.lt_succ_iff_lt_or_eq

theorem lt_succ_iff_of_other (hother : n % worldSize ≠ rank) (k : ℕ) :
    rank + k * worldSize < n + 1 ↔ rank + k * worldSize < n := by
  refine ⟨fun h => lt_of_le_of_ne (Nat.lt_succ_iff.mp h) ?_, fun h => h.trans (Nat.lt_succ_self n)⟩
  rintro rfl
  rw [Nat.add_mul_mod_self_right, Nat.mod_eq_of_lt hr] at hother
  exact hother rfl

/-- Passing a cell of another rank counts nothing. -/
theorem CountsOwn.other (h : CountsOwn worldSize rank n count) (hother : n % worldSize ≠ rank) :
    CountsOwn worldSize rank (n + 1) count := fun k => by
  rw [lt_succ_iff_of_other hr hother, h k]

end CountsOwn

/-- After the first `n` cells, a rank has stored its `k`-th cell in slot `k`. -/
theorem visitCells_spec (simConf : SimulationConfig) {worldSize rank : ℕ} (hr : rank < worldSize)
    (level : ℕ → ℕ → ℤ) (n : ℕ) :
    CountsOwn worldSize rank n (visitCells simConf worldSize rank level n).count ∧
      ∀ k, (visitCells simConf worldSize rank level n).myNoises k =
        if rank + k * worldSize < n then some (cellEntry simConf level (rank + k * worldSize))
        else none := by
  induction n with
  | zero => simp [visitCells, CountsOwn]
  | succ n ih =>
    obtain ⟨hcount, hslots⟩ := ih
    have hstep : visitCells simConf worldSize rank level (n + 1) =
        visitCell simConf worldSize rank level (visitCells simConf worldSize rank level n)
          (n / simConf.columns) (n % simConf.columns) := by
      simp only [visitCells, List.range_succ, List.foldl_append, List.foldl_cons, List.foldl_nil]
    rw [hstep, visitCell, receiver_div_mod]
    split
    · next hown =>
      refine ⟨hcount.own hr hown, fun k => ?_⟩
      simp only [Function.update_apply, hslots, hcount.lt_succ_iff hr hown]
      rcases eq_or_ne k (visitCells simConf worldSize rank level n).count with rfl | hk
      · simp [hcount.next_eq hr hown, cellEntry]
      · simp [hk]
    · next hother =>
      refine ⟨hcount.other hr hother, fun k => ?_⟩
      rw [hslots, if_congr (lt_succ_iff_of_other hr hother k) rfl rfl]

/-- The slots that the block arrays give a rank are those of its round-robin cells. -/
theorem lt_blockCount_iff {total worldSize rank : ℕ} (hr : rank < worldSize) (k : ℕ) :
    (k : ℤ) < blockCount ((total : ℤ) / worldSize) ((total : ℤ) % worldSize) rank ↔
      rank + k * worldSize < total := by
  have hmod := Nat.mod_lt total (show 0 < worldSize by omega)
  have hsplit := Nat.div_add_mod' total worldSize
  have hcount : blockCount ((total : ℤ) / worldSize) ((total : ℤ) % worldSize) rank =
      ((total / worldSize + if rank < total % worldSize then 1 else 0 : ℕ) : ℤ) := by
    unfold blockCount
    push_cast
    split <;> split <;> omega
  rw [hcount, Int.ofNat_lt]
  rcases lt_trichotomy k (total / worldSize) with hk | rfl | hk
  · have := Nat.mul_le_mul_right worldSize (show k + 1 ≤ total / worldSize from hk)
    rw [Nat.add_mul, Nat.one_mul] at this
    exact iff_of_true (by omega) (by omega)
  · split <;> omega
  · have := Nat.mul_le_mul_right worldSize (show total / worldSize + 1 ≤ k from hk)
    rw [Nat.add_mul, Nat.one_mul] at this
    exact iff_of_false (by split <;> omega) (by omega)

/-- Exactly one of the first numbers gives a value, so the search returns it. -/
theorem findSome?_range {α : Type*} {f : ℕ → Option α} {n r : ℕ} (hr : r < n)
    (hother : ∀ k < n, k ≠ r → f k = none) : (List.range n).findSome? f = f r := by
  induction n with
  | zero => omega
  | succ n ih =>
    rw [List.range_succ, List.findSome?_append]
    rcases Nat.lt_succ_iff_lt_or_eq.mp hr with hlt | rfl
    · rw [ih hlt fun k hk => hother k (by omega)]
      simp [hother n (by omega) (by omega)]
    · rw [List.findSome?_eq_none_iff.mpr fun k hk =>
        hother k (by have := List.mem_range.mp hk; omega) (by have := List.mem_range.mp hk; omega)]
      simp

section Region

variable {simConf : SimulationConfig} {worldSize : ℕ} (hx : 0 < simConf.maxX)
  (hy : 0 < simConf.maxY) (hw : 0 < worldSize) (level : ℕ → ℕ → ℤ)
include hx hy

theorem cells_eq : simConf.maxX * simConf.maxY = ((simConf.rows * simConf.columns : ℕ) : ℤ) := by
  rw [SimulationConfig.rows, SimulationConfig.columns, Nat.cast_mul, Int.toNat_of_nonneg hx.le,
    Int.toNat_of_nonneg hy.le, mul_comm]

theorem noisesArrays_eq : noisesArrays simConf worldSize =
    fillCounts (((simConf.rows * simConf.columns : ℕ) : ℤ) / worldSize)
      (((simConf.rows * simConf.columns : ℕ) : ℤ) % worldSize) worldSize := by
  rw [noisesArrays, mul_comm simConf.maxY, cells_eq hx hy,
    Int.tdiv_eq_ediv_of_nonneg (Int.natCast_nonneg _),
    Int.tmod_eq_emod_of_nonneg (Int.natCast_nonneg _)]

omit hy in
theorem shuffleLoop_eq (rank : ℕ) : shuffleLoop simConf worldSize rank level =
    visitCells simConf worldSize rank level (simConf.rows * simConf.columns) :=
  foldl_cells (visitCell simConf worldSize rank level) _ _ (by omega)

theorem tiles_noises (hw : 0 < worldSize) : Tiles 0
    ((noisesArrays simConf worldSize).displs.zip (noisesArrays simConf worldSize).counts)
    (simConf.maxX * simConf.maxY) := by
  have hdiv := Int.ediv_nonneg (Int.natCast_nonneg (simConf.rows * simConf.columns))
    (Int.natCast_nonneg worldSize)
  have hmod := Int.emod_nonneg ((simConf.rows * simConf.columns : ℕ) : ℤ) (b := worldSize)
    (by omega)
  have h := tiles_fillCounts hdiv hmod worldSize
  rw [blockDispl_div_mod hw] at h
  rwa [noisesArrays_eq hx hy, cells_eq hx hy]

theorem noiseSize_eq {rank : ℕ} (hr : rank < worldSize) : noiseSize simConf worldSize rank =
    blockCount (((simConf.rows * simConf.columns : ℕ) : ℤ) / worldSize)
      (((simConf.rows * simConf.columns : ℕ) : ℤ) % worldSize) rank := by
  rw [noiseSize, noisesArrays_eq hx hy, fillCounts_eq (Int.emod_nonneg _ (by omega))]
  simp [hr]

/-- The slots of a rank, by the cells they hold. -/
theorem lt_noiseSize_iff {rank : ℕ} (hr : rank < worldSize) (k : ℕ) :
    (k : ℤ) < noiseSize simConf worldSize rank ↔
      rank + k * worldSize < simConf.rows * simConf.columns := by
  rw [noiseSize_eq hx hy hr, lt_blockCount_iff hr]

theorem myNoises_eq {rank : ℕ} (hr : rank < worldSize) (k : ℕ) :
    (shuffleLoop simConf worldSize rank level).myNoises k =
      if (k : ℤ) < noiseSize simConf worldSize rank then
        some (cellEntry simConf level (rank + k * worldSize)) else none := by
  rw [shuffleLoop_eq hx, (visitCells_spec simConf hr level _).2]
  exact if_congr (lt_noiseSize_iff hx hy hr k).symm rfl rfl

theorem count_shuffleLoop {rank : ℕ} (hr : rank < worldSize) :
    ((shuffleLoop simConf worldSize rank level).count : ℤ) = noiseSize simConf worldSize rank := by
  have hlt : ∀ k : ℕ, k < (shuffleLoop simConf worldSize rank level).count ↔
      (k : ℤ) < noiseSize simConf worldSize rank := by
    intro k
    rw [shuffleLoop_eq hx, (visitCells_spec simConf hr level _).1, lt_noiseSize_iff hx hy hr]
  have hnonneg : 0 ≤ noiseSize simConf worldSize rank := by
    have hdiv := Int.ediv_nonneg (Int.natCast_nonneg (simConf.rows * simConf.columns))
      (Int.natCast_nonneg worldSize)
    rw [noiseSize_eq hx hy hr, blockCount]
    split <;> omega
  have h1 := hlt (shuffleLoop simConf worldSize rank level).count
  have h2 := hlt (noiseSize simConf worldSize rank).toNat
  omega

/-- Row and column of the cell stored in a slot. -/
theorem storedCell_eq {rank k : ℕ} (hr : rank < worldSize)
    (hk : (k : ℤ) < noiseSize simConf worldSize rank) :
    ((shuffleLoop simConf worldSize rank level).myNoises k).map NoiseData.cell =
      some ((((rank + k * worldSize) / simConf.columns : ℕ) : ℤ),
        (((rank + k * worldSize) % simConf.columns : ℕ) : ℤ)) := by
  rw [myNoises_eq hx hy level hr, if_pos hk]
  rfl

/-- The slots of all ranks. -/
def slotSet (simConf : SimulationConfig) (worldSize : ℕ) : Set (ℕ × ℕ) :=
  {h | h.1 < worldSize ∧ (h.2 : ℤ) < noiseSize simConf worldSize h.1}

/-- Row and column of every cell of the region. -/
def regionSet (simConf : SimulationConfig) : Set (ℤ × ℤ) :=
  {c | (0 ≤ c.1 ∧ c.1 < simConf.maxY) ∧ 0 ≤ c.2 ∧ c.2 < simConf.maxX}

/-- The cell stored in a slot, if it was written. -/
def storedCell (simConf : SimulationConfig) (worldSize : ℕ) (level : ℕ → ℕ → ℤ) (h : ℕ × ℕ) :
    Option (ℤ × ℤ) :=
  ((shuffleLoop simConf worldSize h.1 level).myNoises h.2).map NoiseData.cell

theorem storedCell_mapsTo : Set.MapsTo (storedCell simConf worldSize level)
    (slotSet simConf worldSize) (some '' regionSet simConf) := by
  rintro ⟨rank, k⟩ ⟨hr, hk⟩
  refine ⟨_, ?_, (storedCell_eq hx hy level hr hk).symm⟩
  have hlt := (lt_noiseSize_iff hx hy hr k).mp hk
  have hc : 0 < simConf.columns := by
    unfold SimulationConfig.columns
    omega
  have hrow : (rank + k * worldSize) / simConf.columns < simConf.rows :=
    Nat.div_lt_of_lt_mul (by rw [mul_comm simConf.columns]; exact hlt)
  have hcol := Nat.mod_lt (rank + k * worldSize) hc
  refine ⟨⟨Int.natCast_nonneg _, ?_⟩, Int.natCast_nonneg _, ?_⟩
  · simpa only [SimulationConfig.rows, Int.lt_toNat] using hrow
  · simpa only [SimulationConfig.columns, Int.lt_toNat] using hcol

theorem storedCell_injOn : Set.InjOn (storedCell simConf worldSize level)
    (slotSet simConf worldSize) := by
  rintro ⟨rank, k⟩ ⟨hr, hk⟩ ⟨rank', k'⟩ ⟨hr', hk'⟩ h
  simp only at hr hk hr' hk'
  unfold storedCell at h
  rw [storedCell_eq hx hy level hr hk, storedCell_eq hx hy level hr' hk', Option.some_inj,
    Prod.mk.injEq, Int.natCast_inj, Int.natCast_inj] at h
  have hsum : rank + k * worldSize = rank' + k' * worldSize := by
    rw [← Nat.div_add_mod' (rank + k * worldSize) simConf.columns, h.1, h.2, Nat.div_add_mod']
  have hmod := congrArg (· % worldSize) hsum
  simp only [Nat.add_mul_mod_self_right, Nat.mod_eq_of_lt hr, Nat.mod_eq_of_lt hr'] at hmod
  subst hmod
  rw [Nat.eq_of_mul_eq_mul_right (show 0 < worldSize by omega) (Nat.add_left_cancel hsum)]

theorem storedCell_surjOn (hw : 0 < worldSize) : Set.SurjOn (storedCell simConf worldSize level)
    (slotSet simConf worldSize) (some '' regionSet simConf) := by
  rintro _ ⟨⟨y, x⟩, ⟨⟨hy0, hy1⟩, hx0, hx1⟩, rfl⟩
  simp only at hy0 hy1 hx0 hx1
  lift y to ℕ using hy0
  lift x to ℕ using hx0
  have hcol : x < simConf.columns := by
    unfold SimulationConfig.columns
    omega
  have hrow : y < simConf.rows := by
    unfold SimulationConfig.rows
    omega
  have hlt : y * simConf.columns + x < simConf.rows * simConf.columns := by
    have := Nat.mul_le_mul_right simConf.columns (show y + 1 ≤ simConf.rows from hrow)
    rw [Nat.add_mul, Nat.one_mul] at this
    omega
  have hindex : (y * simConf.columns + x) % worldSize +
      (y * simConf.columns + x) / worldSize * worldSize = y * simConf.columns + x :=
    Nat.mod_add_div' _ _
  have hr := Nat.mod_lt (y * simConf.columns + x) hw
  have hk := (lt_noiseSize_iff hx hy hr _).mpr (by rw [hindex]; exact hlt)
  refine ⟨(_, (y * simConf.columns + x) / worldSize), ⟨hr, hk⟩, ?_⟩
  refine (storedCell_eq hx hy level hr hk).trans ?_
  have hc : 0 < simConf.columns := by omega
  rw [hindex, mul_comm y, Nat.mul_add_div hc, Nat.mul_add_mod, Nat.div_eq_of_lt hcol,
    Nat.mod_eq_of_lt hcol, Nat.add_zero]

/-- Every slot of every rank holds a cell of its own, and every cell has a slot. -/
theorem storedCell_bijOn (hw : 0 < worldSize) : Set.BijOn (storedCell simConf worldSize level)
    (slotSet simConf worldSize) (some '' regionSet simConf) :=
  ⟨storedCell_mapsTo hx hy level, storedCell_injOn hx hy level, storedCell_surjOn hx hy level hw⟩


/-- Where the slots of a rank are gathered. -/
def noisesDispl (simConf : SimulationConfig) (worldSize rank : ℕ) : ℤ :=
  ((noisesArrays simConf worldSize).displs[rank]?).getD 0

theorem noisesBlock_iff (rank : ℕ) (block : ℤ × ℤ) :
    ((noisesArrays simConf worldSize).displs.zip (noisesArrays simConf worldSize).counts)[rank]? =
      some block ↔
    rank < worldSize ∧
      block = (noisesDispl simConf worldSize rank, noiseSize simConf worldSize rank) := by
  rw [noisesDispl, noiseSize, noisesArrays_eq hx hy]
  rcases lt_or_ge rank worldSize with hr | hr
  · rw [fillCounts_eq (Int.emod_nonneg _ (by omega)), List.zip_map', List.getElem?_map]
    simp [hr, eq_comm]
  · rw [List.getElem?_eq_none]
    · simp [not_lt.mpr hr]
    · rcases Nat.eq_zero_or_pos worldSize with rfl | hw
      · simp [fillCounts]
      · rw [fillCounts_eq (Int.emod_nonneg _ (by omega))]
        simp [hr]

/-- The gathered buffer holds the slots of each rank at its displacement. -/
theorem gatherBuffer_eq {rank g : ℕ} (hr : rank < worldSize)
    (hg : InBlock (noisesDispl simConf worldSize rank, noiseSize simConf worldSize rank) g) :
    gatherBuffer simConf worldSize level g = (shuffleLoop simConf worldSize rank level).myNoises
      (g - noisesDispl simConf worldSize rank).toNat := by
  have hw : 0 < worldSize := by omega
  have htiles := tiles_noises hx hy hw
  have hblock := (noisesBlock_iff hx hy rank _).mpr ⟨hr, rfl⟩
  obtain ⟨hlo, hhi, _⟩ := htiles.bounds hblock
  obtain ⟨i, _, huniq⟩ := htiles.existsUnique (Int.natCast_nonneg g)
    (lt_of_lt_of_le hg.2 hhi)
  have hlen : (noisesArrays simConf worldSize).counts.length = worldSize := by
    rw [noisesArrays_eq hx hy, fillCounts_eq (Int.emod_nonneg _ (by omega))]
    simp
  rw [gatherBuffer, gatherv, hlen, findSome?_range hr]
  · exact if_pos hg
  · intro k hk hkr
    refine if_neg fun hin => hkr ?_
    exact (huniq k ⟨_, (noisesBlock_iff hx hy k _).mpr ⟨hk, rfl⟩, hin⟩).trans
      (huniq rank ⟨_, hblock, hg⟩).symm

/-- The gathered buffer holds every cell exactly once. -/
theorem gathered_once (hw : 0 < worldSize) {c : ℤ × ℤ} (hc : c ∈ regionSet simConf) :
    ∃! g : ℕ, (g : ℤ) < simConf.maxX * simConf.maxY ∧
      (gatherBuffer simConf worldSize level g).map NoiseData.cell = some c := by
  obtain ⟨⟨rank, k⟩, ⟨hr, hk⟩, hcell⟩ := storedCell_surjOn hx hy level hw ⟨c, hc, rfl⟩
  simp only at hr hk
  have htiles := tiles_noises hx hy hw
  obtain ⟨hlo, hhi, _⟩ := htiles.bounds ((noisesBlock_iff hx hy rank _).mpr ⟨hr, rfl⟩)
  simp only at hlo hhi
  have hg : (((noisesDispl simConf worldSize rank).toNat + k : ℕ) : ℤ) =
      noisesDispl simConf worldSize rank + k := by omega
  refine ⟨(noisesDispl simConf worldSize rank).toNat + k, ⟨by omega, ?_⟩, ?_⟩
  · rw [gatherBuffer_eq hx hy level hr ⟨by simp only; omega, by simp only; omega⟩, hg,
      add_sub_cancel_left, Int.toNat_natCast]
    exact hcell
  · rintro g' ⟨hg', hcell'⟩
    obtain ⟨rank', ⟨block, hb, hin⟩, _⟩ := htiles.existsUnique (Int.natCast_nonneg g') hg'
    obtain ⟨hr', rfl⟩ := (noisesBlock_iff hx hy rank' block).mp hb
    rw [gatherBuffer_eq hx hy level hr' hin] at hcell'
    obtain ⟨hlow, hhigh⟩ := hin
    simp only at hlow hhigh
    have hsame := storedCell_injOn hx hy level
      (show (rank', (g' - noisesDispl simConf worldSize rank').toNat) ∈
        slotSet simConf worldSize from ⟨hr', by simp only; omega⟩) ⟨hr, hk⟩ (hcell'.trans hcell.symm)
    obtain ⟨rfl, hk'⟩ := Prod.mk.inj hsame
    omega


omit hx hy in
/-- Assignments that agree on the level of a cell leave that level there. -/
theorem foldl_set_eq {entries : ℕ → Option NoiseData} {y x value : ℤ} {l : List ℕ} {m : Matrix}
    (hvalue : ∀ g ∈ l, ∀ d, entries g = some d → d.cell = (y, x) → d.noiseLevel = value)
    (hcell : m y x = value ∨ ∃ g ∈ l, (entries g).map NoiseData.cell = some (y, x)) :
    l.foldl (fun m g => (entries g).elim m fun d => m.set d.y d.x d.noiseLevel) m y x = value := by
  induction l generalizing m with
  | nil => simpa using hcell
  | cons g l ih =>
    refine ih (fun k hk => hvalue k (List.mem_cons_of_mem g hk)) ?_
    beta_reduce
    cases hd : entries g with
    | none =>
      rw [Option.elim_none]
      rcases hcell with hm | ⟨k, hk, hkc⟩
      · exact Or.inl hm
      · rcases List.mem_cons.mp hk with rfl | hk
        · rw [hd] at hkc
          cases hkc
        · exact Or.inr ⟨k, hk, hkc⟩
    | some d =>
      rcases eq_or_ne d.cell (y, x) with hc | hc
      · left
        obtain ⟨hy, hx⟩ := Prod.mk.inj hc
        rw [Option.elim_some, Matrix.set_apply, if_pos ⟨hy.symm, hx.symm⟩]
        exact hvalue g List.mem_cons_self d hd hc
      · have hne : ¬(y = d.y ∧ x = d.x) := fun h => hc (Prod.ext h.1.symm h.2.symm)
        rw [Option.elim_some, Matrix.set_apply, if_neg hne]
        rcases hcell with hm | ⟨k, hk, hkc⟩
        · exact Or.inl hm
        · rcases List.mem_cons.mp hk with rfl | hk
          · rw [hd] at hkc
            exact absurd (Option.some.inj hkc) hc
          · exact Or.inr ⟨k, hk, hkc⟩

/-- The gathered matrix shows the level that was collected for each cell. -/
theorem gatherMatrix_apply (hw : 0 < worldSize) {i j : ℕ} (hi : i < simConf.rows)
    (hj : j < simConf.columns) : gatherMatrix simConf worldSize level i j = level i j := by
  have hregion : ((i : ℤ), (j : ℤ)) ∈ regionSet simConf := by
    rw [SimulationConfig.rows, Int.lt_toNat] at hi
    rw [SimulationConfig.columns, Int.lt_toNat] at hj
    exact ⟨⟨Int.natCast_nonneg i, hi⟩, Int.natCast_nonneg j, hj⟩
  obtain ⟨g, ⟨hg, hcell⟩, _⟩ := gathered_once hx hy level hw hregion
  refine foldl_set_eq ?_ (Or.inr ⟨g, List.mem_range.mpr (by omega), hcell⟩)
  intro g' hg' d hd hdc
  have hg' : (g' : ℤ) < simConf.maxX * simConf.maxY := by
    have := List.mem_range.mp hg'
    omega
  obtain ⟨rank, ⟨block, hb, hin⟩, _⟩ :=
    (tiles_noises hx hy hw).existsUnique (Int.natCast_nonneg g') hg'
  obtain ⟨hr, rfl⟩ := (noisesBlock_iff hx hy rank block).mp hb
  rw [gatherBuffer_eq hx hy level hr hin, myNoises_eq hx hy level hr] at hd
  split at hd
  · cases hd
    obtain ⟨hrow, hcol⟩ := Prod.mk.inj hdc
    simp only [cellEntry, Int.natCast_inj] at hrow hcol
    rw [cellEntry, hrow, hcol]
  · cases hd

omit hx hy in
/-- `count` is the number of cells that the rank receives. -/
theorem count_eq_length_filter (rank : ℕ) : (shuffleLoop simConf worldSize rank level).count =
    ((List.range simConf.rows ×ˢ List.range simConf.columns).filter fun c =>
      receiver simConf worldSize c.1 c.2 = rank).length := by
  have hcount : ∀ (cells : List (ℕ × ℕ)) (own : OwnCells),
      (cells.foldl (fun own c => visitCell simConf worldSize rank level own c.1 c.2) own).count =
        own.count + (cells.filter fun c => receiver simConf worldSize c.1 c.2 = rank).length := by
    intro cells
    induction cells with
    | nil => exact fun _ => rfl
    | cons c cells ih =>
      intro own
      rw [List.foldl_cons, ih, visitCell]
      by_cases h : receiver simConf worldSize c.1 c.2 = rank
      · simp only [if_pos h, List.filter_cons, decide_eq_true h, ite_true, List.length_cons]
        omega
      · simp [h]
  have hcells := hcount (List.range simConf.rows ×ˢ List.range simConf.columns) ⟨0, fun _ => none⟩
  rw [Nat.zero_add] at hcells
  rw [← hcells]
  simp only [SProd.sprod, List.product, List.foldl_flatMap, List.foldl_map]
  rfl


end Region

/-- The allocated slots, the cells a rank owns and the gathered buffer agree. -/
structure CellOwnership (simConf : SimulationConfig) (worldSize : ℕ) (level : ℕ → ℕ → ℤ) :
    Prop where
  /-- One block for each rank, contiguous over all cells. -/
  tiled : Tiles 0
    ((noisesArrays simConf worldSize).displs.zip (noisesArrays simConf worldSize).counts)
    (simConf.maxX * simConf.maxY)
  length_displs : (noisesArrays simConf worldSize).displs.length = worldSize
  length_counts : (noisesArrays simConf worldSize).counts.length = worldSize
  balanced : ∀ a ∈ (noisesArrays simConf worldSize).counts,
    ∀ b ∈ (noisesArrays simConf worldSize).counts, a ≤ b + 1
  /-- The cells that a rank receives are as many as its slots. -/
  owned : ∀ rank < worldSize,
    (((List.range simConf.rows ×ˢ List.range simConf.columns).filter fun c =>
      receiver simConf worldSize c.1 c.2 = rank).length : ℤ) = noiseSize simConf worldSize rank
  /-- `count` ends at the number of slots, and exactly the slots below it are written. -/
  counted : ∀ rank < worldSize,
    ((shuffleLoop simConf worldSize rank level).count : ℤ) = noiseSize simConf worldSize rank
  written : ∀ rank < worldSize, ∀ k : ℕ,
    ((shuffleLoop simConf worldSize rank level).myNoises k).isSome ↔
      (k : ℤ) < noiseSize simConf worldSize rank
  stored : Set.BijOn (storedCell simConf worldSize level) (slotSet simConf worldSize)
    (some '' regionSet simConf)
  gathered : ∀ c ∈ regionSet simConf, ∃! g : ℕ, (g : ℤ) < simConf.maxX * simConf.maxY ∧
    (gatherBuffer simConf worldSize level g).map NoiseData.cell = some c
  assigned : ∀ i < simConf.rows, ∀ j < simConf.columns,
    gatherMatrix simConf worldSize level i j = level i j

/-- Ownership agrees with allocation for every region and every number of ranks. -/
theorem cellOwnership {simConf : SimulationConfig} {worldSize : ℕ} (hx : 1 ≤ simConf.maxX)
    (hy : 1 ≤ simConf.maxY) (hw : 1 ≤ worldSize) (level : ℕ → ℕ → ℤ) :
    CellOwnership simConf worldSize level := by
  have hmod := Int.emod_nonneg ((simConf.rows * simConf.columns : ℕ) : ℤ) (b := worldSize)
    (by omega)
  constructor
  · exact tiles_noises hx hy hw
  · rw [noisesArrays_eq hx hy, fillCounts_eq hmod, List.length_map, List.length_range]
  · rw [noisesArrays_eq hx hy, fillCounts_eq hmod, List.length_map, List.length_range]
  · intro a ha b hb
    simp only [noisesArrays_eq hx hy, fillCounts_eq hmod, List.mem_map] at ha hb
    obtain ⟨_, _, rfl⟩ := ha
    obtain ⟨_, _, rfl⟩ := hb
    unfold blockCount
    split <;> split <;> omega
  · intro rank hr
    rw [← count_eq_length_filter level, count_shuffleLoop hx hy level hr]
  · exact fun rank hr => count_shuffleLoop hx hy level hr
  · intro rank hr k
    rw [myNoises_eq hx hy level hr]
    split <;> simp_all
  · exact storedCell_bijOn hx hy level hw
  · exact fun c hc => gathered_once hx hy level hw hc
  · exact fun i hi j hj => gatherMatrix_apply hx hy level hw hi hj

/-- Four ranks share the six cells of a region of two rows and three columns. -/
theorem cellOwnership_two_by_three :
    CellOwnership { shippedConf with maxX := 3, maxY := 2 } 4 (fun i j => 10 * i + j) :=
  cellOwnership (by decide) (by decide) (by decide) _

end NoiseLevel.Mpi
