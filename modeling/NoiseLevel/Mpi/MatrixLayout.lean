import NoiseLevel.Core.OptionLoop
import NoiseLevel.Mpi.PointwiseLevels

/-!
# The layout of a matrix

`init_noise_sqm` allocates one block of row pointers, with a sentinel behind the last one,
and every row by itself. The routines that walk over a matrix take its two dimensions in
different orders. An access beyond the block, beyond the last row or beyond a row has no
result.
-/

namespace NoiseLevel.Mpi

open NoiseLevel.Core

/-- The size of an `int*`. -/
def sizeofPointer : ℤ := 8

/-- A block of row pointers: its bytes, and the row behind each pointer that is not null. -/
structure RowBlock where
  bytes : ℤ
  row : ℤ → Option (List ℤ)

namespace RowBlock

/-- `calloc` of a block of row pointers. -/
def calloc (nmemb size : ℤ) : RowBlock := ⟨nmemb * size, fun _ => none⟩

/-- An assignment to one pointer, which takes its bytes of the block. -/
def store (b : RowBlock) (i : ℤ) (row : Option (List ℤ)) : Option RowBlock :=
  if 0 ≤ i * sizeofPointer ∧ (i + 1) * sizeofPointer ≤ b.bytes then
    some { b with row := Function.update b.row i row }
  else none

end RowBlock

section Routines

variable (simConf : SimulationConfig)

/-- A row of `init_noise_sqm`. -/
def initRow : List ℤ := List.replicate simConf.maxX.toNat 0

/-- `init_noise_sqm`: the rows, and the sentinel behind them. -/
def initRowBlock : Option RowBlock := do
  let block ← (loopRange 0 (simConf.maxY - 1)).foldlM
    (fun block i => block.store i (some (initRow simConf)))
    (RowBlock.calloc simConf.maxY (1 + sizeofPointer))
  block.store simConf.maxY none

/-- The cells that the loops of the shuffle read or send. -/
def shuffleCells (noiseSqm : Rows) : Option (List (List ℤ)) :=
  (loopRange 0 (simConf.maxY - 1)).mapM fun i =>
    (loopRange 0 (simConf.maxX - 1)).mapM fun j => noiseSqm.read i j

/-- The cells that `print_matrix` prints. -/
def printMatrix (matrix : Rows) (row col : ℤ) : Option (List (List ℤ)) :=
  (loopRange 0 (row - 1)).mapM fun i => (loopRange 0 (col - 1)).mapM fun j => matrix.read i j

/-- `reset_matrix` on allocated rows. -/
def resetMatrixRows (mymatrix : Rows) (maxX maxY : ℤ) : Option Rows :=
  (loopRange 0 (maxY - 1)).foldlM (fun mymatrix i =>
    (loopRange 0 (maxX - 1)).foldlM (fun mymatrix j => mymatrix.write i j 0) mymatrix) mymatrix

/-- The rows that `free_matrix` frees. -/
def freeMatrix (matrix : Rows) (sizeY : ℤ) : Option (List (List ℤ)) :=
  (loopRange 0 (sizeY - 1)).mapM fun i => matrix[i.toNat]?

/-- No write of `init_noise_sqm` leaves the block of row pointers, and no routine, with the
arguments that `main` passes, leaves a matrix that it has built. -/
structure LayoutAgrees : Prop where
  init : (initRowBlock simConf).isSome
  shuffle : ∀ rows, IsRegion simConf rows → (shuffleCells simConf rows).isSome
  reset : ∀ rows, IsRegion simConf rows →
    (resetMatrixRows rows simConf.maxX simConf.maxY).isSome
  print : ∀ rows, IsRegion simConf rows → (printMatrix rows simConf.maxX simConf.maxY).isSome
  free : ∀ rows, IsRegion simConf rows → (freeMatrix rows simConf.maxY).isSome

end Routines

variable {simConf : SimulationConfig} {rows : Rows}

theorem RowBlock.store_eq_some {b : RowBlock} {i : ℤ} (hi : 0 ≤ i)
    (hroom : (i + 1) * sizeofPointer ≤ b.bytes) (row : Option (List ℤ)) :
    b.store i row = some { b with row := Function.update b.row i row } :=
  if_pos ⟨mul_nonneg hi (by decide), hroom⟩

/-- Pointers that fit into the block are stored one after the other. -/
theorem RowBlock.foldlM_store {b : RowBlock} {l : List ℤ}
    (h : ∀ i ∈ l, 0 ≤ i ∧ (i + 1) * sizeofPointer ≤ b.bytes) (row : Option (List ℤ)) :
    ∃ b', l.foldlM (fun b i => b.store i row) b = some b' ∧ b'.bytes = b.bytes ∧
      ∀ i, b'.row i = if i ∈ l then row else b.row i := by
  induction l generalizing b with
  | nil => exact ⟨b, rfl, rfl, fun i => by simp⟩
  | cons i l ih =>
    obtain ⟨hi, hroom⟩ := h i List.mem_cons_self
    obtain ⟨b', hfold, hbytes, hrow⟩ := ih (b := { b with row := Function.update b.row i row })
      fun j hj => h j (List.mem_cons_of_mem i hj)
    refine ⟨b', ?_, hbytes, fun j => ?_⟩
    · rw [List.foldlM_cons, RowBlock.store_eq_some hi hroom]
      exact hfold
    · rw [hrow]
      by_cases hj : j = i <;> simp [hj]

/-- The pointers fit into the block, and what is stored behind them is a region of zeros; for the
sentinel the block has one byte for each row. -/
theorem initRowBlock_eq (simConf : SimulationConfig) : ∃ block : RowBlock,
    (∀ i, block.row i = if 0 ≤ i ∧ i < simConf.maxY then some (initRow simConf) else none) ∧
      initRowBlock simConf = if 8 ≤ simConf.maxY then
        some { block with row := Function.update block.row simConf.maxY none } else none := by
  have hbytes : (RowBlock.calloc simConf.maxY (1 + sizeofPointer)).bytes = simConf.maxY * 9 := rfl
  have hsize : sizeofPointer = 8 := rfl
  obtain ⟨block, hfold, hblock, hrow⟩ := RowBlock.foldlM_store
    (b := RowBlock.calloc simConf.maxY (1 + sizeofPointer)) (l := loopRange 0 (simConf.maxY - 1))
    (fun i hi => by rw [mem_loopRange] at hi; rw [hbytes, hsize]; omega)
    (some (initRow simConf))
  refine ⟨block, fun i => ?_, ?_⟩
  · rw [hrow, RowBlock.calloc]
    refine if_congr ?_ rfl rfl
    rw [mem_loopRange]
    omega
  · rw [initRowBlock, hfold]
    refine if_congr ?_ rfl rfl
    rw [hblock, hbytes, hsize]
    omega

/-- A matrix that `init_noise_sqm` has built is a region, with a null pointer behind it. -/
theorem isRegion_initRowBlock (hx : 0 ≤ simConf.maxX) {block : RowBlock}
    (h : initRowBlock simConf = some block) : ∃ rows,
      (loopRange 0 (simConf.maxY - 1)).mapM block.row = some rows ∧ IsRegion simConf rows ∧
        block.row simConf.maxY = none := by
  obtain ⟨filled, hrow, hinit⟩ := initRowBlock_eq simConf
  rw [hinit] at h
  split_ifs at h with hsentinel
  obtain rfl := Option.some.inj h
  have hmap : (loopRange 0 (simConf.maxY - 1)).mapM
      (Function.update filled.row simConf.maxY none) =
        some ((loopRange 0 (simConf.maxY - 1)).map fun _ => initRow simConf) := by
    apply mapM_eq_some
    intro i hi
    rw [mem_loopRange] at hi
    rw [Function.update_of_ne (by omega), hrow, if_pos (by omega)]
  refine ⟨_, hmap, ⟨?_, fun row hmem => ?_⟩, Function.update_self _ _ _⟩
  · rw [List.length_map, loopRange, List.length_map, List.length_range]
    omega
  · obtain ⟨_, -, rfl⟩ := List.mem_map.mp hmem
    rw [initRow, List.length_replicate, Int.toNat_of_nonneg hx]

/-- In a region exactly the cells of the region can be read. -/
theorem IsRegion.isSome_read_iff (h : IsRegion simConf rows) (y x : ℤ) :
    (rows.read y x).isSome ↔ InRegion simConf y x := by
  constructor
  · intro hread
    unfold Rows.read at hread
    split_ifs at hread with hpos
    · obtain ⟨level, hlevel⟩ := Option.isSome_iff_exists.mp hread
      obtain ⟨row, hrow, hcell⟩ := Option.bind_eq_some_iff.mp hlevel
      have hrows := (List.getElem?_eq_some_iff.mp hrow).1
      have hcols := (List.getElem?_eq_some_iff.mp hcell).1
      have hlen := h.2 row (List.mem_of_getElem? hrow)
      have := h.1
      unfold InRegion
      omega
    · cases hread
  · intro hc
    obtain ⟨level, hlevel⟩ := h.exists_read hc
    rw [hlevel]
    rfl

/-- A double loop that reads a region stays inside exactly when all its cells are in it. -/
theorem IsRegion.isSome_reads_iff (h : IsRegion simConf rows) (ys xs : List ℤ) :
    (ys.mapM fun y => xs.mapM fun x => rows.read y x).isSome ↔
      ∀ y ∈ ys, ∀ x ∈ xs, InRegion simConf y x := by
  simp only [isSome_mapM_iff, h.isSome_read_iff]

/-- Clearing a region stays inside and clears its matrix. -/
theorem Represents.resetMatrixRows {m : Matrix} (h : Represents simConf rows m) :
    ∃ rows', Mpi.resetMatrixRows rows simConf.maxX simConf.maxY = some rows' ∧
      Represents simConf rows' (resetMatrix m simConf.maxX simConf.maxY) := by
  refine Represents.foldlM (fun y hy rows m hm => ?_) h
  refine Represents.foldlM (g := fun m x => m.set y x 0) (fun x hx rows m hm => hm.write ?_ 0) hm
  rw [mem_loopRange] at hy hx
  unfold InRegion
  omega

/-- A region that has the given dimensions. -/
theorem exists_isRegion (simConf : SimulationConfig) (hx : 0 ≤ simConf.maxX)
    (hy : 0 ≤ simConf.maxY) : ∃ rows, IsRegion simConf rows := by
  refine ⟨List.replicate simConf.maxY.toNat (initRow simConf), ?_, fun row hrow => ?_⟩
  · rw [List.length_replicate, Int.toNat_of_nonneg hy]
  · rw [List.eq_of_mem_replicate hrow, initRow, List.length_replicate, Int.toNat_of_nonneg hx]

/-- Printing a region stays inside exactly when its two dimensions agree. -/
theorem IsRegion.isSome_printMatrix_iff (h : IsRegion simConf rows) (hx : 1 ≤ simConf.maxX)
    (hy : 1 ≤ simConf.maxY) :
    (printMatrix rows simConf.maxX simConf.maxY).isSome ↔ simConf.maxX = simConf.maxY := by
  rw [printMatrix, h.isSome_reads_iff]
  simp only [mem_loopRange, InRegion]
  constructor
  · intro hall
    have hrow := hall (simConf.maxX - 1) (by omega) 0 (by omega)
    have hcol := hall 0 (by omega) (simConf.maxY - 1) (by omega)
    omega
  · intro heq i hi j hj
    omega

/-- All accesses to the matrices stay inside exactly when the region is a square of at least
eight rows. -/
theorem layoutAgrees_iff (simConf : SimulationConfig) (hx : 1 ≤ simConf.maxX)
    (hy : 1 ≤ simConf.maxY) :
    LayoutAgrees simConf ↔ 8 ≤ simConf.maxY ∧ simConf.maxX = simConf.maxY := by
  obtain ⟨block, -, hinit⟩ := initRowBlock_eq simConf
  have hsentinel : (initRowBlock simConf).isSome ↔ 8 ≤ simConf.maxY := by
    rw [hinit]
    split_ifs with h <;> simp [h]
  obtain ⟨built, hbuilt⟩ := exists_isRegion simConf (by omega) (by omega)
  constructor
  · intro h
    exact ⟨hsentinel.mp h.init, (hbuilt.isSome_printMatrix_iff hx hy).mp (h.print built hbuilt)⟩
  · rintro ⟨hrows, hsquare⟩
    refine ⟨hsentinel.mpr hrows, fun rows h => ?_, fun rows h => ?_, fun rows h => ?_,
      fun rows h => ?_⟩
    · rw [shuffleCells, h.isSome_reads_iff]
      simp only [mem_loopRange, InRegion]
      omega
    · obtain ⟨rows', hreset, -⟩ := h.represents.resetMatrixRows
      rw [hreset]
      rfl
    · exact (h.isSome_printMatrix_iff hx hy).mpr hsquare
    · rw [freeMatrix, isSome_mapM_iff]
      intro i hi
      rw [mem_loopRange] at hi
      obtain ⟨row, hrow, -⟩ := h.exists_row (y := i) (by omega)
      rw [hrow]
      rfl

/-- The shipped region of a hundred times a hundred cells. -/
theorem layoutAgrees_shipped : LayoutAgrees shippedConf :=
  (layoutAgrees_iff shippedConf (by decide) (by decide)).mpr (by decide)

/-- In a region of three rows of two cells the sentinel of `init_noise_sqm` takes the bytes 24
to 31 of 27, and `print_matrix` reads a third cell of the first row. -/
theorem not_layoutAgrees_two_by_three :
    (¬∀ simConf : SimulationConfig, 1 ≤ simConf.maxX → 1 ≤ simConf.maxY →
      LayoutAgrees simConf) ∧
    (initRowBlock { shippedConf with maxX := 2, maxY := 3 }).isSome = false ∧
    (printMatrix [[0, 0], [0, 0], [0, 0]] 2 3).isSome = false := by
  have hinit : (initRowBlock { shippedConf with maxX := 2, maxY := 3 }).isSome = false := by
    decide
  refine ⟨fun hall => ?_, hinit, by decide⟩
  have h := hall { shippedConf with maxX := 2, maxY := 3 } (by decide) (by decide)
  exact Bool.false_ne_true (hinit.symm.trans h.init)

end NoiseLevel.Mpi
