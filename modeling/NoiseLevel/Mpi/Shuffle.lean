import NoiseLevel.Core.ExchangeSchedule
import NoiseLevel.Mpi.Ownership

/-!
# The loop of `main` on all ranks

Every rank computes its matrix, walks over the cells, publishes, moves its sources and
clears the matrix. A rank that owns a cell receives from any source, the others send
their entry of the matrix to the owner and go on. Messages between two ranks are matched
in order. A message names the buffer it was posted from, which the MPI library may read
at the call (a buffered send) or at any moment until the matching receive.
-/

namespace NoiseLevel.Mpi

open NoiseLevel.Core

/-- The number of ranks, the configuration, and the values drawn for the sources. -/
structure World where
  simConf : SimulationConfig
  worldSize : ℕ
  rand : ℕ → ℕ
  worldSize_pos : 1 ≤ worldSize
  maxX_pos : 1 ≤ simConf.maxX
  maxY_pos : 1 ≤ simConf.maxY

/-- Where a rank stands in the loop: before `compute_noise_sqm`, at a cell of the double
loop, inside the receive loop of an own cell, and before each of the last three calls. -/
inductive Pc where
  | compute
  | cell (i j : ℕ)
  | recv (i j p : ℕ)
  | publish
  | move
  | reset
  deriving DecidableEq

/-- A posted send: the cycle and the cell it was posted for, and the value once the
library has read the buffer. -/
structure Message where
  cycle : ℕ
  i : ℕ
  j : ℕ
  buffered : Option ℤ
  deriving DecidableEq

/-- The variables of one rank. The number of finished cycles and the matrices that
`compute_noise_sqm` left are recorded for the statements only. -/
structure Rank where
  pc : Pc
  cycle : ℕ
  localArr : List NoiseSource
  noiseSqm : Matrix
  computed : ℕ → Matrix
  count : ℕ
  myNoises : ℕ → Option NoiseData

/-- All ranks and the pending messages, oldest first, by sender and receiver. -/
structure State where
  rank : ℕ → Rank
  chan : ℕ → ℕ → List Message

/-- When the library reads the buffer of a send. -/
inductive SendMode where
  | buffered
  | nonblocking
  deriving DecidableEq

/-- Steps of the ranks, and the library reading the buffer of a pending send. A receive
names the sender, the cycle and cell of the receiver, the message and its value. -/
inductive Action where
  | compute (r : ℕ)
  | send (r i j : ℕ)
  | own (r i j : ℕ)
  | recv (r s cycle i j : ℕ) (m : Message) (v : ℤ)
  | done (r i j : ℕ)
  | publish (r : ℕ)
  | move (r : ℕ) (draws : ℕ → ℕ)
  | reset (r : ℕ)
  | copy (s d n : ℕ)

/-- The rank that takes a step, if one does. -/
def Action.actor : Action → Option ℕ
  | .compute r | .send r _ _ | .own r _ _ | .recv r _ _ _ _ _ _ | .done r _ _ | .publish r
  | .move r _ | .reset r => some r
  | .copy _ _ _ => none

namespace World

variable (w : World)

/-- The number of columns of the region. -/
def columns : ℕ := w.simConf.columns

/-- The number of rows of the region. -/
def rows : ℕ := w.simConf.rows

/-- The number of cells of the region. -/
def cells : ℕ := w.rows * w.columns

/-- The owner of a cell. -/
def receiver (i j : ℕ) : ℕ := Mpi.receiver w.simConf w.worldSize i j

/-- The next iteration of the double loop. -/
def afterCell (i j : ℕ) : Pc :=
  if j + 1 < w.columns then .cell i (j + 1)
  else if i + 1 < w.rows then .cell (i + 1) 0
  else .publish

end World

/-- The value that the buffer of a message holds now. -/
def State.value (st : State) (s : ℕ) (m : Message) : ℤ :=
  m.buffered.getD ((st.rank s).noiseSqm m.i m.j)

namespace Rank

variable (w : World) (k : Rank)

/-- The call of `compute_noise_sqm`. -/
noncomputable def compute : Rank :=
  let noiseSqm := computeNoiseSqm w.simConf k.noiseSqm k.localArr
    (numElemPerProc w.simConf w.worldSize)
  { k with pc := .cell 0 0, noiseSqm, computed := Function.update k.computed k.cycle noiseSqm,
           count := 0 }

/-- `MPI_Isend` of the entry of a cell. -/
def sent (i j : ℕ) : Rank := { k with pc := w.afterCell i j }

/-- The own level of an own cell is stored. -/
def own (i j : ℕ) : Rank :=
  { k with
    pc := .recv i j 0
    myNoises := Function.update k.myNoises k.count (some ⟨k.noiseSqm i j, j, i⟩) }

/-- One iteration of the receive loop. -/
noncomputable def received (i j : ℕ) (v : ℤ) : Rank :=
  { k with
    pc := match k.pc with
      | .recv _ _ p => .recv i j (p + 1)
      | pc => pc
    myNoises := Function.update k.myNoises k.count ((k.myNoises k.count).map fun d =>
      { d with noiseLevel := sumNoises d.noiseLevel v }) }

/-- All levels of an own cell have been received. -/
def done (i j : ℕ) : Rank := { k with pc := w.afterCell i j, count := k.count + 1 }

/-- The call of `publish_data`. -/
def publish : Rank := { k with pc := .move }

/-- The call of `move_noise_sources`. -/
def move (draws : ℕ → ℕ) : Rank :=
  { k with
    pc := .reset
    localArr := moveNoiseSources w.simConf draws k.localArr
      (numElemPerProc w.simConf w.worldSize) }

/-- The call of `reset_matrix`. -/
def reset : Rank :=
  { k with
    pc := .compute
    cycle := k.cycle + 1
    noiseSqm := resetMatrix k.noiseSqm w.simConf.maxX w.simConf.maxY }

end Rank

namespace State

/-- One rank has taken a step. -/
def setRank (st : State) (r : ℕ) (k : Rank) : State :=
  { st with rank := Function.update st.rank r k }

/-- The library reads the buffer of a pending message. -/
def copy (st : State) (s d n : ℕ) : State :=
  { st with
    chan := fun a b => if a = s ∧ b = d then
      (st.chan a b).modify n fun m => { m with buffered := some (st.value s m) } else st.chan a b }

/-- Copying changes nothing of a message but its buffered value. -/
theorem mem_copy {st : State} {s d n a b : ℕ} {m : Message} (h : m ∈ (st.copy s d n).chan a b) :
    m ∈ st.chan a b ∨
      ∃ m' ∈ st.chan a b, m = { m' with buffered := some (st.value a m') } := by
  simp only [copy] at h
  split at h
  · next hab =>
    obtain ⟨rfl, rfl⟩ := hab
    obtain ⟨l, hl⟩ := List.mem_iff_getElem?.mp h
    rw [List.getElem?_modify] at hl
    obtain ⟨m', hm', rfl⟩ := Option.map_eq_some_iff.mp hl
    have hmem := List.mem_of_getElem? hm'
    split
    · exact Or.inr ⟨m', hmem, rfl⟩
    · exact Or.inl hmem
  · exact Or.inl h

end State

namespace World

variable (w : World) (mode : SendMode)

/-- When a step is possible. Only a receive waits. -/
def Enabled (st : State) : Action → Prop
  | .compute r => r < w.worldSize ∧ (st.rank r).pc = .compute
  | .send r i j => r < w.worldSize ∧ (st.rank r).pc = .cell i j ∧ w.receiver i j ≠ r
  | .own r i j => r < w.worldSize ∧ (st.rank r).pc = .cell i j ∧ w.receiver i j = r
  | .recv r s cycle i j m v => r < w.worldSize ∧ s < w.worldSize ∧ (st.rank r).cycle = cycle ∧
      (∃ p, (st.rank r).pc = .recv i j p ∧ p + 1 < w.worldSize) ∧
      (st.chan s r).head? = some m ∧ v = st.value s m
  | .done r i j => r < w.worldSize ∧ ∃ p, (st.rank r).pc = .recv i j p ∧ ¬p + 1 < w.worldSize
  | .publish r => r < w.worldSize ∧ (st.rank r).pc = .publish
  | .move r _ => r < w.worldSize ∧ (st.rank r).pc = .move
  | .reset r => r < w.worldSize ∧ (st.rank r).pc = .reset
  | .copy s d n => mode = .nonblocking ∧ s < w.worldSize ∧ d < w.worldSize ∧
      ∃ m, (st.chan s d)[n]? = some m ∧ m.buffered = none

/-- The message that a send posts. -/
def posted (st : State) (r i j : ℕ) : Message where
  cycle := (st.rank r).cycle
  i := i
  j := j
  buffered := match mode with
    | .buffered => some ((st.rank r).noiseSqm i j)
    | .nonblocking => none

/-- The effect of a step. -/
noncomputable def next (st : State) : Action → State
  | .compute r => st.setRank r ((st.rank r).compute w)
  | .send r i j =>
    { rank := Function.update st.rank r ((st.rank r).sent w i j)
      chan := Exchange.push st.chan r (w.receiver i j) (posted mode st r i j) }
  | .own r i j => st.setRank r ((st.rank r).own i j)
  | .recv r s _ i j _ v =>
    { rank := Function.update st.rank r ((st.rank r).received i j v)
      chan := Exchange.pop st.chan s r }
  | .done r i j => st.setRank r ((st.rank r).done w i j)
  | .publish r => st.setRank r (st.rank r).publish
  | .move r draws => st.setRank r ((st.rank r).move w draws)
  | .reset r => st.setRank r ((st.rank r).reset w)
  | .copy s d n => st.copy s d n

/-- The ranks of one run of the program as a transition system. -/
def system : System State Action where
  step st a st' := w.Enabled mode st a ∧ st' = w.next mode st a

/-- All ranks before their first cycle. -/
def init : State where
  rank r :=
    { pc := .compute
      cycle := 0
      localArr := localArr w.simConf w.worldSize w.rand r
      noiseSqm := initNoiseSqm
      computed := fun _ => initNoiseSqm
      count := 0
      myNoises := fun _ => none }
  chan _ _ := []

variable {w}

/-- Leaving a cell leads to another cell or out of the double loop. -/
theorem afterCell_cases (i j : ℕ) :
    (∃ i' j', w.afterCell i j = .cell i' j') ∨ w.afterCell i j = .publish := by
  unfold afterCell
  split
  · exact Or.inl ⟨i, j + 1, rfl⟩
  · split
    · exact Or.inl ⟨i + 1, 0, rfl⟩
    · exact Or.inr rfl

/-- Leaving a cell does not begin a cycle. -/
theorem afterCell_ne_compute (i j : ℕ) : w.afterCell i j ≠ .compute := by
  rcases afterCell_cases (w := w) i j with ⟨i', j', h⟩ | h <;> rw [h] <;> exact nofun

/-- Leaving a cell does not enter a receive loop. -/
theorem afterCell_ne_recv (i j i' j' p : ℕ) : w.afterCell i j ≠ .recv i' j' p := by
  rcases afterCell_cases (w := w) i j with ⟨a, b, h⟩ | h <;> rw [h] <;> exact nofun

/-- Two ranks with one person each on a single cell. -/
def twoRanks : World where
  simConf := { shippedConf with maxX := 1, maxY := 1, p := 2, v := 0 }
  worldSize := 2
  rand _ := 0
  worldSize_pos := by decide
  maxX_pos := by decide
  maxY_pos := by decide

/-- Three ranks on a single cell. -/
def threeRanks : World where
  simConf := { shippedConf with maxX := 1, maxY := 1 }
  worldSize := 3
  rand _ := 0
  worldSize_pos := by decide
  maxX_pos := by decide
  maxY_pos := by decide

end World

end NoiseLevel.Mpi
