import NoiseLevel.Core.OptionLoop
import NoiseLevel.Mpi.CellMatching
import NoiseLevel.Mpi.ConfigStrings
import NoiseLevel.Mpi.PublishData
import NoiseLevel.Mpi.SendBuffers

/-!
# One message for every positive cell

When a rank is about to publish, its slots hold its own cells, whatever the others do and
whenever the library reads the buffers of the sends. The messages of all ranks are then
one for each cell of the region whose final level is positive.
-/

namespace NoiseLevel.Mpi

open NoiseLevel.Core

namespace World

variable (w : World)

/-- The entry of a cell, by its linear index. -/
def entry (level : ℤ) (t : ℕ) : NoiseData :=
  ⟨level, (t % w.columns : ℕ), (t / w.columns : ℕ)⟩

/-- The entry of a cell by its row and column. -/
theorem entry_cellIndex (level : ℤ) {i j : ℕ} (hj : j < w.columns) :
    w.entry level (w.cellIndex i j) = ⟨level, j, i⟩ := by
  have hc := w.columns_pos
  rw [entry, cellIndex, mul_comm, Nat.mul_add_mod, Nat.mul_add_div hc, Nat.mod_eq_of_lt hj,
    Nat.div_eq_of_lt hj, Nat.add_zero]

/-- The slots of a rank during its double loop: its own cells so far, and the cell it
receives for. -/
structure OwnSlots (r : ℕ) (k : Rank) : Prop where
  counts : k.pc ≠ .compute → CountsOwn w.worldSize r (w.index k.pc) k.count
  stored : k.pc ≠ .compute → ∀ n < k.count, ∃ level,
    k.myNoises n = some (w.entry level (r + n * w.worldSize))
  collecting : ∀ i j p, k.pc = .recv i j p → ∃ level, k.myNoises k.count = some ⟨level, j, i⟩

variable {w} {mode : SendMode} {st st' : State} {r i j : ℕ} {k : Rank}

/-- At the first cell no slot is counted. -/
theorem ownSlots_compute : w.OwnSlots r (k.compute w) where
  counts _ n := by
    have hindex : w.index (k.compute w).pc = 0 := by simp [Rank.compute, index, cellIndex]
    have hcount : (k.compute w).count = 0 := rfl
    rw [hindex, hcount]
    omega
  stored _ n hn := absurd hn (Nat.not_lt_zero n)
  collecting i j p hpc := by cases hpc

/-- Sending an entry keeps the slots. -/
theorem OwnSlots.sent (h : w.OwnSlots r k) (hr : r < w.worldSize) (hi : i < w.rows)
    (hj : j < w.columns) (hpc : k.pc = .cell i j) (hother : w.receiver i j ≠ r) :
    w.OwnSlots r (k.sent w i j) where
  counts _ := by
    have hindex : w.index (k.sent w i j).pc = w.cellIndex i j + 1 := w.index_afterCell hi hj
    have hcounts := h.counts (by rw [hpc]; exact nofun)
    rw [hpc] at hcounts
    rw [hindex]
    exact hcounts.other hr hother
  stored _ := h.stored (by rw [hpc]; exact nofun)
  collecting i' j' p hrecv := absurd hrecv (afterCell_ne_recv i j i' j' p)

/-- Entering an own cell keeps the slots before. -/
theorem OwnSlots.own (h : w.OwnSlots r k) (hpc : k.pc = .cell i j) : w.OwnSlots r (k.own i j) where
  counts _ := by
    have hcounts := h.counts (by rw [hpc]; exact nofun)
    rwa [hpc] at hcounts
  stored _ n hn := by
    have hne : n ≠ k.count := (show n < k.count from hn).ne
    obtain ⟨level, hlevel⟩ := h.stored (by rw [hpc]; exact nofun) n hn
    exact ⟨level, by simp only [Rank.own, Function.update_of_ne hne, hlevel]⟩
  collecting i' j' p hrecv := by
    cases hrecv
    exact ⟨k.noiseSqm i j, by simp only [Rank.own, Function.update_self]⟩

/-- A receive changes the slot of its cell. -/
theorem OwnSlots.received (h : w.OwnSlots r k) {p : ℕ} (hpc : k.pc = .recv i j p) (v : ℤ) :
    w.OwnSlots r (k.received i j v) where
  counts _ := by
    have hcounts := h.counts (by rw [hpc]; exact nofun)
    rw [hpc] at hcounts
    have hpc' : (k.received i j v).pc = .recv i j (p + 1) := by simp only [Rank.received, hpc]
    rwa [hpc']
  stored _ n hn := by
    have hne : n ≠ k.count := (show n < k.count from hn).ne
    obtain ⟨level, hlevel⟩ := h.stored (by rw [hpc]; exact nofun) n hn
    exact ⟨level, by simp only [Rank.received, Function.update_of_ne hne, hlevel]⟩
  collecting i' j' p' hrecv := by
    simp only [Rank.received, hpc] at hrecv
    cases hrecv
    obtain ⟨level, hlevel⟩ := h.collecting i j p hpc
    exact ⟨sumNoises level v, by
      simp only [Rank.received, Function.update_self, hlevel, Option.map_some]⟩

/-- A completed cell is the next slot. -/
theorem OwnSlots.done (h : w.OwnSlots r k) (hr : r < w.worldSize) (hi : i < w.rows)
    (hj : j < w.columns) {p : ℕ} (hpc : k.pc = .recv i j p) (hown : w.receiver i j = r) :
    w.OwnSlots r (k.done w i j) := by
  have hcounts := h.counts (by rw [hpc]; exact nofun)
  rw [hpc] at hcounts
  refine ⟨fun _ => ?_, fun _ n hn => ?_, fun i' j' p' hrecv => ?_⟩
  · have hindex : w.index (k.done w i j).pc = w.cellIndex i j + 1 := w.index_afterCell hi hj
    rw [hindex]
    exact hcounts.own hr hown
  · rcases Nat.lt_succ_iff_lt_or_eq.mp (show n < k.count + 1 from hn) with hlt | rfl
    · exact h.stored (by rw [hpc]; exact nofun) n hlt
    · obtain ⟨level, hlevel⟩ := h.collecting i j p hpc
      have hnext : r + k.count * w.worldSize = w.cellIndex i j := hcounts.next_eq hr hown
      exact ⟨level, by rw [hnext, w.entry_cellIndex level hj]; exact hlevel⟩
  · exact absurd hrecv (afterCell_ne_recv i j i' j' p')

/-- Steps behind the double loop leave the slots as they are. -/
theorem OwnSlots.of_published (h : w.OwnSlots r k) (hpc : k.pc = .publish ∨ k.pc = .move)
    (k' : Rank) (hpc' : k'.pc = .move ∨ k'.pc = .reset) (hcount : k'.count = k.count)
    (hslots : k'.myNoises = k.myNoises) : w.OwnSlots r k' where
  counts _ := by
    have hcounts := h.counts (by rcases hpc with hp | hp <;> rw [hp] <;> exact nofun)
    have hindex : w.index k.pc = w.cells := by rcases hpc with hp | hp <;> rw [hp] <;> rfl
    have hindex' : w.index k'.pc = w.cells := by rcases hpc' with hp | hp <;> rw [hp] <;> rfl
    rwa [hindex', hcount, ← hindex]
  stored _ := by
    rw [hcount, hslots]
    exact h.stored (by rcases hpc with hp | hp <;> rw [hp] <;> exact nofun)
  collecting i j p hrecv := by
    rcases hpc' with hp | hp <;> rw [hp] at hrecv <;> cases hrecv

/-- The slots of every rank. -/
def AllSlots (w : World) (st : State) : Prop := ∀ r < w.worldSize, w.OwnSlots r (st.rank r)

/-- A step of one rank keeps the slots of the others. -/
theorem AllSlots.setRank (h : w.AllSlots st) (hk : r < w.worldSize → w.OwnSlots r k)
    (chan : ℕ → ℕ → List Message) : w.AllSlots ⟨Function.update st.rank r k, chan⟩ := by
  intro q hq
  rcases eq_or_ne q r with rfl | hne
  · simpa only [Function.update_self] using hk hq
  · simpa only [Function.update_of_ne hne] using h q hq

/-- Every step keeps the slots in order. -/
theorem AllSlots.step {a : Action} (h : w.AllSlots st) (hp : w.Placed 0 st)
    (hs : (w.system mode).step st a st') : w.AllSlots st' := by
  obtain ⟨he, rfl⟩ := hs
  cases a with
  | compute r => exact h.setRank (fun _ => ownSlots_compute) _
  | send r i j =>
    obtain ⟨_, hpc, hother⟩ := he
    obtain ⟨hi, hj⟩ := (hp.rank r).at_cell i j (Or.inl hpc)
    exact h.setRank (fun hr => (h r hr).sent hr hi hj hpc hother) _
  | own r i j =>
    obtain ⟨_, hpc, _⟩ := he
    exact h.setRank (fun hr => (h r hr).own hpc) _
  | recv r s cycle i j m v =>
    obtain ⟨_, _, _, ⟨p, hpc, _⟩, _, _⟩ := he
    exact h.setRank (fun hr => (h r hr).received hpc v) _
  | done r i j =>
    obtain ⟨_, p, hpc, _⟩ := he
    obtain ⟨hi, hj⟩ := (hp.rank r).at_cell i j (Or.inr ⟨p, hpc⟩)
    exact h.setRank (fun hr => (h r hr).done hr hi hj hpc ((hp.rank r).at_own i j p hpc)) _
  | publish r =>
    obtain ⟨_, hpc⟩ := he
    exact h.setRank (fun hr => (h r hr).of_published (Or.inl hpc) (st.rank r).publish (Or.inl rfl)
      rfl rfl) _
  | move r draws =>
    obtain ⟨_, hpc⟩ := he
    exact h.setRank (fun hr => (h r hr).of_published (Or.inr hpc) ((st.rank r).move w draws)
      (Or.inr rfl) rfl rfl) _
  | reset r =>
    refine h.setRank (fun _ => ⟨fun hpc => absurd rfl hpc, fun hpc => absurd rfl hpc, ?_⟩) _
    intro i j p hrecv
    cases hrecv
  | copy s d n => exact h

/-- At the start no slot is counted. -/
theorem allSlots_init : w.AllSlots w.init := fun r _ =>
  ⟨fun hpc => absurd rfl hpc, fun hpc => absurd rfl hpc, fun _ _ _ hrecv => by cases hrecv⟩

/-- The slots are in order in every state of the program. -/
theorem allSlots_of_reaches (hr : (w.system mode).Reaches w.init st) : w.AllSlots st :=
  (hr.invariant (fun st => w.Placed 0 st ∧ w.AllSlots st) ⟨placed_init, allSlots_init⟩
    fun _ _ _ h hs => ⟨h.1.step hs, h.2.step h.1 hs⟩).2

/-- The level that a rank has stored in a slot. -/
def storedLevel (k : Rank) (n : ℕ) : ℤ := (k.myNoises n).elim 0 NoiseData.noiseLevel

/-- The number of own cells of a rank. -/
def ownCount (w : World) (r : ℕ) : ℕ := (noiseSize w.simConf w.worldSize r).toNat

/-- The array that a rank hands to `publish_data`, if all its slots are written. -/
def ownNoises (w : World) (r : ℕ) (k : Rank) : Option (List NoiseData) :=
  (List.range (w.ownCount r)).mapM k.myNoises

/-- A slot is one of the rank when its cell exists. -/
theorem lt_ownCount_iff (hr : r < w.worldSize) (n : ℕ) :
    n < w.ownCount r ↔ r + n * w.worldSize < w.cells := by
  rw [ownCount, Int.lt_toNat]
  exact lt_noiseSize_iff w.maxX_pos w.maxY_pos hr n

/-- Before a rank publishes, its slots hold its own cells. -/
theorem OwnSlots.myNoises_eq (h : w.OwnSlots r k) (hr : r < w.worldSize) (hpc : k.pc = .publish)
    {n : ℕ} (hn : n < w.ownCount r) :
    k.myNoises n = some (w.entry (storedLevel k n) (r + n * w.worldSize)) := by
  have hcompute : k.pc ≠ .compute := by
    rw [hpc]
    exact nofun
  have hcounts := h.counts hcompute
  rw [hpc] at hcounts
  have hlt : n < k.count := (hcounts n).mpr ((lt_ownCount_iff hr n).mp hn)
  obtain ⟨level, hlevel⟩ := h.stored hcompute n hlt
  rw [storedLevel, hlevel]
  rfl

/-- The own cells of all ranks are the cells of the region. -/
theorem ownCells_perm (w : World) : ((List.range w.worldSize).flatMap fun r =>
    (List.range (w.ownCount r)).map fun n => r + n * w.worldSize).Perm (List.range w.cells) := by
  have hw := w.worldSize_pos
  refine (List.perm_ext_iff_of_nodup ?_ List.nodup_range).mpr fun t => ?_
  · refine List.nodup_flatMap.mpr ⟨fun r _ => ?_, ?_⟩
    · refine List.nodup_range.map fun n n' heq => ?_
      exact Nat.eq_of_mul_eq_mul_right hw (Nat.add_left_cancel heq)
    · refine List.nodup_range.imp_of_mem fun {r r'} hr hr' hne t ht ht' => hne ?_
      obtain ⟨n, -, rfl⟩ := List.mem_map.mp ht
      obtain ⟨n', -, heq⟩ := List.mem_map.mp ht'
      have hmod := congrArg (· % w.worldSize) heq
      simpa only [Nat.add_mul_mod_self_right, Nat.mod_eq_of_lt (List.mem_range.mp hr),
        Nat.mod_eq_of_lt (List.mem_range.mp hr')] using hmod.symm
  · simp only [List.mem_flatMap, List.mem_map, List.mem_range]
    constructor
    · rintro ⟨r, hr, n, hn, rfl⟩
      exact (lt_ownCount_iff hr n).mp hn
    · intro ht
      have hindex : t % w.worldSize + t / w.worldSize * w.worldSize = t := Nat.mod_add_div' _ _
      have hr := Nat.mod_lt t hw
      exact ⟨t % w.worldSize, hr, t / w.worldSize, (lt_ownCount_iff hr _).mpr (by rwa [hindex]),
        hindex⟩

/-- Numbering the cells in the order of the double loop. -/
theorem cellIndex_perm (w : World) : ((List.range w.rows ×ˢ List.range w.columns).map fun c =>
    w.cellIndex c.1 c.2).Perm (List.range w.cells) := by
  refine (List.perm_ext_iff_of_nodup ?_ List.nodup_range).mpr fun t => ?_
  · refine (List.nodup_range.product List.nodup_range).map_on fun c hc c' hc' heq => ?_
    have hj := List.mem_range.mp (List.mem_product.mp hc).2
    have hj' := List.mem_range.mp (List.mem_product.mp hc').2
    exact Prod.ext_iff.mpr (w.cellIndex_inj hj hj' heq)
  · simp only [List.mem_map, List.mem_range]
    constructor
    · rintro ⟨c, hc, rfl⟩
      obtain ⟨hi, hj⟩ := List.mem_product.mp hc
      exact w.cellIndex_lt (List.mem_range.mp hi) (List.mem_range.mp hj)
    · intro ht
      have hrow : t / w.columns < w.rows := Nat.div_lt_of_lt_mul (by rwa [mul_comm])
      have hcolumn := Nat.mod_lt t w.columns_pos
      exact ⟨(t / w.columns, t % w.columns),
        List.mem_product.mpr ⟨List.mem_range.mpr hrow, List.mem_range.mpr hcolumn⟩,
        Nat.div_add_mod' t w.columns⟩

section Union

/-- The level of a cell when its owner publishes. Each rank publishes in a state of its own. -/
def finalLevel (w : World) (before : ℕ → State) (i j : ℕ) : ℤ :=
  storedLevel ((before (w.receiver i j)).rank (w.receiver i j)) (w.cellIndex i j / w.worldSize)

/-- Every cell of the region with its final level. -/
def finalCells (w : World) (before : ℕ → State) : List NoiseData :=
  (List.range w.rows ×ˢ List.range w.columns).map fun c => ⟨w.finalLevel before c.1 c.2, c.2, c.1⟩

/-- In every state the rank is about to publish, somewhere in a run of the program. -/
def AboutToPublish (w : World) (mode : SendMode) (before : ℕ → State) : Prop :=
  ∀ r < w.worldSize, (w.system mode).Reaches w.init (before r) ∧ ((before r).rank r).pc = .publish

variable {before : ℕ → State} (h : w.AboutToPublish mode before)
include h

/-- The array of a rank lists its own cells with their final levels. -/
theorem AboutToPublish.ownNoises_eq (hr : r < w.worldSize) : w.ownNoises r ((before r).rank r) =
    some (((List.range (w.ownCount r)).map fun n => r + n * w.worldSize).map fun t =>
      w.entry (w.finalLevel before (t / w.columns) (t % w.columns)) t) := by
  obtain ⟨hreach, hpc⟩ := h r hr
  rw [ownNoises, List.map_map]
  refine mapM_eq_some fun n hn => ?_
  rw [(allSlots_of_reaches hreach r hr).myNoises_eq hr hpc (List.mem_range.mp hn)]
  have hindex : w.cellIndex ((r + n * w.worldSize) / w.columns)
      ((r + n * w.worldSize) % w.columns) = r + n * w.worldSize := Nat.div_add_mod' _ _
  have hslot : (r + n * w.worldSize) / w.worldSize = n := by
    rw [Nat.add_mul_div_right _ _ w.worldSize_pos, Nat.div_eq_of_lt hr, Nat.zero_add]
  have hown : (r + n * w.worldSize) % w.worldSize = r := by
    rw [Nat.add_mul_mod_self_right, Nat.mod_eq_of_lt hr]
  simp only [Function.comp_apply, finalLevel, receiver_eq, hindex, hslot, hown]

omit h in
/-- The arrays of all ranks together are the cells of the region. -/
theorem finalCells_perm (w : World) (before : ℕ → State) :
    ((List.range w.worldSize).flatMap fun r =>
      ((List.range (w.ownCount r)).map fun n => r + n * w.worldSize).map fun t =>
        w.entry (w.finalLevel before (t / w.columns) (t % w.columns)) t).Perm
      (w.finalCells before) := by
  have hcells : w.finalCells before = ((List.range w.rows ×ˢ List.range w.columns).map fun c =>
      w.cellIndex c.1 c.2).map fun t =>
        w.entry (w.finalLevel before (t / w.columns) (t % w.columns)) t := by
    rw [finalCells, List.map_map]
    refine List.map_congr_left fun c hc => ?_
    have hj := List.mem_range.mp (List.mem_product.mp hc).2
    have hc := w.columns_pos
    have hrow : w.cellIndex c.1 c.2 / w.columns = c.1 := by
      rw [cellIndex, mul_comm, Nat.mul_add_div hc, Nat.div_eq_of_lt hj, Nat.add_zero]
    have hcolumn : w.cellIndex c.1 c.2 % w.columns = c.2 := by
      rw [cellIndex, mul_comm, Nat.mul_add_mod, Nat.mod_eq_of_lt hj]
    simp only [Function.comp_apply, hrow, hcolumn, w.entry_cellIndex _ hj]
  rw [hcells, ← List.map_flatMap]
  exact (w.ownCells_perm.trans w.cellIndex_perm.symm).map _

/-- The cells of the region are numbers that the program can hold. -/
structure CellsFit (w : World) (before : ℕ → State) : Prop where
  maxX : w.simConf.maxX < 2 ^ 31
  maxY : w.simConf.maxY < 2 ^ 31
  level : ∀ i < w.rows, ∀ j < w.columns,
    -2 ^ 31 ≤ w.finalLevel before i j ∧ w.finalLevel before i j < 2 ^ 31

omit h in
/-- Every cell is a record that the program can hold. -/
theorem CellsFit.fits (hfit : w.CellsFit before) {d : NoiseData} (hd : d ∈ w.finalCells before) :
    d.Fits := by
  obtain ⟨⟨i, j⟩, hc, rfl⟩ := List.mem_map.mp hd
  obtain ⟨hi, hj⟩ := List.mem_product.mp hc
  have hi := List.mem_range.mp hi
  have hj := List.mem_range.mp hj
  have hx := hfit.maxX
  have hy := hfit.maxY
  refine ⟨hfit.level i hi j hj, ?_, ?_⟩
  · have : (j : ℤ) < w.simConf.maxX := by
      simpa only [columns, SimulationConfig.columns, Int.lt_toNat] using hj
    constructor <;> dsimp only <;> omega
  · have : (i : ℤ) < w.simConf.maxY := by
      simpa only [rows, SimulationConfig.rows, Int.lt_toNat] using hi
    constructor <;> dsimp only <;> omega

/-- The messages of all ranks in one cycle are those of the positive cells. -/
theorem AboutToPublish.payloads_perm (hfit : w.CellsFit before) (mqttConf : MqttConfig)
    (mosquittoPublish : ℕ → List PublishCall → ℤ) : ∃ noises : ℕ → List NoiseData,
      (∀ r < w.worldSize, w.ownNoises r ((before r).rank r) = some (noises r) ∧
        PublishedOnce mqttConf (mosquittoPublish r) (noises r)) ∧
      ((List.range w.worldSize).flatMap fun r =>
        payloads mqttConf (mosquittoPublish r) (noises r)).Perm
        ((positive (w.finalCells before)).map publishText) := by
  have hperm := finalCells_perm w before
  set noises : ℕ → List NoiseData := fun r =>
    ((List.range (w.ownCount r)).map fun n => r + n * w.worldSize).map fun t =>
      w.entry (w.finalLevel before (t / w.columns) (t % w.columns)) t with hnoises
  have honce : ∀ r < w.worldSize, PublishedOnce mqttConf (mosquittoPublish r) (noises r) := by
    intro r hr
    refine publishedOnce mqttConf _ fun d hd => hfit.fits (hperm.mem_iff.mp ?_)
    exact List.mem_flatMap.mpr ⟨r, List.mem_range.mpr hr, hd⟩
  refine ⟨noises, fun r hr => ⟨h.ownNoises_eq hr, honce r hr⟩, ?_⟩
  have hpayloads : ((List.range w.worldSize).flatMap fun r =>
      payloads mqttConf (mosquittoPublish r) (noises r)) =
      (positive ((List.range w.worldSize).flatMap noises)).map publishText := by
    rw [positive, List.filter_flatMap, List.map_flatMap]
    exact List.flatMap_congr fun r hr => (honce r (List.mem_range.mp hr)).payloads_eq
  rw [hpayloads]
  exact (hperm.filter _).map _

omit h in
/-- After a matched pass, the final level of a cell folds one value from every other rank. -/
theorem PassMatched.finalLevel_eq {start : State} {as : List Action}
    (hm : w.PassMatched start as st) (hc : w.Completed st (w.receiver i j) i j) :
    w.finalLevel (fun _ => st) i j = foldedLevel
      ((start.rank (w.receiver i j)).noiseSqm i j) (deliveries as (w.receiver i j) i j) := by
  rw [finalLevel, storedLevel, hm.folded _ i j hc]
  rfl

end Union

end World

/-- Every array with fields of 32 bits is published faithfully, and the ranks of a cycle
together publish every positive cell once. -/
theorem cellsPublished :
    (∀ (mqttConf : MqttConfig) (mosquittoPublish : List PublishCall → ℤ) (noises : List NoiseData),
      (∀ d ∈ noises, d.Fits) → PublishedOnce mqttConf mosquittoPublish noises) ∧
    ∀ (w : World) (mode : SendMode) (before : ℕ → State), w.AboutToPublish mode before →
      w.CellsFit before → ∀ (mqttConf : MqttConfig) (mosquittoPublish : ℕ → List PublishCall → ℤ),
      ∃ noises : ℕ → List NoiseData,
        (∀ r < w.worldSize, w.ownNoises r ((before r).rank r) = some (noises r) ∧
          PublishedOnce mqttConf (mosquittoPublish r) (noises r)) ∧
        ((List.range w.worldSize).flatMap fun r =>
          payloads mqttConf (mosquittoPublish r) (noises r)).Perm
          ((positive (w.finalCells before)).map publishText) :=
  ⟨fun mqttConf mosquittoPublish _ => publishedOnce mqttConf mosquittoPublish,
    fun _ _ _ h hfit => h.payloads_perm hfit⟩

namespace World

/-- The level that a rank computes for a cell in its first cycle. -/
noncomputable def firstLevel (w : World) (r i j : ℕ) : ℤ :=
  computeNoiseSqm w.simConf initNoiseSqm (localArr w.simConf w.worldSize w.rand r)
    (numElemPerProc w.simConf w.worldSize) i j

/-- Each rank has one source, in a cell of its own. -/
theorem firstLevel_threeCells {r j : ℕ} (hr : r < 2) (hj : j < 3) :
    threeCells.firstLevel r 0 j =
      if r = 0 ∧ j = 0 then 40 else if r = 1 ∧ j = 1 then 45 else 0 := by
  rw [firstLevel, computeNoiseSqm_eq, foldl_addSource_apply]
  have hlevels : (((localArr threeCells.simConf threeCells.worldSize threeCells.rand r).take
      (numElemPerProc threeCells.simConf threeCells.worldSize).toNat).filter fun s =>
        Covers threeCells.simConf s (0 : ℕ) j).map NoiseSource.noiseLevel =
      if r = 0 ∧ j = 0 then [40] else if r = 1 ∧ j = 1 then [45] else [] := by
    interval_cases r <;> interval_cases j <;> decide
  rw [hlevels]
  split_ifs
  · exact sumNoises_zero_left 40
  · exact sumNoises_zero_left 45
  · rfl

/-- The first rank publishes last, when the second one is in its next cycle. -/
noncomputable def collected (r : ℕ) : State :=
  threeCells.played .nonblocking threeCells.init
    (if r = 0 then clearedAhead else clearedAhead.take 13)

/-- Both ranks come to their publish. -/
theorem aboutToPublish_threeCells : threeCells.AboutToPublish .nonblocking collected := by
  intro r hr
  have hr : r < 2 := hr
  interval_cases r
  · exact ⟨⟨_, (@run_steps threeCells .nonblocking threeCells.init clearedAhead rfl).of_restrict⟩,
      rfl⟩
  · exact ⟨⟨_, (@run_steps threeCells .nonblocking threeCells.init
      (clearedAhead.take 13) rfl).of_restrict⟩, rfl⟩

/-- A loud cell of each rank and a silent one. -/
theorem finalCells_threeCells :
    threeCells.finalCells collected = [⟨40, 0, 0⟩, ⟨45, 1, 0⟩, ⟨0, 2, 0⟩] := by
  have hfirst : threeCells.finalLevel collected 0 0 =
      sumNoises (threeCells.firstLevel 0 0 0) (threeCells.firstLevel 1 0 0) := rfl
  have hsecond : threeCells.finalLevel collected 0 1 =
      sumNoises (threeCells.firstLevel 1 0 1) (threeCells.firstLevel 0 0 1) := rfl
  have hthird : threeCells.finalLevel collected 0 2 =
      sumNoises (threeCells.firstLevel 0 0 2) (threeCells.firstLevel 1 0 2) := rfl
  have hcells : threeCells.finalCells collected =
      [⟨threeCells.finalLevel collected 0 0, 0, 0⟩, ⟨threeCells.finalLevel collected 0 1, 1, 0⟩,
        ⟨threeCells.finalLevel collected 0 2, 2, 0⟩] := rfl
  rw [hcells, hfirst, hsecond, hthird]
  simp [firstLevel_threeCells, sumNoises_zero_right]

/-- The levels of the three cells are numbers of 32 bits. -/
theorem cellsFit_threeCells : threeCells.CellsFit collected where
  maxX := by decide
  maxY := by decide
  level i hi j hj := by
    have hmem : (⟨threeCells.finalLevel collected i j, j, i⟩ : NoiseData) ∈
        threeCells.finalCells collected := List.mem_map.mpr ⟨(i, j), List.mem_product.mpr
          ⟨List.mem_range.mpr hi, List.mem_range.mpr hj⟩, rfl⟩
    rw [finalCells_threeCells] at hmem
    simp only [List.mem_cons, NoiseData.mk.injEq, List.not_mem_nil, or_false] at hmem
    omega

end World

/-- Both ranks publish their loud cell, and the silent one is not published. -/
theorem cellsPublished_threeCells : ∃ noises : ℕ → List NoiseData,
    (∀ r < World.threeCells.worldSize,
      World.threeCells.ownNoises r ((World.collected r).rank r) = some (noises r) ∧
        PublishedOnce clearedMqttConf (fun _ => 0) (noises r)) ∧
      ((List.range World.threeCells.worldSize).flatMap fun r =>
        payloads clearedMqttConf (fun _ => 0) (noises r)).Perm
        [publishText ⟨40, 0, 0⟩, publishText ⟨45, 1, 0⟩] := by
  have h := cellsPublished.2 World.threeCells .nonblocking World.collected
    World.aboutToPublish_threeCells World.cellsFit_threeCells clearedMqttConf fun _ _ => 0
  rw [World.finalCells_threeCells] at h
  exact h

end NoiseLevel.Mpi
