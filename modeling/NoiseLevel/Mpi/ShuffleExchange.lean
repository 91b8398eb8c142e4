import NoiseLevel.Mpi.Shuffle

/-!
# The shuffle is an anonymous exchange

Numbering the cells of all cycles in the order in which a rank passes them turns the
program counter of a rank into a slot, and a pending message into the slot it was posted
at. Sends, receives and finished cells are the moves of the exchange, all other steps are
silent.
-/

namespace NoiseLevel.Mpi

open NoiseLevel.Core

/-- The rank is at a cell, whether or not it has started to receive there. -/
def Pc.At (pc : Pc) (i j : ℕ) : Prop := pc = .cell i j ∨ ∃ p, pc = .recv i j p

/-- Messages received at the current cell. -/
def Pc.collected : Pc → ℕ
  | .recv _ _ p => p
  | _ => 0

namespace World

variable (w : World) (base : ℕ)

/-- A region has a column. -/
theorem columns_pos : 0 < w.columns := by
  have := w.maxX_pos
  unfold columns SimulationConfig.columns
  omega

/-- A region has a row. -/
theorem rows_pos : 0 < w.rows := by
  have := w.maxY_pos
  unfold rows SimulationConfig.rows
  omega

/-- A region has a cell. -/
theorem cells_pos : 0 < w.cells := Nat.mul_pos w.rows_pos w.columns_pos

/-- The linear index of a cell, in the order of the double loop. -/
def cellIndex (i j : ℕ) : ℕ := i * w.columns + j

/-- The cells belong to the ranks in turn. -/
theorem receiver_eq (i j : ℕ) : w.receiver i j = w.cellIndex i j % w.worldSize := rfl

/-- The index of a cell is below their number. -/
theorem cellIndex_lt {i j : ℕ} (hi : i < w.rows) (hj : j < w.columns) :
    w.cellIndex i j < w.cells := by
  have h := Nat.mul_le_mul_right w.columns (show i + 1 ≤ w.rows from hi)
  rw [Nat.add_mul, Nat.one_mul] at h
  unfold cellIndex cells
  omega

/-- Cells have different indices. -/
theorem cellIndex_inj {i j i' j' : ℕ} (hj : j < w.columns) (hj' : j' < w.columns)
    (h : w.cellIndex i j = w.cellIndex i' j') : i = i' ∧ j = j' := by
  unfold cellIndex at h
  have hdiv := congrArg (· / w.columns) h
  have hmod := congrArg (· % w.columns) h
  simp only [Nat.mul_comm _ w.columns, Nat.mul_add_div w.columns_pos, Nat.mul_add_mod,
    Nat.div_eq_of_lt, Nat.mod_eq_of_lt, hj, hj', Nat.add_zero] at hdiv hmod
  exact ⟨hdiv, hmod⟩

/-- Cells passed in the current cycle. -/
def index : Pc → ℕ
  | .compute => 0
  | .cell i j => w.cellIndex i j
  | .recv i j _ => w.cellIndex i j
  | .publish | .move | .reset => w.cells

/-- The number of a cell, counted from the start of the cycle `base`. -/
def slot (cycle n : ℕ) : ℕ := (cycle - base) * w.cells + n

/-- The index of a rank at a cell. -/
theorem index_at {pc : Pc} {i j : ℕ} (h : pc.At i j) : w.index pc = w.cellIndex i j := by
  rcases h with rfl | ⟨p, rfl⟩ <;> rfl

/-- Leaving a cell passes exactly that cell. -/
theorem index_afterCell {i j : ℕ} (hi : i < w.rows) (hj : j < w.columns) :
    w.index (w.afterCell i j) = w.cellIndex i j + 1 := by
  have hlast := Nat.add_mul i 1 w.columns
  unfold afterCell
  split
  · rfl
  · have hj' : j + 1 = w.columns := by omega
    split
    · simp only [index, cellIndex]
      omega
    · have hi' : w.rows = i + 1 := by omega
      simp only [index, cellIndex, cells, hi']
      omega

/-- At a new cell nothing has been received. -/
theorem collected_afterCell (i j : ℕ) : (w.afterCell i j).collected = 0 := by
  rcases afterCell_cases (w := w) i j with ⟨i', j', h⟩ | h <;> rw [h] <;> rfl

/-- The exchange state of the ranks. -/
def exchangeState (st : State) : Exchange.State where
  pos r := w.slot base (st.rank r).cycle (w.index (st.rank r).pc)
  got r := (st.rank r).pc.collected
  chan s d := (st.chan s d).map fun m => w.slot base m.cycle (w.cellIndex m.i m.j)

/-- The move of the exchange that a step is, unless it is silent. -/
def exchangeLabel : Action → Option Exchange.Label
  | .send r _ _ => some (.post r)
  | .recv r s cycle i j m _ =>
    some (.take r s (w.slot base cycle (w.cellIndex i j))
      (w.slot base m.cycle (w.cellIndex m.i m.j)))
  | .done r _ _ => some (.pass r)
  | _ => none

/-- A rank stands inside the region, and receives only at its own cells. -/
structure PlacedRank (r : ℕ) (k : Rank) : Prop where
  at_cell : ∀ i j, k.pc.At i j → i < w.rows ∧ j < w.columns
  at_own : ∀ i j p, k.pc = .recv i j p → w.receiver i j = r
  collected_lt : k.pc.collected < w.worldSize
  base_le : base ≤ k.cycle

/-- A message was posted at a cell of the region. -/
structure PlacedMessage (m : Message) : Prop where
  base_le : base ≤ m.cycle
  row : m.i < w.rows
  column : m.j < w.columns

/-- All ranks and all pending messages are in place. -/
structure Placed (st : State) : Prop where
  rank : ∀ r, w.PlacedRank base r (st.rank r)
  chan : ∀ s d, ∀ m ∈ st.chan s d, w.PlacedMessage base m

variable {w base} {mode : SendMode} {st st' : State}

/-- A rank outside the double loop is in place. -/
theorem PlacedRank.of_not_at {r : ℕ} {k : Rank} (h : ∀ i j, ¬k.pc.At i j) (hb : base ≤ k.cycle) :
    w.PlacedRank base r k where
  at_cell i j hat := absurd hat (h i j)
  at_own i j p hpc := absurd (Or.inr ⟨p, hpc⟩) (h i j)
  collected_lt := by
    cases hpc : k.pc with
    | recv i j p => exact absurd (Or.inr ⟨p, hpc⟩) (h i j)
    | compute | cell | publish | move | reset => exact w.worldSize_pos
  base_le := hb

/-- Leaving a cell leads to a cell or to the end of the double loop. -/
theorem placed_afterCell {r i j : ℕ} {k : Rank} (hi : i < w.rows) (hb : base ≤ k.cycle)
    (hpc : k.pc = w.afterCell i j) : w.PlacedRank base r k := by
  constructor
  · intro i' j' hat
    rw [hpc] at hat
    unfold afterCell at hat
    split at hat
    · rcases hat with h | ⟨p, h⟩ <;> cases h
      exact ⟨hi, by assumption⟩
    · split at hat <;> rcases hat with h | ⟨p, h⟩ <;> cases h
      exact ⟨by assumption, w.columns_pos⟩
  · intro i' j' p hrecv
    exact absurd (hpc.symm.trans hrecv) (afterCell_ne_recv i j i' j' p)
  · rw [hpc, collected_afterCell]
    exact w.worldSize_pos
  · exact hb

/-- A step of one rank keeps the others in place. -/
theorem Placed.setRank {r : ℕ} {k : Rank} (h : w.Placed base st) (hk : w.PlacedRank base r k) :
    w.Placed base (st.setRank r k) where
  rank q := by
    rcases eq_or_ne q r with rfl | hq
    · simpa [State.setRank] using hk
    · simpa [State.setRank, hq] using h.rank q
  chan := h.chan

/-- Another receive at a cell keeps the rank there. -/
theorem PlacedRank.received {r i j p : ℕ} {k : Rank} {v : ℤ} (h : w.PlacedRank base r k)
    (hpc : k.pc = .recv i j p) (hp : p + 1 < w.worldSize) :
    w.PlacedRank base r (k.received i j v) := by
  refine ⟨?_, ?_, by simpa only [Rank.received, hpc, Pc.collected] using hp, h.base_le⟩
  · rintro i' j' (hc | ⟨p', hc⟩) <;> simp only [Rank.received, hpc] at hc <;> cases hc
    exact h.at_cell i j (Or.inr ⟨p, hpc⟩)
  · intro i' j' p' hc
    simp only [Rank.received, hpc] at hc
    cases hc
    exact h.at_own i j p hpc

/-- No step leaves the region. -/
theorem Placed.step {a : Action} (h : w.Placed base st) (hs : (w.system mode).step st a st') :
    w.Placed base st' := by
  obtain ⟨he, rfl⟩ := hs
  cases a with
  | compute r =>
    refine h.setRank ⟨?_, ?_, w.worldSize_pos, (h.rank r).base_le⟩
    · rintro i j (hc | ⟨p, hc⟩) <;> cases hc
      exact ⟨w.rows_pos, w.columns_pos⟩
    · intro i j p hc
      cases hc
  | send r i j =>
    obtain ⟨hr, hpc, _⟩ := he
    obtain ⟨hi, hj⟩ := (h.rank r).at_cell i j (Or.inl hpc)
    have hk : w.PlacedRank base r ((st.rank r).sent w i j) :=
      placed_afterCell hi (h.rank r).base_le rfl
    refine ⟨(h.setRank hk).rank, ?_⟩
    intro s d m hm
    simp only [next, Exchange.push] at hm
    split at hm
    · rcases List.mem_append.mp hm with hm | hm
      · exact h.chan s d m hm
      · cases List.mem_singleton.mp hm
        exact ⟨(h.rank r).base_le, hi, hj⟩
    · exact h.chan s d m hm
  | own r i j =>
    obtain ⟨_, hpc, hown⟩ := he
    refine h.setRank ⟨?_, ?_, w.worldSize_pos, (h.rank r).base_le⟩
    · rintro i' j' (hc | ⟨p, hc⟩) <;> cases hc
      exact (h.rank r).at_cell i j (Or.inl hpc)
    · intro i' j' p hc
      cases hc
      exact hown
  | recv r s cycle i j m v =>
    obtain ⟨_, _, _, ⟨p, hpc, hp⟩, _, _⟩ := he
    refine ⟨(h.setRank ((h.rank r).received hpc hp)).rank, ?_⟩
    intro a d m' hm
    simp only [next, Exchange.pop] at hm
    split at hm
    · exact h.chan a d m' (List.mem_of_mem_tail hm)
    · exact h.chan a d m' hm
  | done r i j =>
    obtain ⟨_, p, hpc, _⟩ := he
    obtain ⟨hi, _⟩ := (h.rank r).at_cell i j (Or.inr ⟨p, hpc⟩)
    exact h.setRank (placed_afterCell hi (h.rank r).base_le rfl)
  | publish r =>
    refine h.setRank (PlacedRank.of_not_at ?_ (h.rank r).base_le)
    rintro i j (hc | ⟨p, hc⟩) <;> cases hc
  | move r draws =>
    refine h.setRank (PlacedRank.of_not_at ?_ (h.rank r).base_le)
    rintro i j (hc | ⟨p, hc⟩) <;> cases hc
  | reset r =>
    refine h.setRank (PlacedRank.of_not_at ?_ ((h.rank r).base_le.trans (Nat.le_succ _)))
    rintro i j (hc | ⟨p, hc⟩) <;> cases hc
  | copy s d n =>
    refine ⟨h.rank, ?_⟩
    intro a b m hm
    rcases State.mem_copy hm with hmem | ⟨m', hmem, rfl⟩
    · exact h.chan a b m hmem
    · obtain ⟨hbase, hi, hj⟩ := h.chan a b m' hmem
      exact ⟨hbase, hi, hj⟩

/-- The exchange state after one rank has changed. -/
theorem exchangeState_update (st : State) (r : ℕ) (k : Rank) (chan : ℕ → ℕ → List Message) :
    w.exchangeState base ⟨Function.update st.rank r k, chan⟩ =
      ⟨Function.update (w.exchangeState base st).pos r (w.slot base k.cycle (w.index k.pc)),
        Function.update (w.exchangeState base st).got r k.pc.collected,
        fun s d => (chan s d).map fun m => w.slot base m.cycle (w.cellIndex m.i m.j)⟩ := by
  simp only [exchangeState, Exchange.State.mk.injEq, and_true]
  constructor <;> funext q <;> rcases eq_or_ne q r with rfl | hq <;> simp [*]

/-- A rank that keeps its slot and its receives keeps the exchange state. -/
theorem exchangeState_setRank {r : ℕ} {k : Rank}
    (hpos : w.slot base k.cycle (w.index k.pc) =
      w.slot base (st.rank r).cycle (w.index (st.rank r).pc))
    (hgot : k.pc.collected = (st.rank r).pc.collected) :
    w.exchangeState base (st.setRank r k) = w.exchangeState base st := by
  rw [State.setRank, exchangeState_update, hpos, hgot]
  simp only [exchangeState, Function.update_eq_self_iff, Exchange.State.mk.injEq, and_true]

/-- Silent steps keep the exchange state. -/
theorem Placed.silent {a : Action} (h : w.Placed base st) (hs : (w.system mode).step st a st')
    (hl : w.exchangeLabel base a = none) : w.exchangeState base st' = w.exchangeState base st := by
  obtain ⟨he, rfl⟩ := hs
  cases a with
  | compute r =>
    apply exchangeState_setRank
    · rw [he.2]
      simp only [Rank.compute, index, cellIndex, Nat.zero_mul]
    · rw [he.2]
      rfl
  | send r i j => cases hl
  | own r i j =>
    apply exchangeState_setRank
    · rw [he.2.1]
      rfl
    · rw [he.2.1]
      rfl
  | recv r s cycle i j m v => cases hl
  | done r i j => cases hl
  | publish r =>
    apply exchangeState_setRank
    · rw [he.2]
      rfl
    · rw [he.2]
      rfl
  | move r draws =>
    apply exchangeState_setRank
    · rw [he.2]
      rfl
    · rw [he.2]
      rfl
  | reset r =>
    apply exchangeState_setRank
    · have hb := (h.rank r).base_le
      rw [he.2]
      simp only [Rank.reset, index, slot]
      rw [show (st.rank r).cycle + 1 - base = (st.rank r).cycle - base + 1 by omega, Nat.add_mul,
        Nat.one_mul, Nat.add_zero]
    · rw [he.2]
      rfl
  | copy s d n =>
    simp only [next, State.copy, exchangeState, Exchange.State.mk.injEq, true_and]
    ext a b : 2
    split
    · apply List.ext_getElem?
      intro l
      simp only [List.getElem?_map, List.getElem?_modify]
      cases (st.chan a b)[l]? with
      | none => rfl
      | some m =>
        simp only [Option.map_eq_map, Option.map_some]
        split <;> rfl
    · rfl

/-- The owners of the exchange are the receivers of the cells. -/
def Tracks (w : World) (base : ℕ) (E : Exchange) (st : State) : Prop :=
  ∀ r i j, (st.rank r).pc.At i j →
    E.owner (w.slot base (st.rank r).cycle (w.cellIndex i j)) = w.receiver i j

/-- The slot of a rank at a cell. -/
theorem pos_eq {r i j : ℕ} (h : (st.rank r).pc.At i j) :
    (w.exchangeState base st).pos r = w.slot base (st.rank r).cycle (w.cellIndex i j) := by
  simp only [exchangeState, w.index_at h]

section Visible

variable {E : Exchange} (h : w.Placed base st) (hE : E.parties = w.worldSize)
variable (hown : w.Tracks base E st)
include h hE hown

/-- A send posts to the receiver of the cell. -/
theorem Placed.visible_send {r i j : ℕ} (hs : (w.system mode).step st (.send r i j) st') :
    E.system.step (w.exchangeState base st) (.post r) (w.exchangeState base st') := by
  obtain ⟨⟨hr, hpc, hne⟩, rfl⟩ := hs
  have hat : (st.rank r).pc.At i j := Or.inl hpc
  obtain ⟨hi, hj⟩ := (h.rank r).at_cell i j hat
  have howner := hown r i j hat
  rw [← pos_eq hat] at howner
  refine ⟨⟨hE ▸ hr, howner ▸ hne⟩, ?_⟩
  have hgot : (w.exchangeState base st).got r = 0 := by simp only [exchangeState, hpc, Pc.collected]
  simp only [next, exchangeState_update, Exchange.next, howner, Exchange.State.mk.injEq,
    Rank.sent, index_afterCell w hi hj, collected_afterCell, Exchange.map_push]
  refine ⟨by rw [pos_eq hat, slot, slot, Nat.add_assoc], ?_, by rw [pos_eq hat]; rfl⟩
  rw [Function.update_eq_self_iff, hgot]

/-- A receive takes what comes first from one of the others. -/
theorem Placed.visible_recv {r s cycle i j : ℕ} {m : Message} {v : ℤ}
    (hs : (w.system mode).step st (.recv r s cycle i j m v) st') :
    E.system.step (w.exchangeState base st) (.take r s (w.slot base cycle (w.cellIndex i j))
      (w.slot base m.cycle (w.cellIndex m.i m.j))) (w.exchangeState base st') := by
  obtain ⟨⟨hr, hsender, rfl, ⟨p, hpc, hp⟩, hm, _⟩, rfl⟩ := hs
  have hat : (st.rank r).pc.At i j := Or.inr ⟨p, hpc⟩
  have howner := hown r i j hat
  rw [(h.rank r).at_own i j p hpc, ← pos_eq hat] at howner
  have hgot : (w.exchangeState base st).got r = p := by simp only [exchangeState, hpc, Pc.collected]
  refine ⟨⟨hE ▸ hr, hE ▸ hsender, howner, by rw [hgot, hE]; exact hp, (pos_eq hat).symm, ?_⟩, ?_⟩
  · simp only [exchangeState, List.head?_map, hm, Option.map_some]
  · simp only [next, exchangeState_update, Exchange.next, hgot, Exchange.State.mk.injEq,
      Rank.received, hpc, Pc.collected, index, true_and, Exchange.map_pop]
    exact ⟨by rw [Function.update_eq_self_iff, pos_eq hat], rfl⟩

/-- A finished cell has been served by all the others. -/
theorem Placed.visible_done {r i j : ℕ} (hs : (w.system mode).step st (.done r i j) st') :
    E.system.step (w.exchangeState base st) (.pass r) (w.exchangeState base st') := by
  obtain ⟨⟨hr, p, hpc, hp⟩, rfl⟩ := hs
  have hat : (st.rank r).pc.At i j := Or.inr ⟨p, hpc⟩
  obtain ⟨hi, hj⟩ := (h.rank r).at_cell i j hat
  have howner := hown r i j hat
  rw [(h.rank r).at_own i j p hpc, ← pos_eq hat] at howner
  have hgot : (w.exchangeState base st).got r = p := by simp only [exchangeState, hpc, Pc.collected]
  have hall : (w.exchangeState base st).got r + 1 = E.parties := by
    have hlt := (h.rank r).collected_lt
    rw [hpc] at hlt
    rw [hgot, hE]
    exact le_antisymm hlt (not_lt.mp hp)
  refine ⟨⟨hE ▸ hr, howner, hall⟩, ?_⟩
  simp only [next, State.setRank, exchangeState_update, Exchange.next, Exchange.State.mk.injEq,
    Rank.done, index_afterCell w hi hj, collected_afterCell]
  exact ⟨by rw [pos_eq hat, slot, slot, Nat.add_assoc], trivial, rfl⟩

/-- Sends, receives and finished cells are moves of the exchange. -/
theorem Placed.visible {a : Action} {l : Exchange.Label} (hs : (w.system mode).step st a st')
    (hl : w.exchangeLabel base a = some l) :
    E.system.step (w.exchangeState base st) l (w.exchangeState base st') := by
  cases a with
  | send r i j =>
    cases hl
    exact h.visible_send hE hown hs
  | recv r s cycle i j m v =>
    cases hl
    exact h.visible_recv hE hown hs
  | done r i j =>
    cases hl
    exact h.visible_done hE hown hs
  | compute r => cases hl
  | own r i j => cases hl
  | publish r => cases hl
  | move r draws => cases hl
  | reset r => cases hl
  | copy s d n => cases hl

end Visible

variable (w) in
/-- The exchange over the cells of all cycles. -/
def exchange : Exchange where
  parties := w.worldSize
  owner t := t % w.cells % w.worldSize
  owner_lt _ := Nat.mod_lt _ w.worldSize_pos

/-- The slots of all cycles are different. -/
theorem slot_inj {c c' n n' : ℕ} (hc : base ≤ c) (hc' : base ≤ c') (hn : n < w.cells)
    (hn' : n' < w.cells) (h : w.slot base c n = w.slot base c' n') : c = c' ∧ n = n' := by
  unfold slot at h
  have hdiv := congrArg (· / w.cells) h
  have hmod := congrArg (· % w.cells) h
  simp only [Nat.mul_comm _ w.cells, Nat.mul_add_div w.cells_pos, Nat.mul_add_mod,
    Nat.div_eq_of_lt, Nat.mod_eq_of_lt, hn, hn', Nat.add_zero] at hdiv hmod
  omega

/-- Equal slots belong to the same cell of the same cycle. -/
theorem PlacedMessage.slot_inj {m : Message} (h : w.PlacedMessage base m) {cycle i j : ℕ}
    (hb : base ≤ cycle) (hi : i < w.rows) (hj : j < w.columns)
    (heq : w.slot base m.cycle (w.cellIndex m.i m.j) = w.slot base cycle (w.cellIndex i j)) :
    m.cycle = cycle ∧ m.i = i ∧ m.j = j := by
  obtain ⟨hcycle, hcell⟩ := World.slot_inj h.base_le hb (w.cellIndex_lt h.row h.column)
    (w.cellIndex_lt hi hj) heq
  exact ⟨hcycle, w.cellIndex_inj h.column hj hcell⟩

/-- The owner of a slot is the receiver of its cell. -/
theorem Placed.tracks (h : w.Placed base st) : w.Tracks base w.exchange st := by
  intro r i j hat
  obtain ⟨hi, hj⟩ := (h.rank r).at_cell i j hat
  simp only [exchange, slot]
  rw [Nat.mul_comm, Nat.mul_add_mod, Nat.mod_eq_of_lt (w.cellIndex_lt hi hj), receiver_eq]

/-- At the start all ranks are in place. -/
theorem placed_init : w.Placed 0 w.init where
  rank r := PlacedRank.of_not_at (by rintro i j (h | ⟨p, h⟩) <;> cases h) le_rfl
  chan s d m hm := by cases hm

/-- The start is the start of the exchange. -/
theorem exchangeState_init : w.exchangeState 0 w.init = Exchange.start := by
  simp [exchangeState, init, index, slot, Pc.collected, Exchange.start]

/-- The shuffle refines the exchange. -/
theorem refines (w : World) (mode : SendMode) : (w.system mode).Refines w.exchange.system
    (w.Placed 0) (w.exchangeState 0) (w.exchangeLabel 0) where
  inv_step _ _ _ h hs := h.step hs
  visible _ _ _ _ h hs hl := h.visible rfl h.tracks hs hl
  silent _ _ _ h hs hl := h.silent hs hl

/-- A run of the ranks is a run of the exchange. -/
theorem run_exchange {as : List Action} (hr : (w.system mode).Run w.init as st) :
    w.Placed 0 st ∧ w.exchange.system.Run Exchange.start (as.filterMap (w.exchangeLabel 0))
      (w.exchangeState 0 st) := by
  have h := (w.refines mode).run hr placed_init
  rwa [exchangeState_init] at h

/-- A rank that is about to send, or that is receiving. -/
def Settled (w : World) (st : State) (q : ℕ) : Prop :=
  (∃ i j, (st.rank q).pc = .cell i j ∧ w.receiver i j ≠ q) ∨ ∃ i j p, (st.rank q).pc = .recv i j p

/-- Silent steps until a rank settles, at most. -/
def waits : Pc → ℕ
  | .recv _ _ _ => 0
  | .cell _ _ => 1
  | .compute => 2
  | .reset => 3
  | .move => 4
  | .publish => 5

/-- A rank that is not settled has a silent step, which brings it closer. -/
theorem exists_silent (base : ℕ) (mode : SendMode) {q : ℕ} (hq : q < w.worldSize)
    (hn : ¬w.Settled st q) :
    ∃ a, a.actor = some q ∧ w.Enabled mode st a ∧ w.exchangeLabel base a = none ∧
      waits ((w.next mode st a).rank q).pc < waits (st.rank q).pc := by
  cases hpc : (st.rank q).pc with
  | compute =>
    exact ⟨.compute q, rfl, ⟨hq, hpc⟩, rfl, by simp [next, State.setRank, Rank.compute, waits]⟩
  | cell i j =>
    have hown : w.receiver i j = q := by
      by_contra hne
      exact hn (Or.inl ⟨i, j, hpc, hne⟩)
    exact ⟨.own q i j, rfl, ⟨hq, hpc, hown⟩, rfl, by simp [next, State.setRank, Rank.own, waits]⟩
  | recv i j p => exact absurd (Or.inr ⟨i, j, p, hpc⟩) hn
  | publish =>
    exact ⟨.publish q, rfl, ⟨hq, hpc⟩, rfl, by simp [next, State.setRank, Rank.publish, waits]⟩
  | move =>
    exact ⟨.move q fun _ => 0, rfl, ⟨hq, hpc⟩, rfl, by simp [next, State.setRank, Rank.move, waits]⟩
  | reset => exact ⟨.reset q, rfl, ⟨hq, hpc⟩, rfl, by simp [next, State.setRank, Rank.reset, waits]⟩

/-- Every rank settles without changing the exchange state. -/
theorem exists_settled (mode : SendMode) {q : ℕ} (hq : q < w.worldSize) (h : w.Placed base st) :
    ∃ st', (w.system mode).Reaches st st' ∧ w.Placed base st' ∧
      w.exchangeState base st' = w.exchangeState base st ∧ w.Settled st' q := by
  induction hn : waits (st.rank q).pc using Nat.strong_induction_on generalizing st with
  | _ n ih =>
    by_cases hset : w.Settled st q
    · exact ⟨st, System.Reaches.refl _ st, h, rfl, hset⟩
    · obtain ⟨a, _, he, hl, hlt⟩ := exists_silent base mode hq hset
      have hs : (w.system mode).step st a (w.next mode st a) := ⟨he, rfl⟩
      obtain ⟨st', hr, hp, heq, hset'⟩ := ih _ (hn ▸ hlt) (h.step hs) rfl
      exact ⟨st', (System.Reaches.single hs).trans hr, hp, heq.trans (h.silent hs hl), hset'⟩

/-- A settled rank takes the step that the exchange offers it. -/
theorem exists_move (mode : SendMode) {E : Exchange} {l : Exchange.Label} (h : w.Placed base st)
    (hE : E.parties = w.worldSize) (hown : w.Tracks base E st)
    (he : E.Enabled (w.exchangeState base st) l) (hset : w.Settled st l.party) :
    ∃ a, a.actor = some l.party ∧ w.Enabled mode st a ∧ w.exchangeLabel base a = some l := by
  rcases hset with ⟨i, j, hpc, hne⟩ | ⟨i, j, p, hpc⟩
  · have hat : (st.rank l.party).pc.At i j := Or.inl hpc
    have howner := hown _ i j hat
    rw [← pos_eq hat] at howner
    cases l with
    | post s => exact ⟨.send s i j, rfl, ⟨hE ▸ he.1, hpc, hne⟩, rfl⟩
    | take d s slot tag => exact absurd (howner.symm.trans he.2.2.1) hne
    | pass d => exact absurd (howner.symm.trans he.2.1) hne
  · have hat : (st.rank l.party).pc.At i j := Or.inr ⟨p, hpc⟩
    have howner := hown _ i j hat
    rw [(h.rank _).at_own i j p hpc, ← pos_eq hat] at howner
    have hgot : (w.exchangeState base st).got l.party = p := by
      simp only [exchangeState, hpc, Pc.collected]
    cases l with
    | post s => exact absurd howner he.2
    | take d s slot tag =>
      obtain ⟨hd, hs, _, hg, hslot, hhead⟩ := he
      simp only [Exchange.Label.party] at hgot hpc hat
      simp only [exchangeState, List.head?_map] at hhead
      obtain ⟨m, hm, rfl⟩ := Option.map_eq_some_iff.mp hhead
      rw [pos_eq hat] at hslot
      exact ⟨.recv d s _ i j m _, rfl, ⟨hE ▸ hd, hE ▸ hs, rfl,
        ⟨p, hpc, by rw [← hgot, ← hE]; exact hg⟩, hm, rfl⟩, by rw [hslot]; rfl⟩
    | pass d =>
      obtain ⟨hd, _, hg⟩ := he
      refine ⟨.done d i j, rfl, ⟨hE ▸ hd, p, hpc, ?_⟩, rfl⟩
      rw [← hgot, ← hE]
      simp only [Exchange.Label.party]
      omega

/-- Runs of the exchange lift to runs of the ranks. -/
theorem exists_run (mode : SendMode) {bs : List Exchange.Label} {t : Exchange.State}
    (hr : w.exchange.system.Run Exchange.start bs t) :
    ∃ st, (w.system mode).Reaches w.init st ∧ w.Placed 0 st ∧ w.exchangeState 0 st = t := by
  rw [← exchangeState_init] at hr
  refine System.Run.lift ?_ placed_init hr
  rintro st l _ h ⟨he, rfl⟩
  obtain ⟨st₁, hr₁, h₁, heq, hset⟩ := exists_settled mode (Exchange.party_lt he) h
  rw [← heq] at he ⊢
  obtain ⟨a, _, hen, hl⟩ := exists_move mode h₁ rfl h₁.tracks he hset
  have hs : (w.system mode).step st₁ a (w.next mode st₁ a) := ⟨hen, rfl⟩
  exact ⟨_, hr₁.snoc hs, h₁.step hs, (h₁.visible rfl h₁.tracks hs hl).2⟩

end World

end NoiseLevel.Mpi
