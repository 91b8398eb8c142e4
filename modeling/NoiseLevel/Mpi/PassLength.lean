import NoiseLevel.Core.ExchangeLag
import NoiseLevel.Mpi.CellMatching

/-!
# Every order of the ranks ends the pass

A rank spends one step on a cell of another rank, and on an own cell one step to store its
level, one for each of the others and one to go on. No rank can be kept from its steps, so
one pass of the double loop has the same number of steps under every schedule.
-/

namespace NoiseLevel.Mpi

open NoiseLevel.Core

/-- The rank is inside the double loop or just behind it. -/
def Pc.InLoop : Pc → Prop
  | .cell _ _ | .recv _ _ _ | .publish => True
  | _ => False

/-- Steps that a rank has taken at its current cell. -/
def Pc.begun : Pc → ℕ
  | .recv _ _ p => p + 1
  | _ => 0

namespace World

variable (w : World)

/-- Steps that a rank has taken since it entered the double loop. -/
def stepsTaken (r : ℕ) (pc : Pc) : ℕ :=
  w.index pc + w.worldSize * w.turns.owned r (w.index pc) + pc.begun

/-- Steps of a rank in a whole pass. -/
def rankSteps (r : ℕ) : ℕ := w.cells + w.worldSize * w.turns.owned r w.cells

/-- Every cell costs each rank a step, and its owner one more for every rank. -/
theorem sum_rankSteps : ∑ r ∈ Finset.range w.worldSize, w.rankSteps r =
    2 * w.worldSize * w.cells := by
  have hown : ∑ r ∈ Finset.range w.worldSize, w.turns.owned r w.cells = w.cells :=
    Exchange.sum_owned (E := w.turns) w.cells
  simp only [rankSteps, Finset.sum_add_distrib, Finset.sum_const, Finset.card_range, smul_eq_mul,
    ← Finset.mul_sum, hown]
  ring

variable {w} {base : ℕ} {start st st' : State} {r i j : ℕ}

theorem begun_afterCell : (w.afterCell i j).begun = 0 := by
  rcases afterCell_cases (w := w) i j with ⟨i', j', h⟩ | h <;> rw [h] <;> rfl

theorem inLoop_afterCell : (w.afterCell i j).InLoop := by
  rcases afterCell_cases (w := w) i j with ⟨i', j', h⟩ | h <;> rw [h] <;> trivial

theorem owned_cell (r i j : ℕ) : w.turns.owned r (w.cellIndex i j + 1) =
    w.turns.owned r (w.cellIndex i j) + if w.receiver i j = r then 1 else 0 :=
  Exchange.owned_succ w.turns r (w.cellIndex i j)

/-- What a rank has taken when it leaves a cell. -/
theorem stepsTaken_afterCell (hi : i < w.rows) (hj : j < w.columns) (r : ℕ) :
    w.stepsTaken r (w.afterCell i j) = w.cellIndex i j + 1 + w.worldSize *
      (w.turns.owned r (w.cellIndex i j) + if w.receiver i j = r then 1 else 0) := by
  rw [stepsTaken, begun_afterCell, index_afterCell w hi hj, owned_cell, Nat.add_zero]

/-- Every step of the pass is one step of one rank. -/
theorem InCycle.stepsTaken_step {a : Action} (h : w.InCycle base st)
    (hs : w.pass.step st a st') : ∃ r < w.worldSize, ∀ q,
      w.stepsTaken q (st'.rank q).pc = w.stepsTaken q (st.rank q).pc + if q = r then 1 else 0 := by
  have hone : ∀ {st' : State} {r : ℕ} {k : Rank}, st'.rank = Function.update st.rank r k →
      r < w.worldSize → w.stepsTaken r k.pc = w.stepsTaken r (st.rank r).pc + 1 →
      ∃ r < w.worldSize, ∀ q, w.stepsTaken q (st'.rank q).pc =
        w.stepsTaken q (st.rank q).pc + if q = r then 1 else 0 := by
    intro st' r k hrank hr hk
    refine ⟨r, hr, fun q => ?_⟩
    rw [hrank]
    rcases eq_or_ne q r with rfl | hq
    · simpa using hk
    · simp [hq]
  obtain ⟨⟨he, rfl⟩, hin⟩ := hs
  cases a with
  | send r i j =>
    obtain ⟨hr, hpc, hne⟩ := he
    obtain ⟨hi, hj⟩ := (h.placed.rank r).at_cell i j (Or.inl hpc)
    apply hone rfl hr
    rw [Rank.sent, stepsTaken_afterCell hi hj, if_neg hne, hpc]
    simp only [stepsTaken, index, Pc.begun, Nat.add_zero]
    omega
  | own r i j =>
    obtain ⟨hr, hpc, _⟩ := he
    apply hone rfl hr
    rw [hpc]
    rfl
  | recv r s cycle i j m v =>
    obtain ⟨hr, _, _, ⟨p, hpc, _⟩, _⟩ := he
    apply hone rfl hr
    simp only [Rank.received, hpc]
    rfl
  | done r i j =>
    obtain ⟨hr, p, hpc, hp⟩ := he
    obtain ⟨hi, hj⟩ := (h.placed.rank r).at_cell i j (Or.inr ⟨p, hpc⟩)
    have hlt := (h.placed.rank r).collected_lt
    rw [hpc, Pc.collected] at hlt
    apply hone rfl hr
    rw [Rank.done, stepsTaken_afterCell hi hj, if_pos ((h.placed.rank r).at_own i j p hpc), hpc]
    simp only [stepsTaken, index, Pc.begun, Nat.mul_add, Nat.mul_one]
    omega
  | compute | publish | move | reset | copy => exact hin.elim

/-- Inside the pass no rank leaves the double loop. -/
theorem inLoop_step {a : Action} (h : ∀ r, (st.rank r).pc.InLoop) (hs : w.pass.step st a st')
    (q : ℕ) : (st'.rank q).pc.InLoop := by
  have hset : ∀ {r : ℕ} {k : Rank} {chan : ℕ → ℕ → List Message}, k.pc.InLoop →
      ((⟨Function.update st.rank r k, chan⟩ : State).rank q).pc.InLoop := by
    intro r k chan hk
    rcases eq_or_ne q r with rfl | hq
    · simpa using hk
    · simpa [hq] using h q
  obtain ⟨⟨he, rfl⟩, hin⟩ := hs
  cases a with
  | send r i j => exact hset inLoop_afterCell
  | own r i j => exact hset trivial
  | recv r s cycle i j m v =>
    obtain ⟨_, _, _, ⟨p, hpc, _⟩, _⟩ := he
    apply hset
    simp only [Rank.received, hpc]
    trivial
  | done r i j => exact hset inLoop_afterCell
  | compute | publish | move | reset | copy => exact hin.elim

/-- What a pass keeps of the number of steps. -/
structure Counted (w : World) (base : ℕ) (as : List Action) (st : State) : Prop where
  inCycle : w.InCycle base st
  inLoop : ∀ r, (st.rank r).pc.InLoop
  length_eq : as.length = ∑ r ∈ Finset.range w.worldSize, w.stepsTaken r (st.rank r).pc

theorem counted_of_run (hs : CleanStart base start) {as : List Action}
    (hr : w.pass.Run start as st) : w.Counted base as st := by
  refine hr.invariant (w.Counted base) ⟨inCycle_start hs, fun r => ?_, ?_⟩ ?_
  · rw [hs.first r]
    trivial
  · refine (Finset.sum_eq_zero fun r _ => ?_).symm
    rw [hs.first r]
    simp [stepsTaken, index, cellIndex, Pc.begun, Exchange.owned, Exchange.slots]
  · intro as st a st' _ h hstep
    obtain ⟨r, hr, hone⟩ := h.inCycle.stepsTaken_step hstep
    refine ⟨h.inCycle.step hstep, inLoop_step h.inLoop hstep, ?_⟩
    rw [List.length_append, h.length_eq, Finset.sum_congr rfl fun q _ => hone q,
      Finset.sum_add_distrib, Finset.sum_ite_eq', if_pos (Finset.mem_range.mpr hr)]
    rfl

/-- A rank that is not behind the double loop has steps left in it. -/
theorem Counted.stepsTaken_lt {as : List Action} (h : w.Counted base as st) {r : ℕ}
    (hpc : (st.rank r).pc ≠ .publish) : w.stepsTaken r (st.rank r).pc < w.rankSteps r := by
  have hplaced := h.inCycle.placed.rank r
  have hloop := h.inLoop r
  cases hk : (st.rank r).pc with
  | cell i j =>
    obtain ⟨hi, hj⟩ := hplaced.at_cell i j (Or.inl hk)
    have hlt := w.cellIndex_lt hi hj
    have hmono := Nat.mul_le_mul_left w.worldSize (w.turns.owned_mono r hlt.le)
    simp only [stepsTaken, rankSteps, index, Pc.begun]
    omega
  | recv i j p =>
    obtain ⟨hi, hj⟩ := hplaced.at_cell i j (Or.inr ⟨p, hk⟩)
    have hlt := w.cellIndex_lt hi hj
    have hp := hplaced.collected_lt
    rw [hk, Pc.collected] at hp
    have hown := w.owned_cell r i j
    rw [if_pos (hplaced.at_own i j p hk)] at hown
    have hmono := Nat.mul_le_mul_left w.worldSize (w.turns.owned_mono r hlt)
    rw [hown, Nat.mul_add, Nat.mul_one] at hmono
    simp only [stepsTaken, rankSteps, index, Pc.begun]
    omega
  | publish => exact absurd hk hpc
  | compute | move | reset =>
    rw [hk] at hloop
    exact hloop.elim

theorem Counted.stepsTaken_le {as : List Action} (h : w.Counted base as st) (r : ℕ) :
    w.stepsTaken r (st.rank r).pc ≤ w.rankSteps r := by
  by_cases hpc : (st.rank r).pc = .publish
  · rw [hpc]
    exact le_rfl
  · exact (h.stepsTaken_lt hpc).le

/-- A rank that is furthest behind takes the next step of the pass. -/
theorem exists_passStep (hs : CleanStart base start) {as : List Action}
    (hr : w.pass.Run start as st) (hopen : ∃ r < w.worldSize, (st.rank r).pc ≠ .publish) :
    ∃ a, a.InPass ∧ w.Enabled .buffered st a := by
  have h := counted_of_run hs hr
  have hex := ((w.pass_refines base).run hr (inCycle_start hs)).2
  rw [exchangeState_start hs] at hex
  obtain ⟨l, hl, hmin⟩ := (Exchange.history_of_run hex).exists_enabled
  have hparty : l.party < w.worldSize := Exchange.party_lt hl
  have hpos : ∀ q, (w.exchangeState base st).pos q = w.index (st.rank q).pc := by
    intro q
    simp only [exchangeState, h.inCycle.cycle q, slot_base]
  -- that rank is still at a cell, because some rank is
  have hcell : w.index (st.rank l.party).pc < w.cells := by
    obtain ⟨r, hr, hpc⟩ := hopen
    have hle := hmin r hr
    rw [hpos, hpos] at hle
    apply lt_of_le_of_lt hle
    have hloop := h.inLoop r
    cases hk : (st.rank r).pc with
    | cell i j =>
      obtain ⟨hi, hj⟩ := (h.inCycle.placed.rank r).at_cell i j (Or.inl hk)
      exact w.cellIndex_lt hi hj
    | recv i j p =>
      obtain ⟨hi, hj⟩ := (h.inCycle.placed.rank r).at_cell i j (Or.inr ⟨p, hk⟩)
      exact w.cellIndex_lt hi hj
    | publish => exact absurd hk hpc
    | compute | move | reset =>
      rw [hk] at hloop
      exact hloop.elim
  by_cases hset : w.Settled st l.party
  · obtain ⟨a, _, he, hlabel⟩ :=
      exists_move .buffered h.inCycle.placed rfl h.inCycle.tracks hl hset
    refine ⟨a, ?_, he⟩
    cases a with
    | send | own | recv | done => trivial
    | compute | publish | move | reset | copy => cases hlabel
  · have hloop := h.inLoop l.party
    cases hk : (st.rank l.party).pc with
    | cell i j =>
      refine ⟨.own l.party i j, trivial, hparty, hk, ?_⟩
      by_contra hne
      exact hset (Or.inl ⟨i, j, hk, hne⟩)
    | recv i j p => exact absurd (Or.inr ⟨i, j, p, hk⟩) hset
    | publish =>
      rw [hk] at hcell
      exact absurd hcell (lt_irrefl _)
    | compute | move | reset =>
      rw [hk] at hloop
      exact hloop.elim

/-- The length of a pass of a clean state. -/
theorem passLength_of_clean (hs : CleanStart base start) {as : List Action}
    (hr : w.pass.Run start as st) :
    as.length ≤ 2 * w.worldSize * w.cells ∧
    (as.length = 2 * w.worldSize * w.cells ↔ ∀ r < w.worldSize, (st.rank r).pc = .publish) ∧
    (as.length < 2 * w.worldSize * w.cells → ∃ a, a.InPass ∧ w.Enabled .buffered st a) := by
  have h := counted_of_run hs hr
  have hle : ∀ r ∈ Finset.range w.worldSize,
      w.stepsTaken r (st.rank r).pc ≤ w.rankSteps r := fun r _ => h.stepsTaken_le r
  have hiff : as.length = 2 * w.worldSize * w.cells ↔
      ∀ r < w.worldSize, (st.rank r).pc = .publish := by
    rw [h.length_eq, ← sum_rankSteps, Finset.sum_eq_sum_iff_of_le hle]
    constructor
    · intro hall r hr
      by_contra hpc
      exact (h.stepsTaken_lt hpc).ne (hall r (Finset.mem_range.mpr hr))
    · intro hall r hr
      rw [hall r (Finset.mem_range.mp hr)]
      rfl
  refine ⟨?_, hiff, fun hlt => ?_⟩
  · rw [h.length_eq, ← sum_rankSteps]
    exact Finset.sum_le_sum hle
  · apply exists_passStep hs hr
    by_contra hnone
    push Not at hnone
    exact hlt.ne (hiff.mpr hnone)

/-- The length of a pass does not depend on the schedule: until all ranks are behind the double
loop some rank has a step, and then exactly this many steps have been taken. -/
theorem pass_length (hs : w.PassStart base start) {as : List Action}
    (hr : w.pass.Run start as st) :
    as.length ≤ 2 * w.worldSize * w.cells ∧
    (as.length = 2 * w.worldSize * w.cells ↔ ∀ r < w.worldSize, (st.rank r).pc = .publish) ∧
    (as.length < 2 * w.worldSize * w.cells → ∃ a st', w.pass.step st a st') := by
  obtain ⟨hle, hiff, hnext⟩ := passLength_of_clean hs.upTo (upTo_run hr _)
  refine ⟨hle, hiff.trans (forall₂_congr fun r hr => by rw [upTo_rank hr]), fun hlt => ?_⟩
  obtain ⟨a, hin, he⟩ := hnext hlt
  exact ⟨a, w.next .buffered st a, ⟨(upTo_enabled hin _).mp he, rfl⟩, hin⟩

/-- The pass of two ranks over three cells takes twelve steps, and has a next one before. -/
theorem pass_length_threeCells :
    (threeCells.steps .buffered unevenStart unevenPass).length =
        2 * threeCells.worldSize * threeCells.cells ∧
      (threeCells.steps .buffered unevenStart (unevenPass.take 8)).length <
        2 * threeCells.worldSize * threeCells.cells ∧
      ∃ a st', threeCells.pass.step
        (threeCells.played .buffered unevenStart (unevenPass.take 8)) a st' := by
  have hs : threeCells.PassStart 0 unevenStart :=
    ⟨fun _ _ => rfl, fun _ _ => rfl, fun _ _ => rfl, fun _ _ _ _ => rfl⟩
  obtain ⟨-, hiff, -⟩ :=
    pass_length hs (@pass_steps threeCells unevenStart unevenPass rfl (by decide))
  obtain ⟨hle, hdone, hnext⟩ :=
    pass_length hs (@pass_steps threeCells unevenStart (unevenPass.take 8) rfl (by decide))
  have hopen : ¬∀ r < 2, ((threeCells.played .buffered unevenStart
      (unevenPass.take 8)).rank r).pc = .publish := by decide
  have hlt := lt_of_le_of_ne hle fun heq => hopen (hdone.mp heq)
  exact ⟨hiff.mpr (by decide), hlt, hnext hlt⟩

end World

end NoiseLevel.Mpi
