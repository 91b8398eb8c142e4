import NoiseLevel.Mpi.Schedule
import NoiseLevel.Mpi.ShuffleExchange

/-!
# Cycle isolation and progress

Nothing but the cells a rank owns itself keeps it from running ahead into the next
cycle. When the number of cells is a multiple of the number of ranks, round-robin
ownership continues across the cycles and nobody gets far enough. Otherwise the first
rank owns the last full round of one cycle and the first cell of the next, and a rank
that owns nothing between can serve it twice.
-/

namespace NoiseLevel.Mpi

open NoiseLevel.Core

namespace World

variable {w : World} {mode : SendMode}

/-- Every received value was posted in the cycle of its receiver. -/
def CycleIsolated (w : World) (mode : SendMode) : Prop :=
  ∀ st, (w.system mode).Reaches w.init st → ∀ r s cycle i j m v,
    w.Enabled mode st (.recv r s cycle i j m v) → m.cycle = cycle

/-- With a whole number of rounds a cycle, every other rank owns a cell between any two
cells of one owner. -/
theorem separated_exchange (h : w.worldSize ∣ w.cells) : w.exchange.Separated := by
  have hturn : w.exchange = Exchange.roundRobin w.worldSize w.worldSize_pos := by
    simp only [exchange, Exchange.roundRobin, Nat.mod_mod_of_dvd _ h]
  rw [hturn]
  exact Exchange.separated_roundRobin w.worldSize_pos

/-- Isolation holds when the owners of consecutive cycles continue each other. -/
theorem cycleIsolated (h : w.worldSize ≤ 2 ∨ w.worldSize ∣ w.cells) : w.CycleIsolated mode := by
  rintro st ⟨as, hr⟩ r s cycle i j m v he
  obtain ⟨hp, hrun⟩ := run_exchange hr
  have hs : (w.system mode).step st (.recv r s cycle i j m v)
      (w.next mode st (.recv r s cycle i j m v)) := ⟨he, rfl⟩
  have htake := (hp.visible rfl hp.tracks hs rfl).1
  have htag := Exchange.tag_eq_slot (h.imp_right separated_exchange) hrun htake
  obtain ⟨_, _, rfl, ⟨p, hpc, _⟩, hm, _⟩ := he
  obtain ⟨hi, hj⟩ := (hp.rank r).at_cell i j (Or.inr ⟨p, hpc⟩)
  exact ((hp.chan s r m (List.mem_of_mem_head? hm)).slot_inj (Nat.zero_le _) hi hj htag).1

/-- The owners in the last, incomplete round of a cycle. -/
theorem owner_lastRound {e : ℕ} (he : e < w.cells % w.worldSize) :
    w.exchange.owner (w.worldSize * (w.cells / w.worldSize) + e) = e := by
  have hlt := Nat.mod_lt w.cells w.worldSize_pos
  have hsplit := Nat.div_add_mod w.cells w.worldSize
  simp only [exchange]
  rw [Nat.mod_eq_of_lt (show _ < w.cells by omega), Nat.mul_add_mod, Nat.mod_eq_of_lt (by omega)]

/-- An exchange in which the first rank is served for the next cycle too early. -/
theorem exists_overtake_lastRound (hw : 3 ≤ w.worldSize) (hdvd : ¬w.worldSize ∣ w.cells) :
    ∃ as x, w.exchange.system.Run Exchange.start as x ∧
      w.exchange.Enabled x (.take 0 (w.worldSize - 1)
        (w.worldSize * (w.cells / w.worldSize)) w.cells) := by
  have hres : 0 < w.cells % w.worldSize :=
    Nat.pos_of_ne_zero fun h => hdvd (Nat.dvd_of_mod_eq_zero h)
  have hlt := Nat.mod_lt w.cells w.worldSize_pos
  have hsplit := Nat.div_add_mod w.cells w.worldSize
  have hnext : w.exchange.owner w.cells = 0 := by simp [exchange]
  have hnone : ∀ u, w.worldSize * (w.cells / w.worldSize) < u → u < w.cells →
      w.exchange.owner u ≠ 0 := by
    intro u hu hu'
    obtain ⟨e, rfl⟩ := Nat.exists_eq_add_of_lt hu
    rw [Nat.add_assoc, owner_lastRound (by omega)]
    omega
  have hfree : ∀ u, w.worldSize * (w.cells / w.worldSize) ≤ u → u ≤ w.cells →
      w.exchange.owner u ≠ w.worldSize - 1 := by
    intro u hu hu'
    rcases hu'.lt_or_eq with hlt' | rfl
    · obtain ⟨e, rfl⟩ := Nat.exists_eq_add_of_le hu
      rw [owner_lastRound (by omega)]
      omega
    · omega
  have hlast : w.worldSize - 1 < w.exchange.parties := by
    simp only [exchange]
    omega
  exact Exchange.exists_overtake (E := w.exchange) hw (by omega) (owner_lastRound hres) hnext hnone
    hlast (by omega) hfree

/-- With three ranks and an incomplete last round, the first rank can receive the first
cell of the next cycle from the last rank while it collects its own last cell. -/
theorem not_cycleIsolated (hw : 3 ≤ w.worldSize) (hdvd : ¬w.worldSize ∣ w.cells) :
    ¬w.CycleIsolated mode := by
  intro hiso
  obtain ⟨as, x, hrun, hx⟩ := exists_overtake_lastRound hw hdvd
  obtain ⟨st, hreach, hp, rfl⟩ := exists_run mode hrun
  obtain ⟨st', hreach', hp', heq, hset⟩ :=
    exists_settled mode (q := 0) w.worldSize_pos hp
  rw [← heq] at hx
  obtain ⟨a, _, he, hl⟩ := exists_move mode hp' rfl hp'.tracks hx hset
  cases a with
  | recv r s cycle i j m v =>
    simp only [exchangeLabel, Option.some.injEq, Exchange.Label.take.injEq] at hl
    obtain ⟨_, _, hslot, htag⟩ := hl
    have hcycle := hiso st' (hreach.trans hreach') r s cycle i j m v he
    obtain ⟨_, _, rfl, ⟨p, hpc, _⟩, hm, _⟩ := he
    have hcell := w.cellIndex_lt (hp'.chan s r m (List.mem_of_mem_head? hm)).row
      (hp'.chan s r m (List.mem_of_mem_head? hm)).column
    unfold slot at hslot htag
    have hsplit := Nat.div_add_mod w.cells w.worldSize
    -- the message lies a whole cycle ahead of the receiver
    have hone : 1 ≤ m.cycle := by
      by_contra hzero
      rw [show m.cycle - 0 = 0 by omega] at htag
      omega
    have := Nat.mul_le_mul_right w.cells (show 1 ≤ (st'.rank r).cycle - 0 by omega)
    omega
  | compute | send | own | done | publish | move | reset | copy => cases hl

theorem cells_cast (w : World) : (w.cells : ℤ) = w.simConf.maxX * w.simConf.maxY :=
  (cells_eq w.maxX_pos w.maxY_pos).symm

/-- Cycles are isolated exactly when there are at most two ranks or the number of ranks
divides the number of cells. -/
theorem cycleIsolated_iff (w : World) (mode : SendMode) : w.CycleIsolated mode ↔
    w.worldSize ≤ 2 ∨ (w.worldSize : ℤ) ∣ w.simConf.maxX * w.simConf.maxY := by
  rw [← cells_cast, Int.natCast_dvd_natCast]
  constructor
  · intro h
    by_contra hno
    push Not at hno
    exact not_cycleIsolated hno.1 hno.2 h
  · exact cycleIsolated

/-- One of three ranks can receive a level of the next cycle. -/
theorem not_cycleIsolated_threeRanks : ¬threeRanks.CycleIsolated .buffered :=
  not_cycleIsolated (by decide) (by decide)

/-- Some rank can always take a step. -/
theorem deadlock_free {st : State} (hr : (w.system mode).Reaches w.init st) :
    ∃ r < w.worldSize, ∃ a, Action.actor a = some r ∧ w.Enabled mode st a := by
  obtain ⟨as, hr⟩ := hr
  obtain ⟨hp, hrun⟩ := run_exchange hr
  obtain ⟨l, hl, _⟩ := (Exchange.history_of_run hrun).exists_enabled
  have hparty : l.party < w.worldSize := Exchange.party_lt hl
  refine ⟨l.party, hparty, ?_⟩
  by_cases hset : w.Settled st l.party
  · obtain ⟨a, ha, he, _⟩ := exists_move mode hp rfl hp.tracks hl hset
    exact ⟨a, ha, he⟩
  · obtain ⟨a, ha, he, _⟩ := exists_silent 0 mode hparty hset
    exact ⟨a, ha, he⟩

/-- Three ranks with one cell each. -/
def cellEach : World := { threeCells with worldSize := 3, worldSize_pos := Nat.succ_pos 2 }

/-- Every rank enters its own cell. -/
def allWaiting : List Turn :=
  [.rank 0 0, .rank 0 0, .rank 1 0, .rank 1 0, .rank 1 0, .rank 2 0, .rank 2 0, .rank 2 0,
    .rank 2 0]

/-- All ranks wait for the others, and three messages are in flight. -/
theorem deadlock_free_allWaiting :
    let st := cellEach.played .nonblocking cellEach.init allWaiting
    (∀ r < 3, (st.rank r).pc = .recv 0 r 0) ∧
      ((st.chan 1 0).length = 1 ∧ (st.chan 2 0).length = 1 ∧ (st.chan 2 1).length = 1) ∧
      ∃ r < 3, ∃ a, Action.actor a = some r ∧ cellEach.Enabled .nonblocking st a := by
  have hr := @run_steps cellEach .nonblocking cellEach.init allWaiting rfl
  exact ⟨by decide, by decide, @deadlock_free cellEach .nonblocking _ ⟨_, hr.of_restrict⟩⟩

end World

end NoiseLevel.Mpi
