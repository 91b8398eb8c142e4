import NoiseLevel.Core.ExchangeLag
import NoiseLevel.Mpi.CycleIsolation

/-!
# How far a rank runs ahead

Nothing but the receives of its own cells holds a rank back, and a send never blocks. If every
rank owns a cell, the ranks stay within two rounds of each other over all cycles and the
messages in flight are bounded. A rank without a cell leaves all others behind.
-/

namespace NoiseLevel.Mpi

open NoiseLevel.Core

namespace World

variable (w : World)

/-- The cells that a rank has passed since its first cycle. -/
def passed (st : State) (r : ℕ) : ℕ := w.slot 0 (st.rank r).cycle (w.index (st.rank r).pc)

/-- The messages that wait for a rank. -/
def pendingFor (st : State) (d : ℕ) : ℕ :=
  ∑ s ∈ Finset.range w.worldSize, (st.chan s d).length

theorem pending_exchangeState (st : State) (d : ℕ) :
    w.exchange.pending (w.exchangeState 0 st) d = w.pendingFor st d := by
  simp only [Exchange.pending, pendingFor, exchangeState, List.length_map]
  rfl

/-- If there are at least as many cells as ranks, two rounds reach every rank, also where one
cycle ends and the next begins. -/
theorem covering_exchange (h : w.worldSize ≤ w.cells) :
    w.exchange.Covering (2 * w.worldSize - 1) := by
  intro d hd n
  have hd : d < w.worldSize := hd
  have hw := w.worldSize_pos
  have hcell := Nat.mod_lt n w.cells_pos
  have hsplit := Nat.div_add_mod n w.cells
  -- the next cell of the rank, if the cycle goes on long enough
  obtain ⟨k, hk, hown⟩ : ∃ k < w.worldSize, (n % w.cells + k) % w.worldSize = d := by
    have hmod := Nat.mod_lt (n % w.cells) hw
    have hround := Nat.div_add_mod (n % w.cells) w.worldSize
    rcases le_or_gt (n % w.cells % w.worldSize) d with hle | hgt
    · refine ⟨d - n % w.cells % w.worldSize, by omega, ?_⟩
      have heq : n % w.cells + (d - n % w.cells % w.worldSize) =
          w.worldSize * (n % w.cells / w.worldSize) + d := by omega
      rw [heq, Nat.mul_add_mod, Nat.mod_eq_of_lt hd]
    · refine ⟨d + w.worldSize - n % w.cells % w.worldSize, by omega, ?_⟩
      have heq : n % w.cells + (d + w.worldSize - n % w.cells % w.worldSize) =
          w.worldSize * (n % w.cells / w.worldSize + 1) + d := by
        rw [Nat.mul_add, Nat.mul_one]
        omega
      rw [heq, Nat.mul_add_mod, Nat.mod_eq_of_lt hd]
  rcases lt_or_ge (n % w.cells + k) w.cells with hin | hout
  · refine ⟨n + k, by omega, by omega, ?_⟩
    have heq : n + k = w.cells * (n / w.cells) + (n % w.cells + k) := by omega
    simp only [exchange]
    rw [heq, Nat.mul_add_mod, Nat.mod_eq_of_lt hin, hown]
  · refine ⟨n + (w.cells - n % w.cells) + d, by omega, by omega, ?_⟩
    have heq : n + (w.cells - n % w.cells) + d = w.cells * (n / w.cells + 1) + d := by
      rw [Nat.mul_add, Nat.mul_one]
      omega
    simp only [exchange]
    rw [heq, Nat.mul_add_mod, Nat.mod_eq_of_lt (hd.trans_le h), Nat.mod_eq_of_lt hd]

/-- With a whole number of rounds a cycle the ranks own the cells of all cycles in turn. -/
theorem owner_of_dvd (h : w.worldSize ∣ w.cells) (t : ℕ) :
    w.exchange.owner t = t % w.worldSize := Nat.mod_mod_of_dvd _ h

theorem covering_of_dvd (h : w.worldSize ∣ w.cells) : w.exchange.Covering w.worldSize := by
  intro d hd n
  have hd : d < w.worldSize := hd
  have hmod := Nat.mod_lt n w.worldSize_pos
  have hsplit := Nat.div_add_mod n w.worldSize
  rcases le_or_gt (n % w.worldSize) d with hle | hgt
  · refine ⟨w.worldSize * (n / w.worldSize) + d, by omega, by omega, ?_⟩
    rw [w.owner_of_dvd h, Nat.mul_add_mod, Nat.mod_eq_of_lt hd]
  · refine ⟨w.worldSize * (n / w.worldSize + 1) + d, ?_, ?_, ?_⟩
    · rw [Nat.mul_add, Nat.mul_one]
      omega
    · rw [Nat.mul_add, Nat.mul_one]
      omega
    · rw [w.owner_of_dvd h, Nat.mul_add_mod, Nat.mod_eq_of_lt hd]

/-- Then a rank owns at most one of the other cells of a round. -/
theorem owned_round_le (h : w.worldSize ∣ w.cells) (d n : ℕ) :
    w.exchange.owned d (n + (w.worldSize - 1)) ≤ w.exchange.owned d n + 1 := by
  have hround : ∀ k < w.worldSize, w.exchange.owned d (n + k) ≤ w.exchange.owned d n + 1 := by
    intro k hk
    induction k with
    | zero => exact Nat.le_succ _
    | succ k ih =>
      rw [← Nat.add_assoc, Exchange.owned_succ]
      split
      · next hown =>
        -- a second own cell of the round would be owned by the same rank
        by_contra hmore
        obtain ⟨t, ht, htk, hfirst⟩ := w.exchange.exists_slot_of_owned_lt
          (show w.exchange.owned d n < w.exchange.owned d (n + k) by omega)
        rw [w.owner_of_dvd h] at hown hfirst
        have hdvd := (Nat.modEq_iff_dvd' htk.le).mp (hfirst.trans hown.symm)
        exact absurd (Nat.le_of_dvd (by omega) hdvd) (by omega)
      · exact ih (by omega)
  have := w.worldSize_pos
  exact hround _ (by omega)

/-- The distances between the ranks, and what is in flight, in one state. -/
structure LagBounds (st : State) : Prop where
  lag : ∀ r < w.worldSize, ∀ s < w.worldSize,
    w.passed st r ≤ w.passed st s + (2 * w.worldSize - 2)
  pending : ∀ d < w.worldSize,
    w.pendingFor st d ≤ (w.worldSize - 1) * (2 * w.worldSize - 2)
  /-- With a whole number of rounds a cycle, the ranks stay within one round. -/
  lag_of_dvd : w.worldSize ∣ w.cells → ∀ r < w.worldSize, ∀ s < w.worldSize,
    w.passed st r ≤ w.passed st s + (w.worldSize - 1)
  /-- Then no more messages wait for a rank than it takes for one cell. -/
  pending_of_dvd : w.worldSize ∣ w.cells → ∀ d < w.worldSize,
    w.pendingFor st d ≤ w.worldSize - 1

variable {w} {mode : SendMode} {st : State}

/-- In every state of the program the ranks are within two rounds of each other. -/
theorem lagBounds (h : (w.worldSize : ℤ) ≤ w.simConf.maxX * w.simConf.maxY)
    (hr : (w.system mode).Reaches w.init st) : w.LagBounds st := by
  rw [← cells_cast, Nat.cast_le] at h
  obtain ⟨as, hr⟩ := hr
  have hh := Exchange.history_of_run (run_exchange hr).2
  have hcov := w.covering_exchange h
  have hw := w.worldSize_pos
  refine ⟨fun r hr s hs => ?_, fun d hd => ?_, fun hdvd r hr s hs => ?_, fun hdvd d hd => ?_⟩
  · have hlt : w.passed st r < w.passed st s + (2 * w.worldSize - 1) := hh.pos_lt hcov hr hs
    omega
  · rw [← w.pending_exchangeState]
    exact hh.pending_le hcov hd fun n => Exchange.owned_add_le d n _
  · have hlt : w.passed st r < w.passed st s + w.worldSize :=
      hh.pos_lt (w.covering_of_dvd hdvd) hr hs
    omega
  · have hle := hh.pending_le (w.covering_of_dvd hdvd) hd (w.owned_round_le hdvd d)
    rwa [w.pending_exchangeState, Nat.mul_one] at hle

/-- The last of three ranks is two cells ahead, and two messages wait for the first one. -/
theorem lagBounds_allWaiting :
    let st := cellEach.played .nonblocking cellEach.init allWaiting
    cellEach.passed st 2 = 2 ∧ cellEach.pendingFor st 0 = 2 ∧ cellEach.LagBounds st := by
  have hr := @run_steps cellEach .nonblocking cellEach.init allWaiting rfl
  exact ⟨by decide, by decide, @lagBounds cellEach .nonblocking _ (by decide) ⟨_, hr.of_restrict⟩⟩

/-- A rank that owns no cell leaves all others behind, and its messages pile up. -/
theorem exists_far_ahead (mode : SendMode) (h : w.cells < w.worldSize) (k : ℕ) :
    ∃ st, (w.system mode).Reaches w.init st ∧ w.passed st 0 = 0 ∧
      w.passed st (w.worldSize - 1) = k ∧
      ∑ d ∈ Finset.range w.worldSize, w.pendingFor st d = k := by
  have hcells := w.cells_pos
  have hidle : ∀ t, w.exchange.owner t ≠ w.worldSize - 1 := by
    intro t
    have hlt := Nat.mod_lt t hcells
    simp only [exchange]
    rw [Nat.mod_eq_of_lt (hlt.trans h)]
    omega
  obtain ⟨as, x, hrun, hpos, hother, hsum⟩ := Exchange.exists_ahead (E := w.exchange)
    (show w.worldSize - 1 < w.worldSize by omega) hidle k
  obtain ⟨st, hreach, -, rfl⟩ := exists_run mode hrun
  refine ⟨st, hreach, hother 0 (by omega), hpos, ?_⟩
  rw [← hsum]
  exact Finset.sum_congr rfl fun d _ => (w.pending_exchangeState st d).symm

/-- The ranks stay within some distance of each other exactly when there are at least as many
cells as ranks, and the same holds for the number of messages in flight. Otherwise the last rank
gets any distance ahead of the first one. -/
theorem lag_bounded_iff (w : World) (mode : SendMode) :
    ((∃ bound, ∀ st, (w.system mode).Reaches w.init st → ∀ r < w.worldSize, ∀ s < w.worldSize,
      w.passed st r ≤ w.passed st s + bound) ↔
        (w.worldSize : ℤ) ≤ w.simConf.maxX * w.simConf.maxY) ∧
    ((∃ bound, ∀ st, (w.system mode).Reaches w.init st →
      ∑ d ∈ Finset.range w.worldSize, w.pendingFor st d ≤ bound) ↔
        (w.worldSize : ℤ) ≤ w.simConf.maxX * w.simConf.maxY) ∧
    (w.simConf.maxX * w.simConf.maxY < w.worldSize → ∀ k, ∃ st,
      (w.system mode).Reaches w.init st ∧ w.passed st 0 = 0 ∧ w.passed st (w.worldSize - 1) = k ∧
        ∑ d ∈ Finset.range w.worldSize, w.pendingFor st d = k) := by
  have hw := w.worldSize_pos
  refine ⟨⟨?_, fun h => ⟨_, fun st hr => (lagBounds h hr).lag⟩⟩, ⟨?_, fun h => ?_⟩, fun h k => ?_⟩
  · rintro ⟨bound, hbound⟩
    rw [← cells_cast, Nat.cast_le]
    by_contra hless
    obtain ⟨st, hr, hzero, hfar, -⟩ := exists_far_ahead mode (not_le.mp hless) (bound + 1)
    have hle := hbound st hr (w.worldSize - 1) (by omega) 0 hw
    omega
  · rintro ⟨bound, hbound⟩
    rw [← cells_cast, Nat.cast_le]
    by_contra hless
    obtain ⟨st, hr, -, -, hsum⟩ := exists_far_ahead mode (not_le.mp hless) (bound + 1)
    have hle := hbound st hr
    omega
  · refine ⟨(Finset.range w.worldSize).card * ((w.worldSize - 1) * (2 * w.worldSize - 2)),
      fun st hr => ?_⟩
    exact Finset.sum_le_card_nsmul _ _ _ fun d hd =>
      (lagBounds h hr).pending d (Finset.mem_range.mp hd)
  · rw [← cells_cast, Nat.cast_lt] at h
    exact exists_far_ahead mode h k

end World

end NoiseLevel.Mpi
