import NoiseLevel.Mpi.Schedule
import NoiseLevel.Mpi.ShuffleExchange

/-!
# Matching inside one pass of the double loop

Started together and with no message in flight, the ranks take turns as owners until the
end of the pass. Every owner then receives one message from each other rank, posted for
the very cell it collects, and folds the values into the slot of that cell.
-/

namespace NoiseLevel.Mpi

open NoiseLevel.Core

/-- The steps of the double loop. -/
def Action.InPass : Action → Prop
  | .send _ _ _ | .own _ _ _ | .recv _ _ _ _ _ _ _ | .done _ _ _ => True
  | _ => False

/-- What one receive obtained. -/
structure Delivery where
  source : ℕ
  message : Message
  value : ℤ

/-- What a rank received while it stood at a cell, in order. -/
def deliveries (as : List Action) (r i j : ℕ) : List Delivery :=
  as.filterMap fun
    | .recv r' s _ i' j' m v => if r' = r ∧ i' = i ∧ j' = j then some ⟨s, m, v⟩ else none
    | _ => none

/-- The level of a cell after some deliveries have been folded into the own level. -/
noncomputable def foldedLevel (level : ℤ) (got : List Delivery) : ℤ :=
  (got.map Delivery.value).foldl sumNoises level

/-- What was received with one more step. -/
theorem deliveries_snoc (as : List Action) (a : Action) (r i j : ℕ) :
    deliveries (as ++ [a]) r i j = deliveries as r i j ++ deliveries [a] r i j := by
  simp only [deliveries, List.filterMap_append]

/-- A receive delivers at its own cell only. -/
theorem deliveries_recv (r s cycle i j : ℕ) (m : Message) (v : ℤ) (r' i' j' : ℕ) :
    deliveries [.recv r s cycle i j m v] r' i' j' =
      if r = r' ∧ i = i' ∧ j = j' then [⟨s, m, v⟩] else [] := by
  unfold deliveries
  split <;> simp [*]

namespace World

variable {w : World} {base : ℕ} {start st st' : State}

/-- One execution of the double loop on all ranks, with values copied at the send. -/
def pass (w : World) : System State Action := (w.system .buffered).restrict fun _ a => a.InPass

/-- All ranks are about to enter the double loop, and no message is in flight. -/
structure PassStart (w : World) (base : ℕ) (st : State) : Prop where
  first : ∀ r < w.worldSize, (st.rank r).pc = .cell 0 0
  cycle : ∀ r < w.worldSize, (st.rank r).cycle = base
  count : ∀ r < w.worldSize, (st.rank r).count = 0
  chan : ∀ s < w.worldSize, ∀ d < w.worldSize, st.chan s d = []

/-- Nothing else is in the state. -/
structure CleanStart (base : ℕ) (st : State) : Prop where
  first : ∀ r, (st.rank r).pc = .cell 0 0
  cycle : ∀ r, (st.rank r).cycle = base
  count : ∀ r, (st.rank r).count = 0
  chan : ∀ s d, st.chan s d = []

/-- What holds of one rank and the deliveries it got at each cell. -/
structure FoldingRank (w : World) (start : State) (r : ℕ) (got : ℕ → ℕ → List Delivery)
    (k : Rank) : Prop where
  matrix : k.noiseSqm = (start.rank r).noiseSqm
  counts : CountsOwn w.worldSize r (w.index k.pc) k.count
  /-- Nothing is received for a cell before it is entered as an own cell. -/
  ahead : ∀ i j, i < w.rows → j < w.columns → w.index k.pc < w.cellIndex i j ∨ k.pc = .cell i j →
    got i j = []
  /-- The slot of the current cell holds the values received so far. -/
  collecting : ∀ i j p, k.pc = .recv i j p →
    k.myNoises k.count = some ⟨foldedLevel ((start.rank r).noiseSqm i j) (got i j), j, i⟩
  finished : ∀ i j, i < w.rows → j < w.columns → w.receiver i j = r →
    w.cellIndex i j < w.index k.pc → k.myNoises (w.cellIndex i j / w.worldSize) =
      some ⟨foldedLevel ((start.rank r).noiseSqm i j) (got i j), j, i⟩
  values : ∀ i j, ∀ x ∈ got i j,
    x.value = (start.rank x.source).noiseSqm x.message.i x.message.j

variable {r i j : ℕ} {got : ℕ → ℕ → List Delivery} {k : Rank}

/-- The own cell in slot `count`, by its linear index. -/
theorem FoldingRank.slot_eq (h : w.FoldingRank start r got k) (hr : r < w.worldSize)
    (hat : k.pc.At i j) (hown : w.receiver i j = r) : w.cellIndex i j / w.worldSize = k.count := by
  have hc := h.counts
  rw [w.index_at hat] at hc
  have hnext := hc.next_eq hr hown
  rw [← hnext, Nat.add_mul_div_right _ _ w.worldSize_pos, Nat.div_eq_of_lt hr, Nat.zero_add]

/-- Slots of finished cells lie below the next slot. -/
theorem FoldingRank.slot_lt (h : w.FoldingRank start r got k) (hown : w.receiver i j = r)
    (hlt : w.cellIndex i j < w.index k.pc) : w.cellIndex i j / w.worldSize < k.count := by
  rw [h.counts, ← hown, receiver_eq, Nat.mod_add_div']
  exact hlt

/-- Sending an entry folds nothing. -/
theorem FoldingRank.sent (h : w.FoldingRank start r got k) (hr : r < w.worldSize)
    (hi : i < w.rows) (hj : j < w.columns) (hpc : k.pc = .cell i j) (hne : w.receiver i j ≠ r) :
    w.FoldingRank start r got (k.sent w i j) := by
  have hat : k.pc.At i j := Or.inl hpc
  have hindex : w.index (k.sent w i j).pc = w.index k.pc + 1 := by
    rw [w.index_at hat, Rank.sent, index_afterCell w hi hj]
  constructor
  · exact h.matrix
  · rw [hindex]
    exact h.counts.other hr (by rw [w.index_at hat]; exact hne)
  · intro i' j' hi' hj' hahead
    refine h.ahead i' j' hi' hj' (Or.inl ?_)
    rcases hahead with hlt | hcell
    · omega
    · have := w.index_at (Or.inl hcell)
      omega
  · intro i' j' p hrecv
    exact absurd hrecv (afterCell_ne_recv i j i' j' p)
  · intro i' j' hi' hj' hown hlt
    rw [hindex] at hlt
    refine h.finished i' j' hi' hj' hown (lt_of_le_of_ne (Nat.lt_succ_iff.mp hlt) ?_)
    intro heq
    rw [w.index_at hat] at heq
    obtain ⟨rfl, rfl⟩ := w.cellIndex_inj hj' hj heq
    exact hne hown
  · exact h.values

/-- Entering an own cell stores the own level. -/
theorem FoldingRank.own (h : w.FoldingRank start r got k)
    (hi : i < w.rows) (hj : j < w.columns) (hpc : k.pc = .cell i j) :
    w.FoldingRank start r got (k.own i j) := by
  have hat : k.pc.At i j := Or.inl hpc
  have hindex : w.index (k.own i j).pc = w.index k.pc := (w.index_at hat).symm
  constructor
  · exact h.matrix
  · rw [hindex]
    exact h.counts
  · intro i' j' hi' hj' hahead
    refine h.ahead i' j' hi' hj' (Or.inl ?_)
    rcases hahead with hlt | hcell
    · rwa [hindex] at hlt
    · cases hcell
  · intro i' j' p hrecv
    cases hrecv
    rw [h.ahead i j hi hj (Or.inr hpc), foldedLevel, List.map_nil, List.foldl_nil, ← h.matrix]
    simp [Rank.own]
  · intro i' j' hi' hj' hown hlt
    rw [hindex] at hlt
    rw [← h.finished i' j' hi' hj' hown hlt]
    exact Function.update_of_ne (h.slot_lt hown hlt).ne _ _
  · exact h.values

/-- One more value for the current cell. -/
theorem FoldingRank.received (h : w.FoldingRank start r got k) {p : ℕ} (hpc : k.pc = .recv i j p)
    {x : Delivery}
    (hx : x.value = (start.rank x.source).noiseSqm x.message.i x.message.j) :
    w.FoldingRank start r
      (fun i' j' => got i' j' ++ if i = i' ∧ j = j' then [x] else []) (k.received i j x.value) := by
  have hat : k.pc.At i j := Or.inr ⟨p, hpc⟩
  have hpc' : (k.received i j x.value).pc = .recv i j (p + 1) := by simp only [Rank.received, hpc]
  have hindex : w.index (k.received i j x.value).pc = w.index k.pc := by
    rw [hpc', w.index_at hat]
    rfl
  constructor
  · exact h.matrix
  · rw [hindex]
    exact h.counts
  · intro i' j' hi' hj' hahead
    rw [hpc'] at hahead
    rcases hahead with hlt | hcell
    · rw [h.ahead i' j' hi' hj' (Or.inl (by rw [w.index_at hat]; exact hlt)), if_neg,
        List.append_nil]
      rintro ⟨rfl, rfl⟩
      exact absurd hlt (lt_irrefl _)
    · cases hcell
  · intro i' j' p' hrecv
    rw [hpc'] at hrecv
    cases hrecv
    have hold := h.collecting i j p hpc
    simp [Rank.received, hold, foldedLevel]
  · intro i' j' hi' hj' hown hlt
    rw [hindex] at hlt
    have hne : ¬(i = i' ∧ j = j') := by
      rintro ⟨rfl, rfl⟩
      rw [w.index_at hat] at hlt
      exact absurd hlt (lt_irrefl _)
    rw [if_neg hne, List.append_nil, ← h.finished i' j' hi' hj' hown hlt]
    exact Function.update_of_ne (h.slot_lt hown hlt).ne _ _
  · intro i' j' y hy
    rcases List.mem_append.mp hy with hy | hy
    · exact h.values i' j' y hy
    · split at hy
      · rw [List.mem_singleton.mp hy]
        exact hx
      · cases hy

/-- A completed cell holds the fold of what was received for it. -/
theorem FoldingRank.done (h : w.FoldingRank start r got k) (hr : r < w.worldSize)
    (hi : i < w.rows) (hj : j < w.columns) {p : ℕ} (hpc : k.pc = .recv i j p)
    (hown : w.receiver i j = r) : w.FoldingRank start r got (k.done w i j) := by
  have hat : k.pc.At i j := Or.inr ⟨p, hpc⟩
  have hindex : w.index (k.done w i j).pc = w.index k.pc + 1 := by
    rw [w.index_at hat, Rank.done, index_afterCell w hi hj]
  constructor
  · exact h.matrix
  · rw [hindex]
    exact h.counts.own hr (by rw [w.index_at hat]; exact hown)
  · intro i' j' hi' hj' hahead
    refine h.ahead i' j' hi' hj' (Or.inl ?_)
    rcases hahead with hlt | hcell
    · omega
    · have := w.index_at (Or.inl hcell)
      omega
  · intro i' j' p hrecv
    exact absurd hrecv (afterCell_ne_recv i j i' j' p)
  · intro i' j' hi' hj' hown' hlt
    rw [hindex] at hlt
    rcases Nat.lt_succ_iff_lt_or_eq.mp hlt with hlt | heq
    · exact h.finished i' j' hi' hj' hown' hlt
    · rw [w.index_at hat] at heq
      obtain ⟨rfl, rfl⟩ := w.cellIndex_inj hj' hj heq
      rw [h.slot_eq hr hat hown]
      exact h.collecting i' j' p hpc
  · exact h.values

/-- What one pass keeps: the ranks fold what they receive, and messages carry the values
computed before the pass. -/
structure Folding (w : World) (start : State) (as : List Action) (st : State) : Prop where
  rank : ∀ r, w.FoldingRank start r (deliveries as r) (st.rank r)
  chan : ∀ s d, ∀ m ∈ st.chan s d, m.buffered = some ((start.rank s).noiseSqm m.i m.j)

/-- Nothing has been folded at the start. -/
theorem folding_start (hs : CleanStart base st) : w.Folding st [] st := by
  refine ⟨fun r => ?_, fun s d m hm => ?_⟩
  · have hindex : w.index (st.rank r).pc = 0 := by
      rw [hs.first r]
      simp [index, cellIndex]
    constructor
    · rfl
    · intro k
      rw [hindex, hs.count r]
      omega
    · exact fun _ _ _ _ _ => rfl
    · intro i j p hpc
      rw [hs.first r] at hpc
      cases hpc
    · intro i j _ _ _ hlt
      rw [hindex] at hlt
      omega
    · intro i j x hx
      cases hx
  · rw [hs.chan s d] at hm
    cases hm

/-- A step of one rank that delivers nothing. -/
theorem Folding.setRank {as : List Action} (h : w.Folding start as st) {a : Action} {r : ℕ}
    {k : Rank}
    (hk : w.FoldingRank start r (deliveries as r) k) (hnone : ∀ q i j, deliveries [a] q i j = []) :
    w.Folding start (as ++ [a]) (st.setRank r k) := by
  have hsame : ∀ q, deliveries (as ++ [a]) q = deliveries as q := by
    intro q
    ext i j : 2
    rw [deliveries_snoc, hnone, List.append_nil]
  refine ⟨fun q => ?_, h.chan⟩
  rw [hsame]
  rcases eq_or_ne q r with rfl | hq
  · simpa [State.setRank] using hk
  · simpa [State.setRank, hq] using h.rank q

/-- Every step of the pass keeps the folds. -/
theorem Folding.step {as : List Action} {a : Action} (h : w.Folding start as st)
    (hp : w.Placed base st) (hs : w.pass.step st a st') : w.Folding start (as ++ [a]) st' := by
  obtain ⟨⟨he, rfl⟩, hin⟩ := hs
  cases a with
  | send r i j =>
    obtain ⟨hr, hpc, hne⟩ := he
    obtain ⟨hi, hj⟩ := (hp.rank r).at_cell i j (Or.inl hpc)
    have hk := h.setRank (a := .send r i j) ((h.rank r).sent hr hi hj hpc hne) fun _ _ _ => rfl
    refine ⟨hk.rank, ?_⟩
    intro s d m hm
    simp only [next, Exchange.push] at hm
    split at hm
    · next hsd =>
      rcases List.mem_append.mp hm with hold | hnew
      · exact h.chan s d m hold
      · obtain ⟨rfl, rfl⟩ := hsd
        cases List.mem_singleton.mp hnew
        simp only [posted, (h.rank s).matrix]
    · exact h.chan s d m hm
  | own r i j =>
    obtain ⟨_, hpc, _⟩ := he
    obtain ⟨hi, hj⟩ := (hp.rank r).at_cell i j (Or.inl hpc)
    exact h.setRank ((h.rank r).own hi hj hpc) fun _ _ _ => rfl
  | recv r s cycle i j m v =>
    obtain ⟨hr, hsender, rfl, ⟨p, hpc, _⟩, hm, rfl⟩ := he
    have hmem := List.mem_of_mem_head? hm
    have hvalue : st.value s m = (start.rank s).noiseSqm m.i m.j := by
      rw [State.value, h.chan s r m hmem, Option.getD_some]
    refine ⟨fun q => ?_, ?_⟩
    · have hgot : deliveries (as ++ [.recv r s (st.rank r).cycle i j m (st.value s m)]) q =
          fun i' j' => deliveries as q i' j' ++
            if r = q ∧ i = i' ∧ j = j' then [⟨s, m, st.value s m⟩] else [] := by
        ext i' j' : 2
        rw [deliveries_snoc, deliveries_recv]
      rw [hgot]
      rcases eq_or_ne q r with rfl | hq
      · simpa [next] using (h.rank q).received hpc (x := ⟨s, m, st.value s m⟩) hvalue
      · simpa [next, hq, hq.symm] using h.rank q
    · intro a d m' hm'
      simp only [next, Exchange.pop] at hm'
      split at hm'
      · exact h.chan a d m' (List.mem_of_mem_tail hm')
      · exact h.chan a d m' hm'
  | done r i j =>
    obtain ⟨hr, p, hpc, _⟩ := he
    obtain ⟨hi, hj⟩ := (hp.rank r).at_cell i j (Or.inr ⟨p, hpc⟩)
    exact h.setRank ((h.rank r).done hr hi hj hpc ((hp.rank r).at_own i j p hpc)) fun _ _ _ => rfl
  | compute | publish | move | reset | copy => exact hin.elim

/-- Inside the pass every rank stays in its cycle. -/
structure InCycle (w : World) (base : ℕ) (st : State) : Prop where
  placed : w.Placed base st
  cycle : ∀ r, (st.rank r).cycle = base

/-- A clean state is inside a cycle. -/
theorem inCycle_start (hs : CleanStart base st) : w.InCycle base st where
  placed := by
    refine ⟨fun r => ⟨?_, ?_, ?_, (hs.cycle r).ge⟩, fun s d m hm => ?_⟩
    · intro i j hat
      rw [hs.first r] at hat
      rcases hat with h | ⟨p, h⟩ <;> cases h
      exact ⟨w.rows_pos, w.columns_pos⟩
    · intro i j p hpc
      rw [hs.first r] at hpc
      cases hpc
    · rw [hs.first r]
      exact w.worldSize_pos
    · rw [hs.chan s d] at hm
      cases hm
  cycle := hs.cycle

/-- No step of the pass leaves the cycle. -/
theorem InCycle.step {a : Action} (h : w.InCycle base st) (hs : w.pass.step st a st') :
    w.InCycle base st' := by
  refine ⟨h.placed.step hs.1, fun q => ?_⟩
  rw [← h.cycle q]
  obtain ⟨⟨_, rfl⟩, hin⟩ := hs
  cases a with
  | send r i j => rcases eq_or_ne q r with rfl | hq <;> simp [next, Rank.sent, *]
  | own r i j => rcases eq_or_ne q r with rfl | hq <;> simp [next, State.setRank, Rank.own, *]
  | recv r s cycle i j m v => rcases eq_or_ne q r with rfl | hq <;> simp [next, Rank.received, *]
  | done r i j => rcases eq_or_ne q r with rfl | hq <;> simp [next, State.setRank, Rank.done, *]
  | compute | publish | move | reset | copy => exact hin.elim

/-- In one pass the ranks own the cells in turn. -/
def turns (w : World) : Exchange := Exchange.roundRobin w.worldSize w.worldSize_pos

/-- In the cycle of the pass the slots are the cells. -/
theorem slot_base (w : World) (base n : ℕ) : w.slot base base n = n := by
  rw [slot, Nat.sub_self, Nat.zero_mul, Nat.zero_add]

/-- The owner of a slot is the receiver of the cell. -/
theorem InCycle.tracks (h : w.InCycle base st) : w.Tracks base w.turns st := by
  intro r i j _
  rw [h.cycle r, slot_base, receiver_eq]
  rfl

/-- A pass is an exchange in which the ranks own the slots in turn. -/
theorem pass_refines (w : World) (base : ℕ) : w.pass.Refines w.turns.system (w.InCycle base)
    (w.exchangeState base) (w.exchangeLabel base) where
  inv_step _ _ _ h hs := h.step hs
  visible _ _ _ _ h hs hl := h.placed.visible rfl h.tracks hs.1 hl
  silent _ _ _ h hs hl := h.placed.silent hs.1 hl

/-- A clean state is the start of the exchange. -/
theorem exchangeState_start (hs : CleanStart base st) :
    w.exchangeState base st = Exchange.start := by
  simp [exchangeState, Exchange.start, hs.first, hs.cycle, hs.chan, index, cellIndex, slot_base,
    Pc.collected]

/-- Sources of the deliveries at a cell, as the exchange sees them, and their messages. -/
structure Matching (w : World) (base : ℕ) (as : List Action) : Prop where
  sources : ∀ r i j, i < w.rows → j < w.columns →
    (deliveries as r i j).map Delivery.source =
      Exchange.sources (as.filterMap (w.exchangeLabel base)) r (w.cellIndex i j)
  messages : ∀ r i j, ∀ x ∈ deliveries as r i j,
    x.message.cycle = base ∧ x.message.i = i ∧ x.message.j = j

/-- A step that delivers nothing keeps the matching. -/
theorem Matching.silent {as : List Action} {a : Action} (h : w.Matching base as)
    (hnone : ∀ r i j, deliveries [a] r i j = [])
    (hsource : ∀ r t, Exchange.sources ([a].filterMap (w.exchangeLabel base)) r t = []) :
    w.Matching base (as ++ [a]) := by
  constructor
  · intro r i j hi hj
    have happend : Exchange.sources ((as ++ [a]).filterMap (w.exchangeLabel base)) r
        (w.cellIndex i j) = Exchange.sources (as.filterMap (w.exchangeLabel base)) r
          (w.cellIndex i j) := by
      rw [List.filterMap_append, Exchange.sources_append, hsource, List.append_nil]
    rw [deliveries_snoc, hnone, List.append_nil, h.sources r i j hi hj, happend]
  · intro r i j x hx
    rw [deliveries_snoc, hnone, List.append_nil] at hx
    exact h.messages r i j x hx

/-- In every run of the pass a message is received at the cell it was posted for. -/
theorem matching_of_run (hs : CleanStart base start) {as : List Action}
    (hr : w.pass.Run start as st) : w.Matching base as := by
  refine hr.invariant (fun as _ => w.Matching base as) ⟨fun _ _ _ _ _ => rfl, nofun⟩ ?_
  intro as st a st' hrun h hstep
  obtain ⟨hin, hex⟩ := (w.pass_refines base).run hrun (inCycle_start hs)
  rw [exchangeState_start hs] at hex
  cases a with
  | send r i j => exact h.silent (fun _ _ _ => rfl) fun _ _ => rfl
  | own r i j => exact h.silent (fun _ _ _ => rfl) fun _ _ => rfl
  | done r i j => exact h.silent (fun _ _ _ => rfl) fun _ _ => rfl
  | recv r s cycle i j m v =>
    have htake := (hin.placed.visible rfl hin.tracks hstep.1 rfl).1
    have htag := Exchange.tag_eq_slot (Or.inr (Exchange.separated_roundRobin _)) hex htake
    obtain ⟨⟨⟨_, _, rfl, ⟨p, hpc, _⟩, hm, _⟩, _⟩, _⟩ := hstep
    obtain ⟨hi, hj⟩ := (hin.placed.rank r).at_cell i j (Or.inr ⟨p, hpc⟩)
    have hcell := (hin.placed.chan s r m (List.mem_of_mem_head? hm)).slot_inj
      (hin.placed.rank r).base_le hi hj htag
    constructor
    · intro r' i' j' hi' hj'
      have hiff : (r = r' ∧ i = i' ∧ j = j') ↔
          (r = r' ∧ w.cellIndex i j = w.cellIndex i' j') := by
        refine and_congr_right fun _ => ⟨?_, w.cellIndex_inj hj hj'⟩
        rintro ⟨rfl, rfl⟩
        rfl
      rw [List.filterMap_append, Exchange.sources_append, ← h.sources r' i' j' hi' hj',
        deliveries_snoc, deliveries_recv, List.map_append]
      simp only [List.filterMap_cons, exchangeLabel, List.filterMap_nil, Exchange.sources_take,
        hin.cycle r, slot_base, if_congr hiff rfl rfl]
      split <;> rfl
    · intro r' i' j' x hx
      rw [deliveries_snoc, deliveries_recv] at hx
      rcases List.mem_append.mp hx with hold | hnew
      · exact h.messages r' i' j' x hold
      · split at hnew
        · next hat =>
          obtain ⟨_, rfl, rfl⟩ := hat
          rw [List.mem_singleton.mp hnew]
          exact ⟨hcell.1.trans (hin.cycle r), hcell.2⟩
        · cases hnew
  | compute | publish | move | reset | copy => exact hstep.2.elim

/-- The rank has completed one of its own cells. -/
def Completed (w : World) (st : State) (r i j : ℕ) : Prop :=
  r < w.worldSize ∧ i < w.rows ∧ j < w.columns ∧ w.receiver i j = r ∧
    w.cellIndex i j < w.index (st.rank r).pc

/-- Every completed cell has folded one value from each other rank, posted for this very
cell, and a completed pass leaves no message in flight. -/
structure PassMatched (w : World) (start : State) (as : List Action) (st : State) : Prop where
  one_each : ∀ r i j, w.Completed st r i j →
    ((deliveries as r i j).map Delivery.source).Perm ((List.range w.worldSize).erase r)
  this_cell : ∀ r i j, w.Completed st r i j → ∀ x ∈ deliveries as r i j,
    x.message.cycle = (start.rank x.source).cycle ∧ x.message.i = i ∧ x.message.j = j ∧
      x.value = (start.rank x.source).noiseSqm i j
  folded : ∀ r i j, w.Completed st r i j →
    (st.rank r).myNoises (w.cellIndex i j / w.worldSize) =
      some ⟨foldedLevel ((start.rank r).noiseSqm i j) (deliveries as r i j), j, i⟩
  drained : (∀ r < w.worldSize, (st.rank r).pc = .publish) →
    ∀ s < w.worldSize, ∀ d < w.worldSize, st.chan s d = []

/-- A pass of a clean state matches every cell. -/
theorem passMatched_of_clean (hs : CleanStart base start) {as : List Action}
    (hr : w.pass.Run start as st) : w.PassMatched start as st := by
  have hmatch := matching_of_run hs hr
  obtain ⟨hin, hex⟩ := (w.pass_refines base).run hr (inCycle_start hs)
  rw [exchangeState_start hs] at hex
  have hfold : w.Folding start as st := hr.invariant (w.Folding start) (folding_start hs)
    fun _ _ _ _ hrun h hstep =>
      h.step ((w.pass_refines base).run hrun (inCycle_start hs)).1.placed hstep
  constructor
  · rintro r i j ⟨hlt, hi, hj, hown, hpassed⟩
    rw [hmatch.sources r i j hi hj]
    refine Exchange.sources_perm (Or.inr (Exchange.separated_roundRobin _)) hex hlt hown ?_
    simpa only [exchangeState, hin.cycle r, slot_base] using hpassed
  · rintro r i j _ x hx
    obtain ⟨hcycle, rfl, rfl⟩ := hmatch.messages r i j x hx
    exact ⟨by rw [hcycle, hs.cycle], rfl, rfl, (hfold.rank r).values _ _ x hx⟩
  · rintro r i j ⟨_, hi, hj, hown, hpassed⟩
    exact (hfold.rank r).finished i j hi hj hown hpassed
  · intro hall s hlt d hd
    have hsync : ∀ q, q < w.turns.parties → (w.exchangeState base st).pos q = w.cells := by
      intro q hq
      simp only [exchangeState, hall q hq, hin.cycle q, slot_base, index]
    exact List.map_eq_nil_iff.mp ((Exchange.history_of_run hex).drained hsync hlt hd).1

/-- The state with another rank in the place of those that do not exist. -/
def upTo (w : World) (k : Rank) (st : State) : State where
  rank r := if r < w.worldSize then st.rank r else k
  chan s d := if s < w.worldSize ∧ d < w.worldSize then st.chan s d else []

/-- Existing ranks are kept. -/
@[simp] theorem upTo_rank (hr : r < w.worldSize) (k : Rank) (st : State) :
    (w.upTo k st).rank r = st.rank r := if_pos hr

/-- Messages between existing ranks are kept. -/
@[simp] theorem upTo_chan {s d : ℕ} (hs : s < w.worldSize) (hd : d < w.worldSize) (k : Rank)
    (st : State) : (w.upTo k st).chan s d = st.chan s d := if_pos ⟨hs, hd⟩

/-- Without the ranks that do not exist the start is clean. -/
theorem PassStart.upTo (hs : w.PassStart base start) :
    CleanStart base (w.upTo (start.rank 0) start) := by
  have hrank (r : ℕ) : ∃ r' < w.worldSize,
      (w.upTo (start.rank 0) start).rank r = start.rank r' := by
    by_cases hr : r < w.worldSize
    · exact ⟨r, hr, if_pos hr⟩
    · exact ⟨0, w.worldSize_pos, if_neg hr⟩
  refine ⟨fun r => ?_, fun r => ?_, fun r => ?_, fun s d => ?_⟩
  · obtain ⟨r', hr', heq⟩ := hrank r
    rw [heq, hs.first r' hr']
  · obtain ⟨r', hr', heq⟩ := hrank r
    rw [heq, hs.cycle r' hr']
  · obtain ⟨r', hr', heq⟩ := hrank r
    rw [heq, hs.count r' hr']
  · by_cases hsd : s < w.worldSize ∧ d < w.worldSize
    · rw [upTo_chan hsd.1 hsd.2, hs.chan s hsd.1 d hsd.2]
    · exact if_neg hsd

/-- Cells belong to existing ranks. -/
theorem receiver_lt (w : World) (i j : ℕ) : w.receiver i j < w.worldSize :=
  Nat.mod_lt _ w.worldSize_pos

/-- A step of the pass looks at existing ranks only. -/
theorem upTo_enabled {a : Action} (hin : a.InPass) (k : Rank) :
    w.Enabled .buffered (w.upTo k st) a ↔ w.Enabled .buffered st a := by
  cases a with
  | send r i j => exact and_congr_right fun hr => by rw [upTo_rank hr]
  | own r i j => exact and_congr_right fun hr => by rw [upTo_rank hr]
  | recv r s cycle i j m v =>
    refine and_congr_right fun hr => and_congr_right fun hs => ?_
    rw [upTo_rank hr, upTo_chan hs hr, State.value, upTo_rank hs]
    rfl
  | done r i j => exact and_congr_right fun hr => by rw [upTo_rank hr]
  | compute | publish | move | reset | copy => exact hin.elim

/-- A step of an existing rank is the same in both states. -/
theorem upTo_update (hr : r < w.worldSize) (k k' : Rank) (rank : ℕ → Rank)
    (chan : ℕ → ℕ → List Message) : w.upTo k ⟨Function.update rank r k', chan⟩ =
      ⟨Function.update (w.upTo k ⟨rank, chan⟩).rank r k', (w.upTo k ⟨rank, chan⟩).chan⟩ := by
  refine congrArg (State.mk · _) (funext fun q => ?_)
  rcases eq_or_ne q r with rfl | hne
  · simp [World.upTo, hr]
  · simp [World.upTo, hne]

/-- Messages between existing ranks are posted and received in both states. -/
theorem upTo_push {s d : ℕ} (hs : s < w.worldSize) (hd : d < w.worldSize) (k : Rank) (st : State)
    (m : Message) : (w.upTo k { st with chan := Exchange.push st.chan s d m }).chan =
      Exchange.push (w.upTo k st).chan s d m := by
  ext a b : 2
  by_cases hab : a = s ∧ b = d
  · obtain ⟨rfl, rfl⟩ := hab
    simp [World.upTo, Exchange.push, hs, hd]
  · simp [World.upTo, Exchange.push, hab]

/-- A message between existing ranks is received in both states. -/
theorem upTo_pop {s d : ℕ} (hs : s < w.worldSize) (hd : d < w.worldSize) (k : Rank) (st : State) :
    (w.upTo k { st with chan := Exchange.pop st.chan s d }).chan =
      Exchange.pop (w.upTo k st).chan s d := by
  ext a b : 2
  by_cases hab : a = s ∧ b = d
  · obtain ⟨rfl, rfl⟩ := hab
    simp [World.upTo, Exchange.pop, hs, hd]
  · simp [World.upTo, Exchange.pop, hab]

/-- A step of the pass has the same effect in both states. -/
theorem upTo_next {a : Action} (hin : a.InPass) (he : w.Enabled .buffered st a) (k : Rank) :
    w.upTo k (w.next .buffered st a) = w.next .buffered (w.upTo k st) a := by
  cases a with
  | send r i j =>
    simp only [next, posted, upTo_rank he.1]
    rw [upTo_update he.1, ← upTo_push he.1 (w.receiver_lt i j)]
    rfl
  | own r i j =>
    simp only [next, State.setRank, upTo_rank he.1]
    exact upTo_update he.1 _ _ _ _
  | recv r s cycle i j m v =>
    simp only [next, upTo_rank he.1]
    rw [upTo_update he.1, ← upTo_pop he.2.1 he.1]
    rfl
  | done r i j =>
    simp only [next, State.setRank, upTo_rank he.1]
    exact upTo_update he.1 _ _ _ _
  | compute | publish | move | reset | copy => exact hin.elim

/-- A pass leaves the ranks that do not exist alone. -/
theorem upTo_run {as : List Action} (hr : w.pass.Run start as st) (k : Rank) :
    w.pass.Run (w.upTo k start) as (w.upTo k st) := by
  induction hr with
  | nil => exact System.Run.nil _
  | snoc _ hs ih =>
    obtain ⟨⟨he, rfl⟩, hin⟩ := hs
    exact ih.snoc ⟨⟨(upTo_enabled hin k).mpr he, upTo_next hin he k⟩, hin⟩

/-- What holds of the existing ranks does not depend on the others. -/
theorem PassMatched.of_upTo {as : List Action} {k : Rank}
    (h : w.PassMatched (w.upTo k start) as (w.upTo k st)) : w.PassMatched start as st := by
  have hdone {r i j : ℕ} (hc : w.Completed st r i j) : w.Completed (w.upTo k st) r i j := by
    obtain ⟨hr, hi, hj, hown, hlt⟩ := hc
    exact ⟨hr, hi, hj, hown, by rwa [upTo_rank hr]⟩
  constructor
  · exact fun r i j hc => h.one_each r i j (hdone hc)
  · intro r i j hc x hx
    have hmem := (h.one_each r i j (hdone hc)).mem_iff.mp (List.mem_map_of_mem hx)
    have hsource := List.mem_range.mp (List.mem_of_mem_erase hmem)
    have hcell := h.this_cell r i j (hdone hc) x hx
    rwa [upTo_rank hsource] at hcell
  · intro r i j hc
    have hfold := h.folded r i j (hdone hc)
    rwa [upTo_rank hc.1, upTo_rank hc.1] at hfold
  · intro hall s hs d hd
    rw [← upTo_chan hs hd k st]
    exact h.drained (fun r hr => by rw [upTo_rank hr, hall r hr]) s hs d hd

/-- One pass of the double loop matches every cell, for any order of the ranks. -/
theorem pass_matched (hs : w.PassStart base start) {as : List Action}
    (hr : w.pass.Run start as st) : w.PassMatched start as st :=
  (passMatched_of_clean hs.upTo (upTo_run hr _)).of_upTo

instance (a : Action) : Decidable a.InPass :=
  match a with
  | .send _ _ _ | .own _ _ _ | .recv _ _ _ _ _ _ _ | .done _ _ _ => isTrue trivial
  | .compute _ | .publish _ | .move _ _ | .reset _ | .copy _ _ _ => isFalse nofun

/-- A schedule of steps of the double loop is a pass. -/
theorem pass_steps {turns : List Turn} (h : (w.play .buffered st turns).isSome)
    (hin : ∀ a ∈ w.steps .buffered st turns, a.InPass) :
    w.pass.Run st (w.steps .buffered st turns) (w.played .buffered st turns) :=
  (run_steps h).of_restrict.restrict_labels hin

/-- Two ranks that have computed different levels for three cells. -/
def unevenStart : State where
  rank r :=
    { pc := .cell 0 0
      cycle := 0
      localArr := []
      noiseSqm := fun _ x => 40 + 10 * r + x
      computed := fun _ _ x => 40 + 10 * r + x
      count := 0
      myNoises := fun _ => none }
  chan _ _ := []

/-- The second rank sends its first level and waits for the first rank. -/
def unevenPass : List Turn :=
  [.rank 1 0, .rank 1 0, .rank 0 1, .rank 0 1, .rank 0 1, .rank 0 1, .rank 1 0, .rank 0 1,
    .rank 1 0, .rank 1 0, .rank 0 1, .rank 0 1]

/-- Three cells with different levels on two ranks. -/
theorem pass_matched_threeCells :
    (∀ r < 2, ((threeCells.played .buffered unevenStart unevenPass).rank r).pc = .publish) ∧
      threeCells.PassMatched unevenStart (threeCells.steps .buffered unevenStart unevenPass)
        (threeCells.played .buffered unevenStart unevenPass) := by
  have hr := @pass_steps threeCells unevenStart unevenPass rfl (by decide)
  have hs : threeCells.PassStart 0 unevenStart :=
    ⟨fun _ _ => rfl, fun _ _ => rfl, fun _ _ => rfl, fun _ _ _ _ => rfl⟩
  exact ⟨by decide, pass_matched hs hr⟩

end World

end NoiseLevel.Mpi
