import NoiseLevel.Mpi.CellMatching
import NoiseLevel.Mpi.CycleIsolation
import NoiseLevel.Mpi.SendBuffers

/-!
# Matching over all cycles

The ranks are in different cycles at the same time. Where the cycles are isolated and the
buffers of the sends are kept, a rank that has completed a cell has folded the levels that
the others computed for that cell in the very cycle it is in, one from each of them.
-/

namespace NoiseLevel.Mpi

open NoiseLevel.Core

/-- The rank has computed its matrix for a cycle. -/
def Rank.Entered (k : Rank) (cycle : ℕ) : Prop :=
  cycle < k.cycle ∨ cycle = k.cycle ∧ k.pc ≠ .compute

/-- A rank has entered no later cycle than its own. -/
theorem Rank.Entered.le {k : Rank} {cycle : ℕ} (h : k.Entered cycle) : cycle ≤ k.cycle :=
  h.elim le_of_lt fun h => h.1.le

/-- A rank that has computed has entered its cycle. -/
theorem Rank.entered_of_le {k : Rank} {cycle : ℕ} (h : cycle ≤ k.cycle) (hpc : k.pc ≠ .compute) :
    k.Entered cycle := h.lt_or_eq.imp_right fun heq => ⟨heq, hpc⟩

/-- What a rank received in one cycle while it stood at a cell, in order. -/
def deliveriesIn (as : List Action) (r cycle i j : ℕ) : List Delivery :=
  as.filterMap fun
    | .recv r' s cycle' i' j' m v =>
      if r' = r ∧ cycle' = cycle ∧ i' = i ∧ j' = j then some ⟨s, m, v⟩ else none
    | _ => none

/-- What was received with one more step. -/
theorem deliveriesIn_snoc (as : List Action) (a : Action) (r cycle i j : ℕ) :
    deliveriesIn (as ++ [a]) r cycle i j =
      deliveriesIn as r cycle i j ++ deliveriesIn [a] r cycle i j := by
  simp only [deliveriesIn, List.filterMap_append]

/-- A receive delivers at its own cell and cycle only. -/
theorem deliveriesIn_recv (r s cycle i j : ℕ) (m : Message) (v : ℤ) (r' cycle' i' j' : ℕ) :
    deliveriesIn [.recv r s cycle i j m v] r' cycle' i' j' =
      if r = r' ∧ cycle = cycle' ∧ i = i' ∧ j = j' then [⟨s, m, v⟩] else [] := by
  unfold deliveriesIn
  split <;> simp [*]

/-- The matrices that the ranks computed in one cycle. -/
def State.levelsIn (st : State) (cycle : ℕ) : State :=
  { st with rank := fun s => { st.rank s with noiseSqm := (st.rank s).computed cycle } }

namespace World

variable {w : World} {mode : SendMode} {st st' : State} {as : List Action} {a : Action}

section Entered

variable {r s cycle : ℕ} {k : Rank}

/-- A step of one rank leaves no cycle and no computed level. -/
theorem entered_update (hrank : st'.rank = Function.update st.rank r k)
    (hk : (st.rank r).Entered cycle →
      k.Entered cycle ∧ k.computed cycle = (st.rank r).computed cycle)
    (h : (st.rank s).Entered cycle) :
    (st'.rank s).Entered cycle ∧ (st'.rank s).computed cycle = (st.rank s).computed cycle := by
  rw [hrank]
  rcases eq_or_ne s r with rfl | hs
  · simpa using hk h
  · simpa [hs] using h

/-- The matrix of a cycle is computed once. -/
theorem entered_step (hs : (w.system mode).step st a st') (h : (st.rank s).Entered cycle) :
    (st'.rank s).Entered cycle ∧ (st'.rank s).computed cycle = (st.rank s).computed cycle := by
  obtain ⟨he, rfl⟩ := hs
  cases a with
  | compute r =>
    refine entered_update rfl (fun hr => ?_) h
    have hlt : cycle < (st.rank r).cycle := hr.elim id fun hr => absurd he.2 hr.2
    exact ⟨Or.inl hlt, Function.update_of_ne hlt.ne _ _⟩
  | send r i j =>
    exact entered_update rfl
      (fun hr => ⟨Rank.entered_of_le hr.le (afterCell_ne_compute i j), rfl⟩) h
  | own r i j =>
    exact entered_update rfl (fun hr => ⟨Rank.entered_of_le hr.le (by simp [Rank.own]), rfl⟩) h
  | recv r s' cycle' i j m v =>
    obtain ⟨_, _, _, ⟨p, hp, _⟩, _⟩ := he
    refine entered_update rfl (fun hr => ⟨Rank.entered_of_le hr.le ?_, rfl⟩) h
    simp [Rank.received, hp]
  | done r i j =>
    exact entered_update rfl
      (fun hr => ⟨Rank.entered_of_le hr.le (afterCell_ne_compute i j), rfl⟩) h
  | publish r =>
    exact entered_update rfl (fun hr => ⟨Rank.entered_of_le hr.le (by simp [Rank.publish]), rfl⟩) h
  | move r draws =>
    exact entered_update rfl (fun hr => ⟨Rank.entered_of_le hr.le (by simp [Rank.move]), rfl⟩) h
  | reset r =>
    exact entered_update rfl (fun hr => ⟨Or.inl (Nat.lt_succ_of_le hr.le), rfl⟩) h
  | copy s' d n => exact ⟨h, rfl⟩

end Entered

section FoldingRank

variable {start start' : State} {r : ℕ} {got : ℕ → ℕ → List Delivery} {k : Rank}

/-- The fold of a rank depends on its own matrix and on those of its sources only. -/
theorem FoldingRank.congr (h : w.FoldingRank start r got k)
    (hown : (start'.rank r).noiseSqm = (start.rank r).noiseSqm)
    (hsource : ∀ i j, ∀ x ∈ got i j,
      (start'.rank x.source).noiseSqm = (start.rank x.source).noiseSqm) :
    w.FoldingRank start' r got k where
  matrix := h.matrix.trans hown.symm
  counts := h.counts
  ahead := h.ahead
  collecting i j p hpc := by
    rw [hown]
    exact h.collecting i j p hpc
  finished i j hi hj hr hlt := by
    rw [hown]
    exact h.finished i j hi hj hr hlt
  values i j x hx := by
    rw [hsource i j x hx]
    exact h.values i j x hx

/-- A rank that has just computed its matrix has received nothing. -/
theorem FoldingRank.compute (hown : (start.rank r).noiseSqm = (k.compute w).noiseSqm)
    (hgot : ∀ i j, got i j = []) : w.FoldingRank start r got (k.compute w) where
  matrix := hown.symm
  counts n := by
    have hindex : w.index (k.compute w).pc = 0 := by simp [Rank.compute, index, cellIndex]
    have hcount : (k.compute w).count = 0 := rfl
    rw [hindex, hcount]
    omega
  ahead i j _ _ _ := hgot i j
  collecting i j p hpc := by cases hpc
  finished i j _ _ _ hlt := by
    have hindex : w.index (k.compute w).pc = 0 := by simp [Rank.compute, index, cellIndex]
    rw [hindex] at hlt
    exact absurd hlt (Nat.not_lt_zero _)
  values i j x hx := by
    rw [hgot] at hx
    cases hx

/-- Steps behind the double loop keep what has been folded. -/
theorem FoldingRank.of_published (h : w.FoldingRank start r got k)
    (hpc : k.pc = .publish ∨ k.pc = .move) (k' : Rank) (hpc' : k'.pc = .move ∨ k'.pc = .reset)
    (hmatrix : k'.noiseSqm = k.noiseSqm) (hcount : k'.count = k.count)
    (hslots : k'.myNoises = k.myNoises) : w.FoldingRank start r got k' := by
  have hindex : w.index k'.pc = w.index k.pc := by
    rcases hpc with hp | hp <;> rcases hpc' with hp' | hp' <;> rw [hp, hp'] <;> rfl
  constructor
  · rw [hmatrix]
    exact h.matrix
  · rw [hindex, hcount]
    exact h.counts
  · intro i j hi hj hahead
    rw [hindex] at hahead
    refine h.ahead i j hi hj (hahead.imp_right fun hcell => ?_)
    rcases hpc' with hp | hp <;> rw [hp] at hcell <;> cases hcell
  · intro i j p hrecv
    rcases hpc' with hp | hp <;> rw [hp] at hrecv <;> cases hrecv
  · intro i j hi hj hown hlt
    rw [hindex] at hlt
    rw [hslots]
    exact h.finished i j hi hj hown hlt
  · exact h.values

end FoldingRank

/-- Every rank has folded what it received in its cycle, and every value it ever received was
computed by its sender for that cell in that cycle. -/
structure FoldedCycles (w : World) (as : List Action) (st : State) : Prop where
  rank : ∀ r < w.worldSize, (st.rank r).pc ≠ .compute →
    w.FoldingRank (st.levelsIn (st.rank r).cycle) r (deliveriesIn as r (st.rank r).cycle)
      (st.rank r)
  receiver : ∀ r cycle i j, ∀ x ∈ deliveriesIn as r cycle i j, (st.rank r).Entered cycle
  source : ∀ r cycle i j, ∀ x ∈ deliveriesIn as r cycle i j, (st.rank x.source).Entered cycle
  message : ∀ r cycle i j, ∀ x ∈ deliveriesIn as r cycle i j,
    x.message.cycle = cycle ∧ x.message.i = i ∧ x.message.j = j
  value : ∀ r cycle i j, ∀ x ∈ deliveriesIn as r cycle i j,
    x.value = (st.rank x.source).computed cycle i j

section Step

variable (h : w.FoldedCycles as st) (hs : (w.system mode).step st a st')
include h hs

/-- What has been folded so far is not touched by a step of another rank. -/
theorem FoldedCycles.keep {r : ℕ} (hr : r < w.worldSize) (hpc : (st.rank r).pc ≠ .compute) :
    w.FoldingRank (st'.levelsIn (st.rank r).cycle) r (deliveriesIn as r (st.rank r).cycle)
      (st.rank r) :=
  (h.rank r hr hpc).congr (entered_step hs (Or.inr ⟨rfl, hpc⟩)).2 fun i j x hx =>
    (entered_step hs (h.source r _ i j x hx)).2

/-- The past stays as it was when nothing is received. -/
theorem FoldedCycles.silent (hnone : ∀ r cycle i j, deliveriesIn [a] r cycle i j = [])
    (hrank : ∀ r < w.worldSize, (st'.rank r).pc ≠ .compute →
      w.FoldingRank (st'.levelsIn (st'.rank r).cycle) r (deliveriesIn as r (st'.rank r).cycle)
        (st'.rank r)) : w.FoldedCycles (as ++ [a]) st' := by
  have hsame : ∀ r cycle i j, deliveriesIn (as ++ [a]) r cycle i j = deliveriesIn as r cycle i j :=
    fun r cycle i j => by rw [deliveriesIn_snoc, hnone, List.append_nil]
  refine ⟨fun r hr hpc => ?_, fun r cycle i j x hx => ?_, fun r cycle i j x hx => ?_,
    fun r cycle i j x hx => ?_, fun r cycle i j x hx => ?_⟩
  · have hgot : deliveriesIn (as ++ [a]) r (st'.rank r).cycle =
        deliveriesIn as r (st'.rank r).cycle := by
      ext i j : 2
      exact hsame r _ i j
    rw [hgot]
    exact hrank r hr hpc
  · rw [hsame] at hx
    exact (entered_step hs (h.receiver r cycle i j x hx)).1
  · rw [hsame] at hx
    exact (entered_step hs (h.source r cycle i j x hx)).1
  · rw [hsame] at hx
    exact h.message r cycle i j x hx
  · rw [hsame] at hx
    rw [(entered_step hs (h.source r cycle i j x hx)).2]
    exact h.value r cycle i j x hx

/-- A step of one rank that stays in its cycle and receives nothing. -/
theorem FoldedCycles.local {r : ℕ} {k : Rank} (hrank : st'.rank = Function.update st.rank r k)
    (hnone : ∀ r cycle i j, deliveriesIn [a] r cycle i j = [])
    (hcycle : k.cycle = (st.rank r).cycle)
    (hk : r < w.worldSize → w.FoldingRank (st'.levelsIn (st.rank r).cycle) r
      (deliveriesIn as r (st.rank r).cycle) k) : w.FoldedCycles (as ++ [a]) st' := by
  refine h.silent hs hnone fun q hq hpc => ?_
  rcases eq_or_ne q r with rfl | hne
  · have hself : st'.rank q = k := by rw [hrank, Function.update_self]
    rw [hself, hcycle]
    exact hk hq
  · have hother : st'.rank q = st.rank q := by rw [hrank, Function.update_of_ne hne]
    rw [hother] at hpc ⊢
    exact h.keep hs hq hpc

end Step

/-- The sender of a pending message has computed the matrix of its cycle. -/
theorem BuffersKept.entered (h : BuffersKept st) {s d : ℕ} {m : Message} (hm : m ∈ st.chan s d) :
    (st.rank s).Entered m.cycle := by
  have hkeep := h.pending s d m hm
  refine hkeep.cycle_le.lt_or_eq.imp_right fun heq => ⟨heq, fun hpc => ?_⟩
  exact absurd heq (hkeep.earlier hpc).ne

/-- A message of the receiver's cycle and cell is folded. -/
theorem FoldedCycles.recv (h : w.FoldedCycles as st) (hkept : BuffersKept st) {r s cycle i j : ℕ}
    {m : Message} {v : ℤ} (hs : (w.system mode).step st (.recv r s cycle i j m v) st')
    (htag : m.cycle = cycle ∧ m.i = i ∧ m.j = j) :
    w.FoldedCycles (as ++ [.recv r s cycle i j m v]) st' := by
  obtain ⟨hr, hsender, hcycle, ⟨p, hpc, _⟩, hm, hv⟩ := hs.1
  obtain rfl := hs.2
  obtain ⟨rfl, rfl, rfl⟩ := htag
  have hmem := List.mem_of_mem_head? hm
  have hcompute : (st.rank r).pc ≠ .compute := by
    simp [hpc]
  have hentered := hkept.entered hmem
  have hvalue : v = (st.rank s).computed m.cycle m.i m.j := hv.trans (hkept.value_eq hmem)
  have hpast : ∀ q c a b, ∀ x ∈ deliveriesIn (as ++ [.recv r s m.cycle m.i m.j m v]) q c a b,
      x ∈ deliveriesIn as q c a b ∨
        (q = r ∧ c = m.cycle ∧ a = m.i ∧ b = m.j) ∧ x = ⟨s, m, v⟩ := by
    intro q c a b x hx
    rw [deliveriesIn_snoc, deliveriesIn_recv] at hx
    rcases List.mem_append.mp hx with hold | hnew
    · exact Or.inl hold
    · split at hnew
      · next hat =>
        obtain ⟨rfl, rfl, rfl, rfl⟩ := hat
        exact Or.inr ⟨⟨rfl, rfl, rfl, rfl⟩, List.mem_singleton.mp hnew⟩
      · cases hnew
  refine ⟨fun q hq hqpc => ?_, fun q c a b x hx => ?_, fun q c a b x hx => ?_,
    fun q c a b x hx => ?_, fun q c a b x hx => ?_⟩
  · rcases eq_or_ne q r with rfl | hne
    · have hself : (w.next mode st (.recv q s m.cycle m.i m.j m v)).rank q =
          (st.rank q).received m.i m.j v := by simp [next]
      have hgot : deliveriesIn (as ++ [.recv q s m.cycle m.i m.j m v]) q m.cycle =
          fun a b => deliveriesIn as q m.cycle a b ++
            if m.i = a ∧ m.j = b then [⟨s, m, v⟩] else [] := by
        ext a b : 2
        rw [deliveriesIn_snoc, deliveriesIn_recv]
        simp only [true_and]
      have hkeep := h.keep hs hq hcompute
      rw [hcycle] at hkeep
      rw [hself, show ((st.rank q).received m.i m.j v).cycle = m.cycle from hcycle, hgot]
      exact hkeep.received hpc (x := ⟨s, m, v⟩)
        (hvalue.trans (congrFun (congrFun (entered_step hs hentered).2.symm m.i) m.j))
    · have hother : (w.next mode st (.recv r s m.cycle m.i m.j m v)).rank q = st.rank q := by
        simp [next, hne]
      have hgot : deliveriesIn (as ++ [.recv r s m.cycle m.i m.j m v]) q (st.rank q).cycle =
          deliveriesIn as q (st.rank q).cycle := by
        ext a b : 2
        rw [deliveriesIn_snoc, deliveriesIn_recv, if_neg fun hat => hne hat.1.symm,
          List.append_nil]
      rw [hother] at hqpc ⊢
      rw [hgot]
      exact h.keep hs hq hqpc
  · rcases hpast q c a b x hx with hold | ⟨⟨rfl, rfl, -, -⟩, -⟩
    · exact (entered_step hs (h.receiver q c a b x hold)).1
    · exact (entered_step hs (Or.inr ⟨hcycle.symm, hcompute⟩)).1
  · rcases hpast q c a b x hx with hold | ⟨⟨-, rfl, -, -⟩, rfl⟩
    · exact (entered_step hs (h.source q c a b x hold)).1
    · exact (entered_step hs hentered).1
  · rcases hpast q c a b x hx with hold | ⟨⟨-, rfl, rfl, rfl⟩, rfl⟩
    · exact h.message q c a b x hold
    · exact ⟨rfl, rfl, rfl⟩
  · rcases hpast q c a b x hx with hold | ⟨⟨-, rfl, rfl, rfl⟩, rfl⟩
    · rw [(entered_step hs (h.source q c a b x hold)).2]
      exact h.value q c a b x hold
    · rw [(entered_step hs hentered).2]
      exact hvalue

/-- Every step keeps the folds if its messages belong to the receiver's cycle and cell. -/
theorem FoldedCycles.step (h : w.FoldedCycles as st) (hkept : BuffersKept st)
    (hp : w.Placed 0 st) (hs : (w.system mode).step st a st')
    (htag : ∀ r s cycle i j m v, a = .recv r s cycle i j m v →
      m.cycle = cycle ∧ m.i = i ∧ m.j = j) : w.FoldedCycles (as ++ [a]) st' := by
  have hpc : ∀ r, a.actor = some r → a ≠ .compute r → (st.rank r).pc ≠ .compute :=
    fun r => pc_ne_compute hs.1
  have hfold : ∀ r, a.actor = some r → a ≠ .compute r → r < w.worldSize →
      w.FoldingRank (st'.levelsIn (st.rank r).cycle) r (deliveriesIn as r (st.rank r).cycle)
        (st.rank r) := fun r hr ha hlt => h.keep hs hlt (hpc r hr ha)
  obtain ⟨he, hnext⟩ := id hs
  cases a with
  | compute r =>
    subst hnext
    refine h.local hs (r := r) rfl (fun _ _ _ _ => rfl) rfl fun _ => ?_
    refine FoldingRank.compute ?_ fun i j => List.eq_nil_iff_forall_not_mem.mpr fun x hx => ?_
    · simp [State.levelsIn, next, State.setRank, Rank.compute]
    · rcases h.receiver r _ i j x hx with hlt | ⟨-, hne⟩
      · exact lt_irrefl _ hlt
      · exact hne he.2
  | send r i j =>
    obtain ⟨hr, hcell, hne⟩ := he
    obtain ⟨hi, hj⟩ := (hp.rank r).at_cell i j (Or.inl hcell)
    exact h.local hs (k := (st.rank r).sent w i j) (by rw [hnext]; rfl)
      (fun _ _ _ _ => rfl) rfl fun hlt =>
      (hfold r rfl (by simp) hlt).sent hr hi hj hcell hne
  | own r i j =>
    obtain ⟨_, hcell, _⟩ := he
    obtain ⟨hi, hj⟩ := (hp.rank r).at_cell i j (Or.inl hcell)
    exact h.local hs (k := (st.rank r).own i j) (by rw [hnext]; rfl)
      (fun _ _ _ _ => rfl) rfl fun hlt =>
      (hfold r rfl (by simp) hlt).own hi hj hcell
  | recv r s cycle i j m v => exact h.recv hkept hs (htag r s cycle i j m v rfl)
  | done r i j =>
    obtain ⟨hr, p, hrecv, _⟩ := he
    obtain ⟨hi, hj⟩ := (hp.rank r).at_cell i j (Or.inr ⟨p, hrecv⟩)
    exact h.local hs (k := (st.rank r).done w i j) (by rw [hnext]; rfl)
      (fun _ _ _ _ => rfl) rfl fun hlt =>
      (hfold r rfl (by simp) hlt).done hr hi hj hrecv ((hp.rank r).at_own i j p hrecv)
  | publish r =>
    exact h.local hs (k := (st.rank r).publish) (by rw [hnext]; rfl)
      (fun _ _ _ _ => rfl) rfl fun hlt =>
      (hfold r rfl (by simp) hlt).of_published (Or.inl he.2) _ (Or.inl rfl) rfl rfl rfl
  | move r draws =>
    exact h.local hs (k := (st.rank r).move w draws) (by rw [hnext]; rfl)
      (fun _ _ _ _ => rfl) rfl fun hlt =>
      (hfold r rfl (by simp) hlt).of_published (Or.inr he.2) _ (Or.inr rfl) rfl rfl rfl
  | reset r =>
    refine h.silent hs (fun _ _ _ _ => rfl) fun q hq hqpc => ?_
    rcases eq_or_ne q r with rfl | hne
    · refine absurd ?_ hqpc
      rw [hnext]
      simp [next, State.setRank, Rank.reset]
    · have hother : st'.rank q = st.rank q := by
        rw [hnext]
        simp [next, State.setRank, hne]
      rw [hother] at hqpc ⊢
      exact h.keep hs hq hqpc
  | copy s d n =>
    refine h.silent hs (fun _ _ _ _ => rfl) fun q hq hqpc => ?_
    have hother : st'.rank q = st.rank q := by
      rw [hnext]
      rfl
    rw [hother] at hqpc ⊢
    exact h.keep hs hq hqpc

/-- Nothing has been folded at the start. -/
theorem foldedCycles_init : w.FoldedCycles [] w.init where
  rank r _ hpc := absurd rfl hpc
  receiver _ _ _ _ _ hx := by cases hx
  source _ _ _ _ _ hx := by cases hx
  message _ _ _ _ _ hx := by cases hx
  value _ _ _ _ _ hx := by cases hx

/-- Runs in which every matrix is cleared after its pending sends have been read. -/
def keepingRuns (w : World) (mode : SendMode) : System State Action :=
  (w.system mode).restrict ResetAfterReads

/-- The cycles of the ranks are isolated from each other. -/
def Isolated (w : World) : Prop :=
  w.worldSize ≤ 2 ∨ (w.worldSize : ℤ) ∣ w.simConf.maxX * w.simConf.maxY

/-- The exchange of isolated cycles is separated. -/
theorem Isolated.separated (h : w.Isolated) :
    w.exchange.parties ≤ 2 ∨ w.exchange.Separated := by
  refine h.imp_right fun hdvd => ?_
  rw [← cells_cast, Int.natCast_dvd_natCast] at hdvd
  exact separated_exchange hdvd

/-- Under isolation a message is received for the cell of the cycle it was posted for. -/
theorem Isolated.message_eq (h : w.Isolated) (hr : (w.system mode).Run w.init as st)
    {r s cycle i j : ℕ} {m : Message} {v : ℤ}
    (hs : (w.system mode).step st (.recv r s cycle i j m v) st') :
    m.cycle = cycle ∧ m.i = i ∧ m.j = j := by
  obtain ⟨hp, hex⟩ := run_exchange hr
  have htag := Exchange.tag_eq_slot h.separated hex (hp.visible rfl hp.tracks hs rfl).1
  obtain ⟨⟨_, _, rfl, ⟨p, hpc, _⟩, hm, _⟩, _⟩ := hs
  obtain ⟨hi, hj⟩ := (hp.rank r).at_cell i j (Or.inr ⟨p, hpc⟩)
  exact (hp.chan s r m (List.mem_of_mem_head? hm)).slot_inj (Nat.zero_le _) hi hj htag

/-- The sources of the deliveries, as the exchange sees them. -/
theorem sources_deliveriesIn (hr : (w.system mode).Run w.init as st) (r cycle : ℕ) {i j : ℕ}
    (hi : i < w.rows) (hj : j < w.columns) :
    (deliveriesIn as r cycle i j).map Delivery.source =
      Exchange.sources (as.filterMap (w.exchangeLabel 0)) r
        (w.slot 0 cycle (w.cellIndex i j)) := by
  refine hr.invariant (fun as _ => (deliveriesIn as r cycle i j).map Delivery.source =
    Exchange.sources (as.filterMap (w.exchangeLabel 0)) r (w.slot 0 cycle (w.cellIndex i j)))
    rfl ?_
  intro as st a st' hrun ih hstep
  rw [deliveriesIn_snoc, List.map_append, ih, List.filterMap_append, Exchange.sources_append]
  apply congrArg _
  cases a with
  | recv r' s cycle' i' j' m v =>
    obtain ⟨⟨_, _, _, ⟨p, hpc, _⟩, _⟩, _⟩ := hstep
    obtain ⟨hi', hj'⟩ := ((run_exchange hrun).1.rank r').at_cell i' j' (Or.inr ⟨p, hpc⟩)
    have hiff : (r' = r ∧ cycle' = cycle ∧ i' = i ∧ j' = j) ↔
        (r' = r ∧ w.slot 0 cycle' (w.cellIndex i' j') = w.slot 0 cycle (w.cellIndex i j)) := by
      refine and_congr_right fun _ => ⟨?_, fun heq => ?_⟩
      · rintro ⟨rfl, rfl, rfl⟩
        rfl
      · obtain ⟨hcycle, hcell⟩ := slot_inj (Nat.zero_le _) (Nat.zero_le _)
          (w.cellIndex_lt hi' hj') (w.cellIndex_lt hi hj) heq
        exact ⟨hcycle, w.cellIndex_inj hj' hj hcell⟩
    rw [deliveriesIn_recv]
    simp only [List.filterMap_cons, exchangeLabel, List.filterMap_nil, Exchange.sources_take,
      if_congr hiff rfl rfl]
    split <;> rfl
  | compute | send | own | done | publish | move | reset | copy => rfl

/-- The folds are kept in every run. -/
theorem foldedCycles_of_run (h : w.Isolated) (hr : (w.keepingRuns mode).Run w.init as st) :
    BuffersKept st ∧ w.FoldedCycles as st := by
  refine hr.invariant (fun as st => BuffersKept st ∧ w.FoldedCycles as st)
    ⟨buffersKept_init, foldedCycles_init⟩ ?_
  rintro as st a st' hrun ⟨hkept, hfold⟩ ⟨hstep, hread⟩
  refine ⟨hkept.step hstep hread, hfold.step hkept (run_exchange hrun.of_restrict).1 hstep ?_⟩
  rintro r s cycle i j m v rfl
  exact h.message_eq hrun.of_restrict hstep

/-- Every cell that a rank has completed in its cycle holds the level that the rank computed in
this cycle and one of each other rank. -/
structure CycleMatched (w : World) (as : List Action) (st : State) : Prop where
  one_each : ∀ r i j, w.Completed st r i j →
    ((deliveriesIn as r (st.rank r).cycle i j).map Delivery.source).Perm
      ((List.range w.worldSize).erase r)
  this_cycle : ∀ r i j, w.Completed st r i j →
    ∀ x ∈ deliveriesIn as r (st.rank r).cycle i j, (st.rank x.source).Entered (st.rank r).cycle ∧
      x.value = (st.rank x.source).computed (st.rank r).cycle i j
  folded : ∀ r i j, w.Completed st r i j →
    (st.rank r).myNoises (w.cellIndex i j / w.worldSize) =
      some ⟨foldedLevel ((st.rank r).computed (st.rank r).cycle i j)
        (deliveriesIn as r (st.rank r).cycle i j), j, i⟩

/-- Whatever cycles the ranks are in, every completed cell is matched within its cycle. -/
theorem cycle_matched (h : w.Isolated) (hr : (w.keepingRuns mode).Run w.init as st) :
    w.CycleMatched as st := by
  obtain ⟨-, hfold⟩ := foldedCycles_of_run h hr
  obtain ⟨-, hex⟩ := run_exchange hr.of_restrict
  have hcompute : ∀ r i j, w.Completed st r i j → (st.rank r).pc ≠ .compute := by
    rintro r i j ⟨_, _, _, _, hlt⟩ hpc
    rw [hpc] at hlt
    exact absurd hlt (Nat.not_lt_zero _)
  constructor
  · rintro r i j ⟨hr', hi, hj, hown, hlt⟩
    rw [sources_deliveriesIn hr.of_restrict r _ hi hj]
    refine Exchange.sources_perm h.separated hex hr' ?_ ?_
    · simp only [exchange, slot]
      rw [Nat.mul_comm, Nat.mul_add_mod, Nat.mod_eq_of_lt (w.cellIndex_lt hi hj), ← receiver_eq,
        hown]
    · simpa only [exchangeState, slot, Nat.add_lt_add_iff_left] using hlt
  · exact fun r i j _ x hx => ⟨hfold.source r _ i j x hx, hfold.value r _ i j x hx⟩
  · intro r i j hdone
    obtain ⟨hr', hi, hj, hown, hlt⟩ := id hdone
    exact (hfold.rank r hr' (hcompute r i j hdone)).finished i j hi hj hown hlt

/-- The schedule is a run that keeps the buffers. -/
theorem run_clearedAhead : (threeCells.keepingRuns .nonblocking).Run threeCells.init
    (threeCells.steps .nonblocking threeCells.init clearedAhead)
    (threeCells.played .nonblocking threeCells.init clearedAhead) :=
  resetAfterReads_of_run (@run_steps threeCells .nonblocking _ clearedAhead rfl)

/-- The last cell is completed with a level from a matrix that is clear again. -/
theorem cycle_matched_clearedAhead :
    let st := threeCells.played .nonblocking threeCells.init clearedAhead
    ((st.rank 0).cycle = 0 ∧ (st.rank 1).cycle = 1) ∧ threeCells.Completed st 0 0 2 ∧
      threeCells.CycleMatched (threeCells.steps .nonblocking threeCells.init clearedAhead) st :=
  ⟨⟨rfl, rfl⟩, by unfold Completed; decide, cycle_matched (Or.inl (by decide)) run_clearedAhead⟩

end World

end NoiseLevel.Mpi
