import NoiseLevel.Mpi.Schedule

/-!
# Buffers of pending sends

A nonblocking send is never waited for, and the matrix it reads from is cleared at the
end of the cycle and filled again in the next. A rank that clears its matrix only when
the buffers of its unmatched sends have been read delivers the levels it computed.
Otherwise the receiver can find silence.
-/

namespace NoiseLevel.Mpi

open NoiseLevel.Core

/-- Outside the first call of a cycle, the matrix is the one computed in this cycle. -/
def Rank.Current (k : Rank) : Prop := k.pc ≠ .compute → k.noiseSqm = k.computed k.cycle

/-- A message holds the level computed in its cycle, or can still read it. -/
structure Rank.Keeps (k : Rank) (m : Message) : Prop where
  cycle_le : m.cycle ≤ k.cycle
  earlier : k.pc = .compute → m.cycle < k.cycle
  level : m.buffered = some (k.computed m.cycle m.i m.j) ∨
    m.buffered = none ∧ m.cycle = k.cycle ∧ k.pc ≠ .compute

namespace World

variable {w : World} {mode : SendMode} {st st' : State}

/-- Every rank has its matrix, and every pending message its level. -/
structure BuffersKept (st : State) : Prop where
  current : ∀ s, (st.rank s).Current
  pending : ∀ s d, ∀ m ∈ st.chan s d, (st.rank s).Keeps m

theorem BuffersKept.value_eq (h : BuffersKept st) {s d : ℕ} {m : Message} (hm : m ∈ st.chan s d) :
    st.value s m = (st.rank s).computed m.cycle m.i m.j := by
  rcases (h.pending s d m hm).level with hb | ⟨hb, hc, hpc⟩
  · rw [State.value, hb, Option.getD_some]
  · rw [State.value, hb, Option.getD_none, h.current s hpc, hc]

/-- A change of one rank keeps the buffers if that rank keeps its matrix and messages. -/
theorem BuffersKept.setRank (h : BuffersKept st) {r : ℕ} {k : Rank} (hk : k.Current)
    (hm : ∀ d, ∀ m ∈ st.chan r d, k.Keeps m) : BuffersKept (st.setRank r k) where
  current s := by
    rcases eq_or_ne s r with rfl | hs
    · simpa [State.setRank] using hk
    · simpa [State.setRank, hs] using h.current s
  pending s d m hmem := by
    rcases eq_or_ne s r with rfl | hs
    · simpa [State.setRank] using hm d m hmem
    · simpa [State.setRank, hs] using h.pending s d m hmem

/-- A step that does not touch the matrix keeps the buffers. -/
theorem BuffersKept.frame (h : BuffersKept st) {r : ℕ} {k : Rank}
    (hpc : (st.rank r).pc ≠ .compute) (hpc' : k.pc ≠ .compute)
    (hcycle : k.cycle = (st.rank r).cycle)
    (hsqm : k.noiseSqm = (st.rank r).noiseSqm) (hcomp : k.computed = (st.rank r).computed) :
    BuffersKept (st.setRank r k) := by
  refine h.setRank (fun _ => ?_) fun d m hm => ?_
  · rw [hsqm, hcomp, hcycle, h.current r hpc]
  · obtain ⟨hle, _, hlevel⟩ := h.pending r d m hm
    refine ⟨hcycle ▸ hle, fun hc => absurd hc hpc', ?_⟩
    rw [hcomp, hcycle]
    exact hlevel.imp_right fun ⟨hb, hc, _⟩ => ⟨hb, hc, hpc'⟩

/-- A rank clears its matrix only when the buffers of its unmatched sends have been read. -/
def ResetAfterReads (st : State) (a : Action) : Prop :=
  ∀ r, a = .reset r → ∀ d, ∀ m ∈ st.chan r d, m.buffered ≠ none

/-- Only the first call of a cycle is made before the matrix is computed. -/
theorem pc_ne_compute {a : Action} {r : ℕ} (he : w.Enabled mode st a) (hr : a.actor = some r)
    (ha : a ≠ .compute r) : (st.rank r).pc ≠ .compute := by
  intro hpc
  cases a <;> cases hr
  case compute => exact ha rfl
  case send | own => cases hpc.symm.trans he.2.1
  case publish | move | reset => cases hpc.symm.trans he.2
  case recv =>
    obtain ⟨_, _, _, ⟨p, hp, _⟩, _⟩ := he
    cases hpc.symm.trans hp
  case done =>
    obtain ⟨_, p, hp, _⟩ := he
    cases hpc.symm.trans hp

/-- A rank posts the level it has computed. -/
theorem BuffersKept.send (h : BuffersKept st) {r i j : ℕ} (hpc : (st.rank r).pc ≠ .compute) :
    BuffersKept (w.next mode st (.send r i j)) := by
  have hk : BuffersKept (st.setRank r ((st.rank r).sent w i j)) :=
    h.frame hpc (afterCell_ne_compute i j) rfl rfl rfl
  refine ⟨hk.current, ?_⟩
  intro s d m hm
  simp only [next, Exchange.push] at hm
  split at hm
  · next hsd =>
    rcases List.mem_append.mp hm with hold | hnew
    · exact hk.pending s d m hold
    · obtain ⟨rfl, rfl⟩ := hsd
      cases List.mem_singleton.mp hnew
      have hrank : ((w.next mode st (.send s i j)).rank s) = (st.rank s).sent w i j := by
        simp [next]
      rw [hrank]
      refine ⟨le_rfl, fun hcomp => absurd hcomp (afterCell_ne_compute i j), ?_⟩
      cases mode with
      | buffered =>
        left
        simp only [posted, Rank.sent, h.current s hpc]
      | nonblocking => exact Or.inr ⟨rfl, rfl, afterCell_ne_compute i j⟩
  · exact hk.pending s d m hm

/-- A receiving rank takes a message away. -/
theorem BuffersKept.recv (h : BuffersKept st) {r s cycle i j p : ℕ} {m : Message} {v : ℤ}
    (hp : (st.rank r).pc = .recv i j p) :
    BuffersKept (w.next mode st (.recv r s cycle i j m v)) := by
  have hpc : (st.rank r).pc ≠ .compute := fun hc => by cases hc.symm.trans hp
  have hpc' : ((st.rank r).received i j v).pc ≠ .compute := by
    simp only [Rank.received, hp]
    exact nofun
  have hk : BuffersKept (st.setRank r ((st.rank r).received i j v)) :=
    h.frame hpc hpc' rfl rfl rfl
  refine ⟨hk.current, ?_⟩
  intro a d m' hm
  simp only [next, Exchange.pop] at hm
  split at hm
  · exact hk.pending a d m' (List.mem_of_mem_tail hm)
  · exact hk.pending a d m' hm

/-- Under this condition no step touches a buffer that is still to be read. -/
theorem BuffersKept.step {a : Action} (h : BuffersKept st) (hs : (w.system mode).step st a st')
    (hc : ResetAfterReads st a) : BuffersKept st' := by
  obtain ⟨he, rfl⟩ := hs
  have hpc : ∀ r, a.actor = some r → a ≠ .compute r → (st.rank r).pc ≠ .compute :=
    fun r => pc_ne_compute he
  cases a with
  | compute r =>
    refine h.setRank (fun _ => ?_) fun d m hm => ?_
    · simp [Rank.compute]
    · obtain ⟨hle, hearlier, hlevel⟩ := h.pending r d m hm
      have hlt := hearlier he.2
      refine ⟨hle, nofun, Or.inl ?_⟩
      rcases hlevel with hb | ⟨_, _, hpc⟩
      · simpa [Rank.compute, Function.update_of_ne hlt.ne] using hb
      · exact absurd he.2 hpc
  | send r i j => exact h.send (hpc r rfl nofun)
  | recv r s cycle i j m v =>
    obtain ⟨_, _, _, ⟨p, hp, _⟩, _, _⟩ := he
    exact h.recv hp
  | own r i j => exact h.frame (hpc r rfl nofun) nofun rfl rfl rfl
  | done r i j => exact h.frame (hpc r rfl nofun) (afterCell_ne_compute i j) rfl rfl rfl
  | publish r => exact h.frame (hpc r rfl nofun) nofun rfl rfl rfl
  | move r draws => exact h.frame (hpc r rfl nofun) nofun rfl rfl rfl
  | reset r =>
    refine h.setRank (fun hpc => absurd rfl hpc) fun d m hm => ?_
    obtain ⟨hle, _, hlevel⟩ := h.pending r d m hm
    refine ⟨hle.trans (Nat.le_succ _), fun _ => Nat.lt_succ_of_le hle, Or.inl ?_⟩
    rcases hlevel with hb | ⟨hb, _, _⟩
    · exact hb
    · exact absurd hb (hc r rfl d m hm)
  | copy s d n =>
    refine ⟨h.current, ?_⟩
    intro a b m hm
    rcases State.mem_copy hm with hmem | ⟨m', hmem, rfl⟩
    · exact h.pending a b m hmem
    · have hkeep := h.pending a b m' hmem
      exact ⟨hkeep.cycle_le, hkeep.earlier, Or.inl (by rw [h.value_eq hmem]; rfl)⟩

theorem buffersKept_init : BuffersKept w.init where
  current s hpc := absurd rfl hpc
  pending s d m hm := by cases hm

/-- A value received in this step is the level that its sender computed for the cell in
the cycle in which it posted the send. -/
def DeliversComputed (st : State) (a : Action) : Prop :=
  ∀ r s cycle i j m v, a = .recv r s cycle i j m v → v = (st.rank s).computed m.cycle m.i m.j

/-- Every receive of every run delivers the level that its sender computed. -/
def SendsStable (w : World) (mode : SendMode) : Prop :=
  ∀ st, (w.system mode).Reaches w.init st → ∀ a, w.Enabled mode st a → DeliversComputed st a

/-- Runs in which every matrix is cleared after its pending sends have been read deliver
the computed levels. -/
theorem delivers_computed {a : Action}
    (hr : ((w.system mode).restrict ResetAfterReads).Reaches w.init st)
    (he : w.Enabled mode st a) : DeliversComputed st a := by
  have hkept := hr.invariant BuffersKept buffersKept_init fun _ _ _ h hs => h.step hs.1 hs.2
  rintro r s cycle i j m v rfl
  obtain ⟨_, _, _, _, hm, rfl⟩ := he
  exact hkept.value_eq (List.mem_of_mem_head? hm)

/-- The state after some steps. -/
noncomputable def after (w : World) (mode : SendMode) (as : List Action) : State :=
  as.foldl (w.next mode) w.init

theorem reaches_after_snoc {P : State → Action → Prop} {as : List Action} {a : Action}
    (h : ((w.system mode).restrict P).Reaches w.init (w.after mode as))
    (he : w.Enabled mode (w.after mode as) a) (hP : P (w.after mode as) a) :
    ((w.system mode).restrict P).Reaches w.init (w.after mode (as ++ [a])) := by
  refine h.snoc ⟨⟨he, ?_⟩, hP⟩
  rw [after, List.foldl_append]
  rfl

/-- The second rank finishes its cycle before the first one receives. -/
def lateReceive : List Action :=
  [.compute 1, .send 1 0 0, .publish 1, .move 1 fun _ => 0, .reset 1, .compute 0, .own 0 0 0]

theorem reaches_lateReceive : (twoRanks.system .nonblocking).Reaches twoRanks.init
    (twoRanks.after .nonblocking lateReceive) := by
  have h0 : ((twoRanks.system .nonblocking).restrict fun _ _ => True).Reaches twoRanks.init
      (twoRanks.after .nonblocking []) := System.Reaches.refl _ _
  have h1 := reaches_after_snoc (a := .compute 1) h0 ⟨by decide, rfl⟩ trivial
  have h2 := reaches_after_snoc (a := .send 1 0 0) h1 ⟨by decide, rfl, by decide⟩ trivial
  have h3 := reaches_after_snoc (a := .publish 1) h2 ⟨by decide, rfl⟩ trivial
  have h4 := reaches_after_snoc (a := .move 1 fun _ => 0) h3 ⟨by decide, rfl⟩ trivial
  have h5 := reaches_after_snoc (a := .reset 1) h4 ⟨by decide, rfl⟩ trivial
  have h6 := reaches_after_snoc (a := .compute 0) h5 ⟨by decide, rfl⟩ trivial
  have h7 := reaches_after_snoc (a := .own 0 0 0) h6 ⟨by decide, rfl, by decide⟩ trivial
  exact h7.of_restrict

/-- The level that one person adds to the cell it stands in. -/
theorem computed_lateReceive :
    ((twoRanks.after .nonblocking lateReceive).rank 1).computed 0 0 0 = 40 := by
  have hlocal : localArr twoRanks.simConf twoRanks.worldSize twoRanks.rand 1 =
      [{ noiseLevel := 40, distanceAffected := 1, movingSpeed := 2, x := 0, y := 0 }] := by decide
  have hcomputed : ((twoRanks.after .nonblocking lateReceive).rank 1).computed 0 =
      computeNoiseSqm twoRanks.simConf initNoiseSqm
        (localArr twoRanks.simConf twoRanks.worldSize twoRanks.rand 1)
        (numElemPerProc twoRanks.simConf twoRanks.worldSize) := rfl
  have hlevels : (([{ noiseLevel := 40, distanceAffected := 1, movingSpeed := 2, x := 0, y := 0 }]
      |>.take (numElemPerProc twoRanks.simConf twoRanks.worldSize).toNat).filter fun s =>
        Covers twoRanks.simConf s 0 0).map NoiseSource.noiseLevel = [40] := by decide
  rw [hcomputed, hlocal, computeNoiseSqm_eq, foldl_addSource_apply, hlevels]
  exact sumNoises_zero_left 40

/-- The first rank receives silence instead of the level of the second. -/
theorem not_sendsStable_twoRanks : ¬twoRanks.SendsStable .nonblocking := by
  intro h
  have hvalue : (twoRanks.after .nonblocking lateReceive).value 1 ⟨0, 0, 0, none⟩ = 0 := by
    have hreset : (twoRanks.after .nonblocking lateReceive).value 1 ⟨0, 0, 0, none⟩ =
        resetMatrix ((twoRanks.after .nonblocking (lateReceive.take 4)).rank 1).noiseSqm 1 1 0 0 :=
      rfl
    rw [hreset, resetMatrix_apply, if_pos (by decide)]
  have hrecv := h _ reaches_lateReceive (.recv 0 1 0 0 0 ⟨0, 0, 0, none⟩ 0)
    ⟨by decide, by decide, rfl, ⟨0, rfl, by decide⟩, rfl, hvalue.symm⟩ 0 1 0 0 0 _ _ rfl
  rw [Nat.cast_zero, computed_lateReceive] at hrecv
  cases hrecv

/-- No message is sent to a rank that does not exist. -/
theorem chan_eq_nil (hr : (w.system mode).Reaches w.init st) (s : ℕ) {d : ℕ}
    (hd : w.worldSize ≤ d) : st.chan s d = [] := by
  refine hr.invariant (fun st => st.chan s d = []) rfl fun st a st' h hs => ?_
  obtain ⟨he, rfl⟩ := hs
  cases a with
  | send r i j =>
    have hne : ¬(s = r ∧ d = w.receiver i j) := fun hsd =>
      absurd (Nat.mod_lt _ w.worldSize_pos) (not_lt.mpr (hsd.2 ▸ hd))
    simpa only [next, Exchange.push, if_neg hne] using h
  | recv r s' cycle i j m v =>
    have hne : ¬(s = s' ∧ d = r) := fun hsd => absurd he.1 (not_lt.mpr (hsd.2 ▸ hd))
    simpa only [next, Exchange.pop, if_neg hne] using h
  | copy s' d' n =>
    have hne : ¬(s = s' ∧ d = d') := fun hsd => absurd he.2.2.1 (not_lt.mpr (hsd.2 ▸ hd))
    simpa only [next, State.copy, if_neg hne] using h
  | compute | own | done | publish | move | reset => exact h

/-- A schedule clears no matrix before its pending sends have been read. -/
theorem resetAfterReads_of_run {as : List Action}
    (hr : ((w.system mode).restrict w.ClearsRead).Run w.init as st) :
    ((w.system mode).restrict ResetAfterReads).Run w.init as st := by
  induction hr with
  | nil => exact System.Run.nil _
  | @snoc st st' as a hr hs ih =>
    refine ih.snoc ⟨hs.1, ?_⟩
    rintro r rfl d m hm hnone
    rcases lt_or_ge d w.worldSize with hd | hd
    · exact hs.2 r rfl ⟨d, hd, m, hm, hnone⟩
    · rw [chan_eq_nil ⟨as, hr.of_restrict⟩ r hd] at hm
      cases hm

/-- The second rank ends its cycle when the library has read its level, and the first one is about
to receive it. -/
def clearedEarly : List Turn :=
  [.rank 1 0, .rank 1 0, .copy 1 0 0, .rank 1 0, .rank 1 0, .rank 1 0, .rank 0 1, .rank 0 1]

/-- The first rank obtains the level of the second though its matrix is clear again. -/
theorem delivers_computed_twoRanks :
    let st := twoRanks.played .nonblocking twoRanks.init clearedEarly
    (st.rank 1).cycle = 1 ∧ ∃ m v, twoRanks.Enabled .nonblocking st (.recv 0 1 0 0 0 m v) ∧
      m.cycle = 0 ∧ DeliversComputed st (.recv 0 1 0 0 0 m v) := by
  have hr := resetAfterReads_of_run (@run_steps twoRanks .nonblocking _ clearedEarly rfl)
  have he : twoRanks.Enabled .nonblocking (twoRanks.played .nonblocking twoRanks.init clearedEarly)
      (.recv 0 1 0 0 0 _ _) := ⟨by decide, by decide, rfl, ⟨0, rfl, by decide⟩, rfl, rfl⟩
  exact ⟨rfl, _, _, he, rfl, delivers_computed ⟨_, hr⟩ he⟩

end World

end NoiseLevel.Mpi
