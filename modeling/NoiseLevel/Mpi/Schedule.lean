import NoiseLevel.Mpi.Shuffle

/-!
# Runs by a schedule

A schedule names the rank whose turn it is, and the sender it would receive from. The rest of a
step follows from the state, so a schedule that never blocks is a run of the program.
-/

namespace NoiseLevel.Mpi

open NoiseLevel.Core

/-- A rank takes its next step, from the named sender if it is to receive, or the library reads
the buffer of a pending send. -/
inductive Turn where
  | rank (r s : ℕ)
  | copy (s d n : ℕ)

namespace World

variable (w : World) (mode : SendMode)

/-- Some pending send of the rank is still to be read. -/
def Unread (st : State) (r : ℕ) : Prop :=
  ∃ d < w.worldSize, ∃ m ∈ st.chan r d, m.buffered = none

instance (st : State) (r : ℕ) : Decidable (w.Unread st r) :=
  inferInstanceAs (Decidable (∃ d < w.worldSize, ∃ m ∈ st.chan r d, m.buffered = none))

/-- The step of a rank, unless it has to wait or would clear a matrix that is still to be read. -/
def rankAction (st : State) (r s : ℕ) : Option Action :=
  match (st.rank r).pc with
  | .compute => some (.compute r)
  | .cell i j => some (if w.receiver i j = r then .own r i j else .send r i j)
  | .recv i j p =>
    if p + 1 < w.worldSize then
      if s < w.worldSize then
        (st.chan s r).head?.map fun m => .recv r s (st.rank r).cycle i j m (st.value s m)
      else none
    else some (.done r i j)
  | .publish => some (.publish r)
  | .move => some (.move r fun _ => 0)
  | .reset => if w.Unread st r then none else some (.reset r)

/-- The step of a turn, if it is possible. -/
def action (st : State) : Turn → Option Action
  | .rank r s => if r < w.worldSize then w.rankAction st r s else none
  | .copy s d n =>
    if mode = .nonblocking ∧ s < w.worldSize ∧ d < w.worldSize ∧
        ((st.chan s d)[n]?.map Message.buffered) = some none then
      some (.copy s d n)
    else none

/-- The steps of a schedule and the state after them, if no turn blocks. -/
noncomputable def play (st : State) : List Turn → Option (List Action × State)
  | [] => some ([], st)
  | turn :: turns =>
    (w.action mode st turn).bind fun a =>
      (play (w.next mode st a) turns).map fun played => (a :: played.1, played.2)

/-- The steps of a schedule that does not block. -/
noncomputable def steps (st : State) (turns : List Turn) : List Action :=
  (w.play mode st turns).elim [] Prod.fst

/-- The state after a schedule that does not block. -/
noncomputable def played (st : State) (turns : List Turn) : State :=
  (w.play mode st turns).elim st Prod.snd

/-- Matrices are cleared when nothing of them is still to be read. -/
def ClearsRead (st : State) (a : Action) : Prop := ∀ r, a = .reset r → ¬w.Unread st r

variable {w mode} {st : State} {a : Action}

/-- A rank that has a step in its turn can take it. -/
theorem rankAction_enabled {r s : ℕ} (hr : r < w.worldSize) (h : w.rankAction st r s = some a) :
    w.Enabled mode st a ∧ w.ClearsRead st a := by
  unfold rankAction at h
  cases hpc : (st.rank r).pc with
  | compute =>
    simp only [hpc, Option.some.injEq] at h
    exact h ▸ ⟨⟨hr, hpc⟩, nofun⟩
  | cell i j =>
    simp only [hpc, Option.some.injEq] at h
    split at h
    · next hown => exact h ▸ ⟨⟨hr, hpc, hown⟩, nofun⟩
    · next hother => exact h ▸ ⟨⟨hr, hpc, hother⟩, nofun⟩
  | recv i j p =>
    simp only [hpc] at h
    split at h
    · next hp =>
      split at h
      · next hs =>
        obtain ⟨m, hm, rfl⟩ := Option.map_eq_some_iff.mp h
        exact ⟨⟨hr, hs, rfl, ⟨p, hpc, hp⟩, hm, rfl⟩, nofun⟩
      · cases h
    · next hp =>
      obtain rfl := Option.some.inj h
      exact ⟨⟨hr, p, hpc, hp⟩, nofun⟩
  | publish =>
    simp only [hpc, Option.some.injEq] at h
    exact h ▸ ⟨⟨hr, hpc⟩, nofun⟩
  | move =>
    simp only [hpc, Option.some.injEq] at h
    exact h ▸ ⟨⟨hr, hpc⟩, nofun⟩
  | reset =>
    simp only [hpc] at h
    split at h
    · cases h
    · next hread =>
      obtain rfl := Option.some.inj h
      refine ⟨⟨hr, hpc⟩, fun r' heq => ?_⟩
      obtain rfl := Action.reset.inj heq
      exact hread

/-- A turn that does not block is a step of the program. -/
theorem action_enabled {turn : Turn} (h : w.action mode st turn = some a) :
    w.Enabled mode st a ∧ w.ClearsRead st a := by
  cases turn with
  | rank r s =>
    simp only [action] at h
    split at h
    · next hr => exact rankAction_enabled hr h
    · cases h
  | copy s d n =>
    simp only [action] at h
    split at h
    · next hcopy =>
      obtain rfl := Option.some.inj h
      obtain ⟨hmode, hs, hd, hbuffer⟩ := hcopy
      obtain ⟨m, hm, hnone⟩ := Option.map_eq_some_iff.mp hbuffer
      exact ⟨⟨hmode, hs, hd, m, hm, hnone⟩, nofun⟩
    · cases h

/-- A schedule that does not block is a run of the program. -/
theorem run_of_play {turns : List Turn} {as : List Action} {st' : State}
    (h : w.play mode st turns = some (as, st')) :
    ((w.system mode).restrict w.ClearsRead).Run st as st' := by
  induction turns generalizing st as with
  | nil =>
    obtain ⟨rfl, rfl⟩ := Prod.mk.inj (Option.some.inj h)
    exact System.Run.nil st
  | cons turn turns ih =>
    obtain ⟨a, ha, hrest⟩ := Option.bind_eq_some_iff.mp h
    obtain ⟨played, hplayed, heq⟩ := Option.map_eq_some_iff.mp hrest
    obtain ⟨rfl, rfl⟩ := Prod.mk.inj heq
    obtain ⟨he, hclears⟩ := action_enabled ha
    have hstep : ((w.system mode).restrict w.ClearsRead).Run st [a] (w.next mode st a) :=
      (System.Run.nil st).snoc ⟨⟨he, rfl⟩, hclears⟩
    exact hstep.append (ih hplayed)

/-- A schedule can be checked by playing it. -/
theorem run_steps {turns : List Turn} (h : (w.play mode st turns).isSome) :
    ((w.system mode).restrict w.ClearsRead).Run st (w.steps mode st turns)
      (w.played mode st turns) := by
  obtain ⟨played, hplayed⟩ := Option.isSome_iff_exists.mp h
  have heq : w.play mode st turns = some (w.steps mode st turns, w.played mode st turns) := by
    rw [steps, World.played, hplayed]
    rfl
  exact run_of_play heq

/-- Two ranks, a person in the first of three cells and a vehicle in the second. -/
def threeCells : World where
  simConf := { shippedConf with maxX := 3, maxY := 1, p := 1, v := 1, dp := 0, dv := 0 }
  worldSize := 2
  rand
    | 2 => 1
    | _ => 0
  worldSize_pos := Nat.two_pos
  maxX_pos := Int.natCast_pos.mpr (Nat.succ_pos 2)
  maxY_pos := Int.one_pos

/-- The second rank ends its cycle when the library has read its levels, and is one cycle ahead
when the first one receives the last of them. -/
def clearedAhead : List Turn :=
  [.rank 1 0, .rank 0 0, .rank 0 0, .rank 1 0, .copy 1 0 0, .rank 0 1, .rank 0 1, .rank 0 1,
    .rank 1 1, .rank 1 0, .rank 1 1, .rank 1 1, .copy 1 0 0, .rank 1 1, .rank 1 1, .rank 1 1,
    .rank 0 1, .rank 0 1, .rank 0 1]

end World

end NoiseLevel.Mpi
