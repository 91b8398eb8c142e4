import NoiseLevel.Core.EnergyMerge
import NoiseLevel.Mpi.Aggregation
import NoiseLevel.Mpi.CycleMatching
import NoiseLevel.Mpi.PublishedCells

/-!
# From the sources to the published levels

What a rank publishes in a cycle, traced back to the sources that the ranks computed in that
cycle: the levels of those that reach a cell, summed on their ranks and then by the owner, are
close to what a single process would compute and to the exact level. A rank computes the first
`num_elem_per_proc` of its sources, which may not be all that it holds.
-/

namespace NoiseLevel.Mpi

open NoiseLevel.Core

/-- The draws of the moves that a rank has made, oldest first. -/
def drawsOf (as : List Action) (r : ℕ) : List (ℕ → ℕ) :=
  as.filterMap fun
    | .move r' draws => if r' = r then some draws else none
    | _ => none

theorem drawsOf_snoc (as : List Action) (a : Action) (r : ℕ) :
    drawsOf (as ++ [a]) r = drawsOf as r ++ drawsOf [a] r := by
  simp only [drawsOf, List.filterMap_append]

theorem drawsOf_move (r : ℕ) (draws : ℕ → ℕ) (r' : ℕ) :
    drawsOf [.move r draws] r' = if r = r' then [draws] else [] := by
  by_cases h : r = r' <;> simp [drawsOf, h]

namespace World

variable (w : World)

/-- The sources of a rank after some moves. -/
def sourcesAfter (r : ℕ) (moves : List (ℕ → ℕ)) : List NoiseSource :=
  moves.foldl (fun sources draws => moveNoiseSources w.simConf draws sources
    (numElemPerProc w.simConf w.worldSize)) (localArr w.simConf w.worldSize w.rand r)

/-- The sources of a rank in one of its cycles. -/
def sourcesIn (as : List Action) (r cycle : ℕ) : List NoiseSource :=
  w.sourcesAfter r ((drawsOf as r).take cycle)

/-- The levels of the computed sources of a rank that reach a cell, in their order. -/
def reaching (sources : List NoiseSource) (i j : ℕ) : List ℤ :=
  ((sources.take (numElemPerProc w.simConf w.worldSize).toNat).filter fun s =>
    Covers w.simConf s i j).map NoiseSource.noiseLevel

/-- The levels that all ranks together add to a cell in a cycle. -/
def heard (as : List Action) (cycle i j : ℕ) : List ℤ :=
  (List.range w.worldSize).flatMap fun s => w.reaching (w.sourcesIn as s cycle) i j

/-- The same levels with the ranks that hold them. -/
def dealt (as : List Action) (cycle i j : ℕ) : List (ℕ × ℤ) :=
  (List.range w.worldSize).flatMap fun s =>
    (w.reaching (w.sourcesIn as s cycle) i j).map (Prod.mk s)

theorem map_snd_dealt (as : List Action) (cycle i j : ℕ) :
    (w.dealt as cycle i j).map Prod.snd = w.heard as cycle i j := by
  simp only [dealt, heard, List.map_flatMap, List.map_map, Function.comp_def, List.map_id']

/-- Only one of the members of a list contributes. -/
theorem flatMap_ite_eq {α : Type*} {l : List ℕ} (hl : l.Nodup) {r : ℕ} (hr : r ∈ l)
    (f : ℕ → List α) : (l.flatMap fun s => if s = r then f s else []) = f r := by
  obtain ⟨before, after, rfl⟩ := List.append_of_mem hr
  rw [List.nodup_append, List.nodup_cons] at hl
  obtain ⟨-, ⟨hafter, -⟩, hbefore⟩ := hl
  have hnone {m : List ℕ} (hm : r ∉ m) : (m.flatMap fun s => if s = r then f s else []) = [] := by
    rw [List.flatMap_eq_nil_iff]
    intro s hs
    exact if_neg fun heq : s = r => hm (heq ▸ hs)
  rw [List.flatMap_append, List.flatMap_cons, if_pos rfl, hnone hafter,
    hnone fun hmem => hbefore r hmem r List.mem_cons_self rfl, List.nil_append, List.append_nil]

variable {w} in
/-- Every rank holds its own sources. -/
theorem heldBy_dealt {s : ℕ} (hs : s < w.worldSize) (as : List Action) (cycle i j : ℕ) :
    heldBy (w.dealt as cycle i j) s = w.reaching (w.sourcesIn as s cycle) i j := by
  have hpart (r : ℕ) (levels : List ℤ) :
      ((levels.map (Prod.mk r)).filter fun d => d.1 = s).map Prod.snd =
        if r = s then levels else [] := by
    rw [List.filter_map, List.map_map]
    split_ifs with heq
    · simp [Function.comp_def, heq]
    · simp [Function.comp_def, heq]
  rw [heldBy, dealt, List.filter_flatMap, List.map_flatMap]
  simp only [hpart]
  exact flatMap_ite_eq List.nodup_range (List.mem_range.mpr hs) _

variable {w} {mode : SendMode} {st st' : State} {as : List Action} {a : Action}

/-- The number of moves that a rank has made, and what it has computed from its sources. -/
structure SourcedRank (w : World) (as : List Action) (r : ℕ) (k : Rank) : Prop where
  moved : (drawsOf as r).length = k.cycle + if k.pc = .reset then 1 else 0
  localArr : k.localArr = w.sourcesAfter r (drawsOf as r)
  cleared : k.pc = .compute → ∀ i < w.rows, ∀ j < w.columns, k.noiseSqm i j = 0
  computed : ∀ cycle, k.Entered cycle → ∀ i < w.rows, ∀ j < w.columns,
    k.computed cycle i j = partialLevel (w.reaching (w.sourcesIn as r cycle) i j)

section SourcedRank

variable {r : ℕ} {k : Rank}

theorem SourcedRank.congr {as' : List Action} (h : w.SourcedRank as r k)
    (hsame : drawsOf as' r = drawsOf as r) : w.SourcedRank as' r k where
  moved := hsame ▸ h.moved
  localArr := hsame ▸ h.localArr
  cleared := h.cleared
  computed := by
    unfold sourcesIn
    rw [hsame]
    exact h.computed

/-- A step that neither computes nor moves nor clears. -/
theorem SourcedRank.frame (h : w.SourcedRank as r k) (k' : Rank) (hcycle : k'.cycle = k.cycle)
    (hpc : k.pc ≠ .compute ∧ k.pc ≠ .reset) (hpc' : k'.pc ≠ .compute ∧ k'.pc ≠ .reset)
    (hlocal : k'.localArr = k.localArr) (hcomputed : k'.computed = k.computed) :
    w.SourcedRank as r k' where
  moved := by
    rw [hcycle, if_neg hpc'.2]
    have hmoved := h.moved
    rwa [if_neg hpc.2] at hmoved
  localArr := hlocal.trans h.localArr
  cleared hc := absurd hc hpc'.1
  computed cycle hentered := by
    rw [hcomputed]
    exact h.computed cycle (Rank.entered_of_le (hcycle ▸ hentered.le) hpc.1)

/-- The matrix of a cycle is computed from the sources of the cycle. -/
theorem SourcedRank.compute (h : w.SourcedRank as r k) (hpc : k.pc = .compute) :
    w.SourcedRank as r (k.compute w) := by
  have hmoved := h.moved
  rw [if_neg (by simp [hpc]), Nat.add_zero] at hmoved
  refine ⟨hmoved, h.localArr, by simp [Rank.compute], fun cycle hentered i hi j hj => ?_⟩
  rcases (show cycle ≤ k.cycle from hentered.le).lt_or_eq with hlt | heq
  · have hold : (k.compute w).computed cycle = k.computed cycle :=
      Function.update_of_ne hlt.ne _ _
    rw [hold]
    exact h.computed cycle (Or.inl hlt) i hi j hj
  · obtain rfl : cycle = k.cycle := heq
    have hnow : (k.compute w).computed k.cycle = computeNoiseSqm w.simConf k.noiseSqm k.localArr
        (numElemPerProc w.simConf w.worldSize) := Function.update_self _ _ _
    have hsources : w.sourcesIn as r k.cycle = k.localArr := by
      rw [sourcesIn, ← hmoved, List.take_length, ← h.localArr]
    rw [hnow, hsources, computeNoiseSqm_eq, foldl_addSource_apply, h.cleared hpc i hi j hj]
    rfl

/-- The cycle of a rank is over when its sources move. -/
theorem SourcedRank.move (h : w.SourcedRank as r k) (hpc : k.pc = .move) (draws : ℕ → ℕ) :
    w.SourcedRank (as ++ [.move r draws]) r (k.move w draws) := by
  have hmoved := h.moved
  rw [if_neg (by simp [hpc]), Nat.add_zero] at hmoved
  have hdraws : drawsOf (as ++ [.move r draws]) r = drawsOf as r ++ [draws] := by
    rw [drawsOf_snoc, drawsOf_move, if_pos rfl]
  refine ⟨?_, ?_, by simp [Rank.move], fun cycle hentered i hi j hj => ?_⟩
  · rw [hdraws, List.length_append, hmoved]
    rfl
  · rw [hdraws, sourcesAfter, List.foldl_append]
    simp only [Rank.move, List.foldl_cons, List.foldl_nil]
    rw [h.localArr]
    rfl
  · have hle : cycle ≤ (drawsOf as r).length := by
      rw [hmoved]
      exact hentered.le
    rw [sourcesIn, hdraws, List.take_append_of_le_length hle]
    exact h.computed cycle (Rank.entered_of_le hentered.le (by simp [hpc])) i hi j hj

/-- A new cycle begins with a silent matrix. -/
theorem SourcedRank.reset (h : w.SourcedRank as r k) (hpc : k.pc = .reset) :
    w.SourcedRank as r (k.reset w) where
  moved := by
    have hmoved := h.moved
    rw [if_pos hpc] at hmoved
    rw [hmoved]
    rfl
  localArr := h.localArr
  cleared _ i hi j hj := by
    have hrows : (i : ℤ) < w.simConf.maxY := by
      unfold rows SimulationConfig.rows at hi
      omega
    have hcolumns : (j : ℤ) < w.simConf.maxX := by
      unfold columns SimulationConfig.columns at hj
      omega
    simp only [Rank.reset]
    rw [resetMatrix_apply, if_pos ⟨⟨Int.natCast_nonneg i, hrows⟩, Int.natCast_nonneg j, hcolumns⟩]
  computed cycle hentered := by
    apply h.computed cycle
    rcases hentered with hlt | ⟨-, hne⟩
    · exact Rank.entered_of_le (Nat.lt_succ_iff.mp hlt) (by simp [hpc])
    · exact absurd rfl hne

end SourcedRank

/-- All ranks compute from their sources. -/
def Sourced (w : World) (as : List Action) (st : State) : Prop :=
  ∀ r, w.SourcedRank as r (st.rank r)

theorem sourced_init : w.Sourced [] w.init := fun r =>
  ⟨rfl, rfl, fun _ _ _ _ _ => rfl, fun _ h => by
    rcases h with h | ⟨-, h⟩
    · exact absurd h (Nat.not_lt_zero _)
    · exact absurd rfl h⟩

/-- A step of one rank in which nothing moves. -/
theorem Sourced.local (h : w.Sourced as st) {r : ℕ} {k : Rank}
    (hrank : st'.rank = Function.update st.rank r k) (hnone : ∀ q, drawsOf [a] q = [])
    (hk : w.SourcedRank as r k) : w.Sourced (as ++ [a]) st' := by
  intro q
  have hsame : drawsOf (as ++ [a]) q = drawsOf as q := by
    rw [drawsOf_snoc, hnone, List.append_nil]
  refine SourcedRank.congr (?_ : w.SourcedRank as q (st'.rank q)) hsame
  rw [hrank]
  rcases eq_or_ne q r with rfl | hne
  · simpa using hk
  · simpa [hne] using h q

theorem Sourced.step (h : w.Sourced as st) (hs : (w.system mode).step st a st') :
    w.Sourced (as ++ [a]) st' := by
  have hpc : ∀ r, a.actor = some r → a ≠ .compute r → (st.rank r).pc ≠ .compute :=
    fun r => pc_ne_compute hs.1
  obtain ⟨he, rfl⟩ := hs
  cases a with
  | compute r => exact h.local rfl (fun _ => rfl) ((h r).compute he.2)
  | send r i j =>
    refine h.local rfl (fun _ => rfl) ((h r).frame _ rfl ⟨hpc r rfl (by simp), ?_⟩
      ⟨afterCell_ne_compute i j, ?_⟩ rfl rfl)
    · simp [he.2.1]
    · rcases afterCell_cases (w := w) i j with ⟨i', j', hcell⟩ | hcell <;>
        simp [Rank.sent, hcell]
  | own r i j =>
    refine h.local rfl (fun _ => rfl) ((h r).frame _ rfl ⟨hpc r rfl (by simp), ?_⟩
      (by simp [Rank.own]) rfl rfl)
    simp [he.2.1]
  | recv r s cycle i j m v =>
    obtain ⟨_, _, _, ⟨p, hrecv, _⟩, _⟩ := he
    have hnext : ((st.rank r).received i j v).pc = .recv i j (p + 1) := by
      simp only [Rank.received, hrecv]
    refine h.local rfl (fun _ => rfl) ((h r).frame _ rfl ⟨hpc r rfl (by simp), ?_⟩ ⟨?_, ?_⟩ rfl rfl)
    · simp [hrecv]
    · simp [hnext]
    · simp [hnext]
  | done r i j =>
    obtain ⟨_, p, hrecv, _⟩ := he
    refine h.local rfl (fun _ => rfl) ((h r).frame _ rfl ⟨hpc r rfl (by simp), ?_⟩
      ⟨afterCell_ne_compute i j, ?_⟩ rfl rfl)
    · simp [hrecv]
    · rcases afterCell_cases (w := w) i j with ⟨i', j', hcell⟩ | hcell <;>
        simp [Rank.done, hcell]
  | publish r =>
    refine h.local rfl (fun _ => rfl) ((h r).frame _ rfl ⟨hpc r rfl (by simp), ?_⟩
      (by simp [Rank.publish]) rfl rfl)
    simp [he.2]
  | move r draws =>
    intro q
    rcases eq_or_ne q r with rfl | hne
    · simpa [next, State.setRank] using (h q).move he.2 draws
    · have hsame : drawsOf (as ++ [.move r draws]) q = drawsOf as q := by
        rw [drawsOf_snoc, drawsOf_move, if_neg hne.symm, List.append_nil]
      have hother : (w.next mode st (.move r draws)).rank q = st.rank q := by
        simp [next, State.setRank, hne]
      rw [hother]
      exact (h q).congr hsame
  | reset r => exact h.local rfl (fun _ => rfl) ((h r).reset he.2)
  | copy s d n =>
    exact h.local (r := s) (by simp [next, State.copy]) (fun _ => rfl) (h s)

theorem sourced_of_run (hr : (w.system mode).Run w.init as st) : w.Sourced as st :=
  hr.invariant w.Sourced sourced_init fun _ _ _ _ _ h hs => h.step hs

/-- Moving changes no level. -/
theorem noiseLevels_moveNoiseSources (simConf : SimulationConfig) (draws : ℕ → ℕ)
    (sources : List NoiseSource) (numElem : ℤ) :
    (moveNoiseSources simConf draws sources numElem).map NoiseSource.noiseLevel =
      sources.map NoiseSource.noiseLevel := by
  apply List.ext_getElem?
  intro l
  rw [List.getElem?_map, getElem?_moveNoiseSources, List.getElem?_map]
  split
  · rw [Option.map_map]
    rfl
  · rfl

variable (w) in
/-- The sources of a rank keep the levels of the configuration. -/
theorem noiseLevel_sourcesAfter (r : ℕ) (moves : List (ℕ → ℕ)) :
    ∀ s ∈ w.sourcesAfter r moves,
      s.noiseLevel = w.simConf.np ∨ s.noiseLevel = w.simConf.nv := by
  have hmoves : ∀ sources : List NoiseSource, (moves.foldl (fun sources draws =>
      moveNoiseSources w.simConf draws sources (numElemPerProc w.simConf w.worldSize))
        sources).map NoiseSource.noiseLevel = sources.map NoiseSource.noiseLevel := by
    induction moves with
    | nil => exact fun _ => rfl
    | cons draws moves ih =>
      intro sources
      rw [List.foldl_cons, ih, noiseLevels_moveNoiseSources]
  intro s hs
  have hlevel : s.noiseLevel ∈ (w.sourcesAfter r moves).map NoiseSource.noiseLevel :=
    List.mem_map_of_mem hs
  rw [sourcesAfter, hmoves] at hlevel
  obtain ⟨s', hs', heq⟩ := List.mem_map.mp hlevel
  rw [← heq]
  rcases List.mem_append.mp (List.mem_of_mem_drop (List.mem_of_mem_take hs')) with hp | hv
  · obtain ⟨i, -, rfl⟩ := List.mem_map.mp hp
    exact Or.inl rfl
  · obtain ⟨i, -, rfl⟩ := List.mem_map.mp hv
    exact Or.inr rfl

theorem mem_reaching {sources : List NoiseSource} {i j : ℕ} {level : ℤ}
    (h : level ∈ w.reaching sources i j) : ∃ s ∈ sources, s.noiseLevel = level := by
  obtain ⟨s, hs, rfl⟩ := List.mem_map.mp h
  exact ⟨s, List.mem_of_mem_take (List.mem_of_mem_filter hs), rfl⟩

/-- The levels of a cell in a cycle are levels of the configuration. -/
theorem level_of_mem_heard {cycle i j : ℕ} {level : ℤ} (h : level ∈ w.heard as cycle i j) :
    level = w.simConf.np ∨ level = w.simConf.nv := by
  obtain ⟨s, -, hs⟩ := List.mem_flatMap.mp h
  obtain ⟨source, hsource, rfl⟩ := mem_reaching hs
  exact w.noiseLevel_sourcesAfter s _ source hsource

/-- What the level of a cell has to do with the sources that are computed in a cycle. -/
structure PublishedLevel (w : World) (as : List Action) (cycle i j : ℕ) (level : ℤ) : Prop where
  /-- It is close to what one process would compute from all of them. -/
  drift : |level - partialLevel (w.heard as cycle i j)| ≤ 10
  silent : w.heard as cycle i j = [] → level = 0
  positive : w.heard as cycle i j ≠ [] → 0 < level
  /-- Each sum costs at most half a decibel. -/
  error : w.heard as cycle i j ≠ [] → |(level : ℝ) - energyLevel (w.heard as cycle i j)| ≤
    ((w.heard as cycle i j).length - 1 : ℝ) / 2

section Published

variable {r i j : ℕ}

/-- The levels of all ranks arrive at the owner of a completed cell. -/
theorem exists_distributed (h : w.Isolated) (hnp : 0 < w.simConf.np) (hnv : 0 < w.simConf.nv)
    (hr : (w.keepingRuns mode).Run w.init as st) (hdone : w.Completed st r i j) :
    ∃ arrival, Distributed w.worldSize r (w.dealt as (st.rank r).cycle i j) arrival ∧
      (st.rank r).myNoises (w.cellIndex i j / w.worldSize) =
        some ⟨sharedLevel r (w.dealt as (st.rank r).cycle i j) arrival, j, i⟩ := by
  obtain ⟨hr', hi, hj, -, hlt⟩ := id hdone
  have hsourced := sourced_of_run hr.of_restrict
  obtain ⟨heach, hcycle, hfolded⟩ := cycle_matched h hr
  have hentered : (st.rank r).Entered (st.rank r).cycle := by
    refine Or.inr ⟨rfl, fun hpc => ?_⟩
    rw [hpc] at hlt
    exact absurd hlt (Nat.not_lt_zero _)
  have hcomputed {s : ℕ} (hs : s < w.worldSize)
      (hs' : (st.rank s).Entered (st.rank r).cycle) :
      (st.rank s).computed (st.rank r).cycle i j =
        partialLevel (heldBy (w.dealt as (st.rank r).cycle i j) s) := by
    rw [heldBy_dealt hs, (hsourced s).computed _ hs' i hi j hj]
  have hvalues : (deliveriesIn as r (st.rank r).cycle i j).map Delivery.value =
      ((deliveriesIn as r (st.rank r).cycle i j).map Delivery.source).map fun s =>
        partialLevel (heldBy (w.dealt as (st.rank r).cycle i j) s) := by
    rw [List.map_map]
    refine List.map_congr_left fun x hx => ?_
    obtain ⟨hx', hvalue⟩ := hcycle r i j hdone x hx
    have hsource : x.source ∈ (List.range w.worldSize).erase r :=
      (heach r i j hdone).mem_iff.mp (List.mem_map_of_mem hx)
    rw [hvalue, hcomputed (List.mem_range.mp (List.mem_of_mem_erase hsource)) hx']
    rfl
  refine ⟨(deliveriesIn as r (st.rank r).cycle i j).map Delivery.source,
    ⟨fun d hd => ?_, fun d hd => ?_, hr', heach r i j hdone⟩, ?_⟩
  · have hlevel := List.mem_map_of_mem (f := Prod.snd) hd
    rw [map_snd_dealt] at hlevel
    rcases level_of_mem_heard hlevel with heq | heq
    · exact heq ▸ hnp
    · exact heq ▸ hnv
  · obtain ⟨s, hs, hmem⟩ := List.mem_flatMap.mp hd
    obtain ⟨level, -, rfl⟩ := List.mem_map.mp hmem
    exact List.mem_range.mp hs
  · rw [hfolded r i j hdone, foldedLevel, hvalues, hcomputed hr' hentered]
    rfl

/-- Every completed cell holds a level that is close to the exact one of its cycle. -/
theorem exists_publishedLevel (h : w.Isolated) (hnp : 0 < w.simConf.np) (hnv : 0 < w.simConf.nv)
    (hr : (w.keepingRuns mode).Run w.init as st) (hdone : w.Completed st r i j) :
    ∃ level, (st.rank r).myNoises (w.cellIndex i j / w.worldSize) = some ⟨level, j, i⟩ ∧
      w.PublishedLevel as (st.rank r).cycle i j level := by
  obtain ⟨arrival, hd, hslot⟩ := exists_distributed h hnp hnv hr hdone
  have hdrift := hd.drift_le
  rw [singleLevel, map_snd_dealt] at hdrift
  have hsummed : Summed (w.heard as (st.rank r).cycle i j)
      (sharedLevel r (w.dealt as (st.rank r).cycle i j) arrival) := by
    have hpositive : ∀ part ∈ (r :: arrival).map (heldBy (w.dealt as (st.rank r).cycle i j)),
        ∀ level ∈ part, 0 < level := by
      intro part hp level hl
      obtain ⟨s, -, rfl⟩ := List.mem_map.mp hp
      exact hd.pos level ((heldBy_sublist _ s).subset hl)
    have hfold := summed_nil.foldl fun part hp => summed_levelFold (hpositive part hp)
    rw [← hd.sharedLevel_eq, List.nil_append] at hfold
    apply hfold.perm
    rw [← List.flatMap_def]
    refine (hd.ranks_perm.flatMap_right _).trans ?_
    exact List.Perm.flatMap_left _ fun s hs =>
      List.Perm.of_eq (heldBy_dealt (List.mem_range.mp hs) as _ i j)
  exact ⟨_, hslot, hdrift, hsummed.silent, hsummed.positive, hsummed.abs_error_le⟩

/-- Whatever cycles the ranks are in, the array that a rank publishes has an entry for each of
its own cells, whose level belongs to the sources that all ranks compute in this cycle. -/
theorem published_levels (h : w.Isolated) (hnp : 0 < w.simConf.np) (hnv : 0 < w.simConf.nv)
    (hr : (w.keepingRuns mode).Run w.init as st) (hlt : r < w.worldSize)
    (hpc : (st.rank r).pc = .publish) :
    ∃ noises, w.ownNoises r (st.rank r) = some noises ∧ noises.length = w.ownCount r ∧
      ∀ n (hn : n < noises.length), ∃ i < w.rows, ∃ j < w.columns,
        w.cellIndex i j = r + n * w.worldSize ∧ noises[n].x = j ∧ noises[n].y = i ∧
          w.PublishedLevel as (st.rank r).cycle i j noises[n].noiseLevel := by
  have hslot : ∀ n < w.ownCount r, ∃ d, (st.rank r).myNoises n = some d ∧
      ∃ i < w.rows, ∃ j < w.columns, w.cellIndex i j = r + n * w.worldSize ∧ d.x = j ∧ d.y = i ∧
        w.PublishedLevel as (st.rank r).cycle i j d.noiseLevel := by
    intro n hn
    have hcell := (lt_ownCount_iff hlt n).mp hn
    have hi : (r + n * w.worldSize) / w.columns < w.rows :=
      Nat.div_lt_of_lt_mul (by rw [mul_comm w.columns w.rows]; exact hcell)
    have hj := Nat.mod_lt (r + n * w.worldSize) w.columns_pos
    have hindex : w.cellIndex ((r + n * w.worldSize) / w.columns)
        ((r + n * w.worldSize) % w.columns) = r + n * w.worldSize := Nat.div_add_mod' _ _
    have hown : (r + n * w.worldSize) % w.worldSize = r := by
      rw [Nat.add_mul_mod_self_right, Nat.mod_eq_of_lt hlt]
    have hdiv : (r + n * w.worldSize) / w.worldSize = n := by
      rw [Nat.add_mul_div_right _ _ w.worldSize_pos, Nat.div_eq_of_lt hlt, Nat.zero_add]
    obtain ⟨level, hlevel, hpub⟩ := exists_publishedLevel h hnp hnv hr
      (show w.Completed st r _ _ from ⟨hlt, hi, hj, by rw [receiver_eq, hindex, hown], by
        rw [hindex, hpc]
        exact hcell⟩)
    rw [hindex, hdiv] at hlevel
    exact ⟨_, hlevel, _, hi, _, hj, hindex, rfl, rfl, hpub⟩
  have : Inhabited NoiseData := ⟨⟨0, 0, 0⟩⟩
  choose! d hd hcell using hslot
  refine ⟨(List.range (w.ownCount r)).map d,
    mapM_eq_some fun n hn => hd n (List.mem_range.mp hn), by simp, fun n hn => ?_⟩
  rw [List.length_map, List.length_range] at hn
  simpa using hcell n hn

/-- The first rank publishes two cells of a cycle that the second one has left. -/
theorem published_levels_clearedAhead :
    let as := threeCells.steps .nonblocking threeCells.init clearedAhead
    let k := (threeCells.played .nonblocking threeCells.init clearedAhead).rank 0
    ∃ noises, threeCells.ownNoises 0 k = some noises ∧ noises.length = 2 ∧
      ∀ n (hn : n < noises.length), ∃ i < threeCells.rows, ∃ j < threeCells.columns,
        threeCells.cellIndex i j = 0 + n * threeCells.worldSize ∧
          noises[n].x = j ∧ noises[n].y = i ∧
          threeCells.PublishedLevel as k.cycle i j noises[n].noiseLevel :=
  published_levels (Or.inl (by decide)) (by decide) (by decide) run_clearedAhead (by decide) rfl

end Published

end World

end NoiseLevel.Mpi
