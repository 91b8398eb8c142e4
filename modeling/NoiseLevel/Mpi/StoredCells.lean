import NoiseLevel.Backend.FlowRuns
import NoiseLevel.Mpi.PublishedCells

/-!
# The cells that are stored

From the arrays of the ranks to the table of measures: what `publish_data` hands over in one
cycle of all ranks, in whatever order it is delivered and the nodes of the flow handle it.
-/

namespace NoiseLevel.Mpi

open NoiseLevel.Core NoiseLevel.Backend

/-- What the flow receives for a call: the topic up to its terminator and the parsed payload. -/
def PublishCall.message (call : PublishCall) : Option (String × Json) := do
  let topic ← cString nulChar call.topic.chars
  let payload ← parse call.payload
  some (String.ofList topic, payload)

section Cell

variable (server : Server) (db : Database) (R : ℕ) (d : NoiseData)

/-- A cell that the flow stores: a level of the schema at a place of the region. -/
structure Storable : Prop where
  level : 10 ≤ d.noiseLevel ∧ d.noiseLevel ≤ 180
  region : HoldsPlace db R d.x d.y

/-- The row of a cell. -/
def cellRow : NoiseMeasure :=
  ⟨d.noiseLevel, some R, d.x, d.y, (nearestPoint server db R d.x d.y).map PointOfInterest.id⟩

instance : Decidable (Storable db R d) :=
  decidable_of_iff ((10 ≤ d.noiseLevel ∧ d.noiseLevel ≤ 180) ∧ HoldsPlace db R d.x d.y)
    ⟨fun h => ⟨h.1, h.2⟩, fun h => ⟨h.1, h.2⟩⟩

variable {server db R d} {topic : String}

/-- A storable cell makes a valid message. -/
theorem accepted_measure (htopic : NamesRegion R topic) (h : Storable db R d) :
    Accepted db R d.x d.y topic (measure d) [(d.noiseLevel : ℚ)] where
  topic := htopic
  measure := by
    refine ⟨rfl, rfl, .inl ⟨rfl, _, rfl, rfl⟩, fun q hq => ?_⟩
    obtain rfl := List.mem_singleton.mp hq
    exact ⟨by exact_mod_cast h.level.1, by exact_mod_cast h.level.2⟩
  region := h.region

/-- Only a storable cell makes a valid message. -/
theorem storable_of_accepted (htopic : NamesRegion R topic) {R' : ℕ} {x y : ℚ} {noises : List ℚ}
    (h : Accepted db R' x y topic (measure d) noises) : Storable db R d := by
  obtain ⟨rfl, rfl, rfl⟩ := h.place_eq (x := d.x) (y := d.y) htopic rfl rfl
  refine ⟨?_, h.region⟩
  rcases h.measure.noise with ⟨-, q, hq, rfl⟩ | ⟨hmode, -⟩
  · obtain rfl : (d.noiseLevel : ℚ) = q := Json.num.inj (Option.some.inj hq)
    have hlevel := h.measure.level _ (List.mem_singleton_self _)
    exact ⟨by exact_mod_cast hlevel.1, by exact_mod_cast hlevel.2⟩
  · exact absurd (Json.str.inj (Option.some.inj hmode)) (by decide)

variable (server db d) in
/-- What the message of a cell adds. -/
theorem storedRows_measure (htopic : NamesRegion R topic) :
    storedRows server db (topic, measure d) =
        (if Storable db R d then [cellRow server db R d] else []) ∧
      (reportedErrors server db (topic, measure d)).length =
        if Storable db R d then 0 else 1 := by
  split_ifs with h
  · obtain ⟨hrows, herrors⟩ := storedRows_accepted server (accepted_measure htopic h)
    rw [hrows, herrors]
    exact ⟨rfl, rfl⟩
  · obtain ⟨hrows, text, -, herrors⟩ := storedRows_discarded server
      fun R' x y noises (ha : Accepted db R' x y topic (measure d) noises) =>
        h (storable_of_accepted htopic ha)
    rw [hrows, herrors]
    exact ⟨rfl, rfl⟩

variable (server db) in
/-- What the messages of some cells add. -/
theorem storedRows_measures (htopic : NamesRegion R topic) (noises : List NoiseData) :
    (noises.map fun d => (topic, measure d)).flatMap (storedRows server db) =
        (noises.filter fun d => Storable db R d).map (cellRow server db R) ∧
      ((noises.map fun d => (topic, measure d)).flatMap (reportedErrors server db)).length =
        (noises.filter fun d => ¬Storable db R d).length := by
  induction noises with
  | nil => exact ⟨rfl, rfl⟩
  | cons d noises ih =>
    obtain ⟨hrows, herrors⟩ := storedRows_measure server db d htopic
    rw [List.map_cons, List.flatMap_cons, List.flatMap_cons, ih.1, List.length_append, ih.2, hrows,
      herrors]
    by_cases h : Storable db R d <;> simp [h, Nat.add_comm]

end Cell

namespace World

variable (w : World) (mqttConf : MqttConfig) (mosquittoPublish : ℕ → List PublishCall → ℤ)

/-- The messages of all ranks in one cycle, in which each rank publishes in a state of its own. -/
def published (before : ℕ → State) : List (String × Json) :=
  (List.range w.worldSize).flatMap fun r =>
    ((w.ownNoises r ((before r).rank r)).elim [] fun noises =>
      (publishData mqttConf (mosquittoPublish r) noises).1.calls).filterMap PublishCall.message

variable {w mqttConf mosquittoPublish} {mode : SendMode} {before : ℕ → State} {t : List Char}

theorem message_publishText (htopic : cString nulChar mqttConf.topic.chars = some t)
    (d : NoiseData) : PublishCall.message ⟨mqttConf.topic, publishText d, 1, false⟩ =
      some (String.ofList t, measure d) := by
  simp only [PublishCall.message, htopic, parse_publishText, Option.bind_eq_bind,
    Option.bind_some]

theorem publishCalls_message (htopic : cString nulChar mqttConf.topic.chars = some t)
    (noises : List NoiseData) : (publishCalls mqttConf noises).filterMap PublishCall.message =
      (positive noises).map fun d => (String.ofList t, measure d) := by
  rw [publishCalls, List.filterMap_map]
  refine (List.filterMap_congr fun d _ => message_publishText htopic d).trans ?_
  exact congrFun List.filterMap_eq_map _

/-- The messages of a cycle are those of the positive cells. -/
theorem AboutToPublish.published_perm (h : w.AboutToPublish mode before)
    (hfit : w.CellsFit before) (htopic : cString nulChar mqttConf.topic.chars = some t) :
    (w.published mqttConf mosquittoPublish before).Perm
      ((positive (w.finalCells before)).map fun d => (String.ofList t, measure d)) := by
  have hperm := finalCells_perm w before
  set noises : ℕ → List NoiseData := fun r =>
    ((List.range (w.ownCount r)).map fun n => r + n * w.worldSize).map fun t =>
      w.entry (w.finalLevel before (t / w.columns) (t % w.columns)) t with hnoises
  have hrank : w.published mqttConf mosquittoPublish before =
      (List.range w.worldSize).flatMap fun r =>
        (positive (noises r)).map fun d => (String.ofList t, measure d) := by
    refine List.flatMap_congr fun r hr => ?_
    have hr := List.mem_range.mp hr
    have hfits : ∀ d ∈ noises r, d.Fits := fun d hd => hfit.fits (hperm.mem_iff.mp
      (List.mem_flatMap.mpr ⟨r, List.mem_range.mpr hr, hd⟩))
    rw [h.ownNoises_eq hr, Option.elim_some, publishData,
      (publishLoop_eq mqttConf (mosquittoPublish r) hfits ⟨[], [], 0⟩).1, List.nil_append,
      publishCalls_message htopic]
  rw [hrank, ← List.map_flatMap]
  have hfilter : ((List.range w.worldSize).flatMap fun r => positive (noises r)) =
      positive ((List.range w.worldSize).flatMap noises) := (List.filter_flatMap ..).symm
  rw [hfilter]
  exact (hperm.filter _).map _

variable {server : Server} {db : Database} {R : ℕ} {s : FlowState} {as : List FlowEvent}

theorem filter_positive (noises : List NoiseData) :
    (positive noises).filter (fun d => Storable db R d) =
      noises.filter fun d => Storable db R d := by
  rw [positive, List.filter_filter]
  refine List.filter_congr fun d _ => ?_
  have himp : Storable db R d → 0 < d.noiseLevel := fun h => by
    have := h.level.1
    omega
  by_cases h : Storable db R d
  · simp [h, himp h]
  · simp [h]

/-- What the table and the error output hold when the messages of a cycle have been delivered and
handled, those of some cells once more. -/
structure CellsStored (w : World) (server : Server) (db : Database) (R : ℕ)
    (before : ℕ → State) (again : List NoiseData) (s : FlowState) : Prop where
  /-- Every storable cell has one row, and another one for each time that it comes again. -/
  rows : ∃ rows, s.db = db.withMeasures rows ∧
    rows.Perm (((w.finalCells before).filter fun d => Storable db R d).map (cellRow server db R) ++
      (again.filter fun d => Storable db R d).map (cellRow server db R))
  /-- Every other positive cell causes an error, and another one for each time that it comes
  again. -/
  errors : s.errors.length =
    ((positive (w.finalCells before)).filter fun d => ¬Storable db R d).length +
      (again.filter fun d => ¬Storable db R d).length

/-- Messages that come again are those of some of the positive cells. -/
theorem exists_again {cells : List NoiseData} {topic : String} {again : List (String × Json)}
    (h : again ⊆ cells.map fun d => (topic, measure d)) :
    ∃ copies, copies ⊆ cells ∧ again = copies.map fun d => (topic, measure d) := by
  induction again with
  | nil => exact ⟨[], List.nil_subset _, rfl⟩
  | cons m again ih =>
    obtain ⟨hhead, htail⟩ := List.cons_subset.mp h
    obtain ⟨d, hd, rfl⟩ := List.mem_map.mp hhead
    obtain ⟨copies, hcopies, rfl⟩ := ih htail
    exact ⟨d :: copies, List.cons_subset.mpr ⟨hd, hcopies⟩, rfl⟩

/-- Whatever states the ranks publish in, and however their messages and the nodes of the flow
take turns: once all is handled, the table has a new row for each storable cell, a further one for
each time that its message came again, and no others. -/
theorem cells_stored (h : w.AboutToPublish mode before) (hfit : w.CellsFit before)
    (htopic : cString nulChar mqttConf.topic.chars = some t)
    (hregion : NamesRegion R (String.ofList t))
    (hr : (flowSystem server).Run ⟨db, [], []⟩ as s) (hdrained : s.inFlight = [])
    {again : List (String × Json)}
    (hagain : again ⊆ w.published mqttConf mosquittoPublish before)
    (hdelivered : (messages as).Perm
      (w.published mqttConf mosquittoPublish before ++ again)) :
    ∃ copies, copies ⊆ positive (w.finalCells before) ∧
      again = copies.map (fun d => (String.ofList t, measure d)) ∧
      w.CellsStored server db R before copies s := by
  have hperm : (w.published mqttConf mosquittoPublish before).Perm _ :=
    h.published_perm hfit htopic
  obtain ⟨copies, hcopies, rfl⟩ := exists_again (List.Subset.trans hagain hperm.subset)
  have hmessages := hdelivered.trans (hperm.append_right _)
  rw [← List.map_append] at hmessages
  obtain ⟨rows, hdb, hrows, herrors⟩ := (flowBalanced hr).drained hdrained
  obtain ⟨hstored, hreported⟩ :=
    storedRows_measures server db hregion (positive (w.finalCells before) ++ copies)
  refine ⟨copies, hcopies, rfl, ⟨rows, hdb, ?_⟩, ?_⟩
  · have hall := hrows.trans (hmessages.flatMap_right (storedRows server db))
    rwa [hstored, List.filter_append, filter_positive, List.map_append] at hall
  · have hall := (herrors.trans (hmessages.flatMap_right (reportedErrors server db))).length_eq
    rw [hall, hreported, List.filter_append, List.length_append]

/-- A broker configuration with the topic of the first region. -/
def regionOneConf : MqttConfig :=
  { clearedMqttConf with
    topic := .copy ⟨"noise/region1".toList, by decide⟩ }

/-- A message tells which cell it is about. -/
theorem measure_injective : Function.Injective measure := by
  rintro ⟨level, x, y⟩ ⟨level', x', y'⟩ h
  simpa [measure] using h

/-- The loud cells of both ranks are stored, and the second one twice. -/
theorem cells_stored_threeCells : ∃ as s,
    (flowSystem .stable).Run ⟨dumpedDatabase, [], []⟩ as s ∧ s.inFlight = [] ∧ s.errors = [] ∧
      ∃ rows, s.db = dumpedDatabase.withMeasures rows ∧
        rows.Perm
          ([⟨40, 0, 0⟩, ⟨45, 1, 0⟩, ⟨45, 1, 0⟩].map (cellRow .stable dumpedDatabase 1)) := by
  have htopic : cString nulChar regionOneConf.topic.chars = some "noise/region1".toList :=
    (cString_strncpy_iff (by decide)).mpr (by decide)
  have hregion : NamesRegion 1 (String.ofList "noise/region1".toList) := by
    rw [String.ofList_toList]
    exact namesRegion_one
  have hagain : [(String.ofList "noise/region1".toList, measure ⟨45, 1, 0⟩)] ⊆
      threeCells.published regionOneConf (fun _ _ => 0) collected := by
    have hperm := @AboutToPublish.published_perm _ _ (fun _ _ => 0) _ _ _
      aboutToPublish_threeCells cellsFit_threeCells htopic
    rw [finalCells_threeCells] at hperm
    refine List.cons_subset.mpr ⟨hperm.mem_iff.mpr ?_, List.nil_subset _⟩
    exact List.mem_map_of_mem (List.mem_cons_of_mem _ List.mem_cons_self)
  obtain ⟨as, s, hr, hmessages, hdrained⟩ := exists_drained .stable dumpedDatabase
    (threeCells.published regionOneConf (fun _ _ => 0) collected ++
      [(String.ofList "noise/region1".toList, measure ⟨45, 1, 0⟩)])
  obtain ⟨copies, -, heq, ⟨rows, hdb, hrows⟩, herrors⟩ :=
    cells_stored aboutToPublish_threeCells cellsFit_threeCells htopic hregion hr hdrained hagain
      (List.Perm.of_eq hmessages)
  have hcopies : copies = [⟨45, 1, 0⟩] := by
    rw [← List.map_singleton (f := fun d => (String.ofList "noise/region1".toList, measure d))]
      at heq
    refine (List.map_injective_iff.mpr ?_ heq).symm
    exact fun d d' h => measure_injective (Prod.mk.inj h).2
  have hplace (x : ℤ) (hx : 0 ≤ x ∧ x ≤ 1) : HoldsPlace dumpedDatabase 1 x (0 : ℤ) := by
    have hx' : (0 : ℚ) ≤ x ∧ (x : ℚ) ≤ 1 := by exact_mod_cast hx
    exact ⟨⟨1, 0, 0, 100, 100⟩, List.mem_cons_self, rfl,
      ⟨by exact_mod_cast hx'.1, by norm_num; linarith [hx'.2]⟩, by norm_num⟩
  have hloud : Storable dumpedDatabase 1 ⟨40, 0, 0⟩ := ⟨by decide, hplace 0 (by decide)⟩
  have hloud' : Storable dumpedDatabase 1 ⟨45, 1, 0⟩ := ⟨by decide, hplace 1 (by decide)⟩
  have hsilent : ¬Storable dumpedDatabase 1 ⟨0, 2, 0⟩ := fun h => absurd h.level.1 (by decide)
  rw [finalCells_threeCells, hcopies] at hrows herrors
  refine ⟨as, s, hr, hdrained, ?_, rows, hdb, ?_⟩
  · simpa [positive, hloud, hloud'] using herrors
  · simpa [hloud, hloud', hsilent] using hrows

end World

end NoiseLevel.Mpi
