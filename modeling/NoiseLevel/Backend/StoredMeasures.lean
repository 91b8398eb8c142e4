import NoiseLevel.Backend.Flow

/-!
# The measures that the flow stores

Which messages are valid and what rows they become, stated on the topic, the payload and the
tables, against what the nodes of the flow do one after the other.
-/

namespace NoiseLevel.Backend

open NoiseLevel.Core

section Rule

variable (db : Database) (R : ℕ) (x y : ℚ)

/-- A topic that ends in a region and its number. -/
def NamesRegion (topic : String) : Prop :=
  ∃ before digits, topic.toList = before ++ (regionWord ++ digits) ∧ digits ≠ [] ∧
    (∀ c ∈ digits, c.isDigit = true) ∧ digitsValue digits = R

/-- A region whose boundaries hold a place. -/
def HoldsPlace : Prop :=
  ∃ r ∈ db.region, r.id = R ∧ ((r.minX : ℚ) ≤ x ∧ x ≤ r.maxX) ∧ (r.minY : ℚ) ≤ y ∧ y ≤ r.maxY

/-- A message that is to be stored, and the noises that are stored for it. -/
structure Accepted (topic : String) (payload : Json) (noises : List ℚ) : Prop where
  topic : NamesRegion R topic
  measure : ValidMeasure payload x y noises
  region : HoldsPlace db R x y

/-- The distance from a place to a point of interest. -/
noncomputable def distanceTo (p : PointOfInterest) : ℝ :=
  √(((p.coordX - x) ^ 2 + (p.coordY - y) ^ 2 : ℚ) : ℝ)

/-- The point of interest that is stored for a place: none when the region has none, else one
than which no other is closer by more than the last place of the rounded distance. -/
def Nearest : Option ℤ → Prop
  | none => ∀ p ∈ db.pointOfInterest, p.region ≠ R
  | some id => ∃ p ∈ db.pointOfInterest, p.id = id ∧ p.region = R ∧
      ∀ q ∈ db.pointOfInterest, q.region = R →
        distanceTo x y p ≤ distanceTo x y q + ((1 / 10000 : ℚ) : ℝ)

/-- The rows of a message. -/
def measureRows (nearest : Option ℤ) (noises : List ℚ) : List NoiseMeasure :=
  noises.map fun q => ⟨q, some R, x, y, nearest⟩

/-- The tables with further measures. -/
def Database.withMeasures (rows : List NoiseMeasure) : Database :=
  { db with noiseMeasure := db.noiseMeasure ++ rows }

end Rule

section Nearest

variable {server : Server} {db : Database} {R : ℕ} {x y : ℚ}

theorem mem_pointsOf {p : PointOfInterest} :
    p ∈ db.pointsOf (R : ℚ) ↔ p ∈ db.pointOfInterest ∧ p.region = R := by
  rw [Database.pointsOf, List.mem_filter, decide_eq_true_eq]
  exact and_congr_right fun _ => by exact_mod_cast Iff.rfl

/-- The point of interest that the distance query finds. -/
def nearestPoint (server : Server) (db : Database) (R : ℕ) (x y : ℚ) : Option PointOfInterest :=
  server.order.first (Database.distance server x y) (db.pointsOf (R : ℚ))

/-- The distance query finds a nearest point. -/
theorem nearest_nearestPoint :
    Nearest db R x y ((nearestPoint server db R x y).map PointOfInterest.id) := by
  cases hf : nearestPoint server db R x y with
  | none =>
    intro p hp hr
    have hm := mem_pointsOf.mpr ⟨hp, hr⟩
    rw [RowOrder.first_eq_none_iff.mp hf] at hm
    exact List.not_mem_nil hm
  | some p =>
    obtain ⟨hp, hr⟩ := mem_pointsOf.mp (RowOrder.mem_of_first hf)
    refine ⟨p, hp, rfl, hr, fun q hq hqr => ?_⟩
    have hnear : ∀ a ∈ db.pointsOf (R : ℚ),
        |((Database.distance server x y a : ℚ) : ℝ) - distanceTo x y a| ≤
          ((1 / 20000 : ℚ) : ℝ) := by
      intro a _
      exact server.root_near _ (by positivity)
    have hle := RowOrder.measure_le_of_first Rat.cast_mono hnear hf (mem_pointsOf.mpr ⟨hq, hqr⟩)
    push_cast at hle ⊢
    linarith

end Nearest

section Nodes

variable (topic : String) (payload : Json) (R : ℕ) (x y : ℚ) (noises : List ℚ)

/-- A message whose region is known. -/
def withRegion : Msg := { Msg.received topic payload with region := some (.num R) }

/-- A message that has passed the schema. -/
def withMeasure : Msg :=
  { withRegion topic payload R with
    noise := some (.arr (noises.map .num))
    coordX := some (.num x)
    coordY := some (.num y) }

/-- A point of interest as a parameter of a statement. -/
def nearestJson : Option ℤ → Json
  | none => .null
  | some id => .num id

/-- A message with one noise, ready to be stored. -/
def withNoise (nearest : Option ℤ) (q : ℚ) : Msg :=
  { topic := some selectNearest, payload := some (.num q), region := some (.num R), noise := none,
    coordX := some (.num x), coordY := some (.num y), nearestPoint := some (nearestJson nearest) }

variable {topic payload R x y noises}

theorem setRegion_eq {digits : List Char} (h : regionDigits topic = some digits) :
    setRegion (.received topic payload) = withRegion topic payload (digitsValue digits) := by
  simp only [setRegion, Msg.received, Option.bind_some, h, Option.map_some, withRegion]

theorem setRegion_eq_received (h : regionDigits topic = none) :
    setRegion (.received topic payload) = .received topic payload := by
  simp only [setRegion, Msg.received, Option.bind_some, h, Option.map_none]

/-- The properties that a valid measure sets. -/
theorem settingMessageProperties_eq (h : ValidMeasure payload x y noises) :
    settingMessageProperties (withRegion topic payload R) =
      withMeasure topic payload R x y noises := by
  have hpath : ∀ name, Jsonata.path name (withRegion topic payload R).payload =
      payload.field name := fun _ => rfl
  have hnoise : (if (payload.field "mode").bind Json.string? = some "raw" then
      payload.field "noise" else some (Jsonata.array [payload.field "noise"])) =
      some (.arr (noises.map .num)) := by
    rcases h.noise with ⟨hm, q, hn, rfl⟩ | ⟨hm, hn⟩
    · rw [if_neg (by simp [hm, Json.string?]), hn]
      rfl
    · rw [if_pos (by rw [hm]; rfl), hn]
  simp only [settingMessageProperties, hpath, h.coordX, h.coordY, hnoise, withMeasure]

variable {server : Server} {db : Database}

theorem mysql_eq {msg : Msg} {sql : String} {values rows : List Json} {next : Database}
    (ht : msg.topic = some sql) (hv : msg.payload.toList.flatMap Json.elements = values)
    (hq : db.query server sql values = .ok (next, rows)) :
    mysql server db msg = .ok (next, { msg with payload := some (.arr rows) }) := by
  simp only [mysql, ht, hv, hq, bind, Except.bind]

/-- The first query asks for the region of the topic around the place of the payload. -/
theorem mysql_regionBoundaries :
    mysql server db (preparingRegionBoundariesQuery (withMeasure topic payload R x y noises)) =
      .ok (db, withMeasure selectRegion (.arr ((db.regionsAround R x y).map Region.json))
        R x y noises) :=
  mysql_eq rfl rfl (db.query_selectRegion server R x y)

/-- The second query asks for the nearest point of the same region to the same place. -/
theorem mysql_distance :
    mysql server db (preparingDistanceQuery (withMeasure topic payload R x y noises)) =
      .ok (db, withMeasure selectNearest (.arr (db.nearestPoints server x y R)) R x y noises) :=
  mysql_eq rfl rfl (db.query_selectNearest server x y R)

/-- Behind the split there is one message for each noise. -/
theorem noiseSplit_eq :
    noiseSplit (prepareForNoiseArraySplit
      (withMeasure selectNearest (.arr (db.nearestPoints server x y R)) R x y noises)) =
      noises.map (withNoise R x y ((nearestPoint server db R x y).map PointOfInterest.id)) := by
  have hid : (prepareForNoiseArraySplit
      (withMeasure selectNearest (.arr (db.nearestPoints server x y R)) R x y
        noises)).nearestPoint =
      some (nearestJson ((nearestPoint server db R x y).map PointOfInterest.id)) := by
    rw [Database.nearestPoints, ← nearestPoint]
    cases nearestPoint server db R x y with
    | none => rfl
    | some p => rfl
  rw [noiseSplit, show (prepareForNoiseArraySplit (withMeasure selectNearest
    (.arr (db.nearestPoints server x y R)) R x y noises)).payload =
      some (.arr (noises.map .num)) from rfl, Option.toList_some, List.flatMap_singleton,
    Json.elements, List.map_map]
  apply List.map_congr_left
  intro q _
  rw [Function.comp_apply, withNoise, ← hid]
  rfl

end Nodes

section Checks

variable (server : Server) (db : Database) {topic : String} {payload : Json} {R : ℕ} {x y : ℚ}
variable {noises : List ℚ} {digits : List Char}

theorem namesRegion_of_regionDigits (h : regionDigits topic = some digits) :
    NamesRegion (digitsValue digits) topic := by
  obtain ⟨before, ht, hd⟩ := regionDigits_eq_some_iff.mp h
  exact ⟨before, digits, ht, hd.1, hd.2, rfl⟩

theorem regionDigits_of_namesRegion (h : NamesRegion R topic) :
    ∃ digits, regionDigits topic = some digits ∧ digitsValue digits = R := by
  obtain ⟨before, digits, ht, hne, hd, hR⟩ := h
  exact ⟨digits, regionDigits_eq_some_iff.mpr ⟨before, ht, hne, hd⟩, hR⟩

theorem regionsAround_ne_nil_iff : db.regionsAround R x y ≠ [] ↔ HoldsPlace db R x y := by
  constructor
  · intro h
    obtain ⟨r, hr⟩ := List.exists_mem_of_ne_nil _ h
    obtain ⟨hm, hc⟩ := List.mem_filter.mp hr
    obtain ⟨hid, hb⟩ := of_decide_eq_true hc
    exact ⟨r, hm, by exact_mod_cast hid, hb⟩
  · rintro ⟨r, hm, hid, hb⟩
    exact List.ne_nil_of_mem (List.mem_filter.mpr
      ⟨hm, decide_eq_true ⟨by exact_mod_cast hid, hb⟩⟩)

theorem checkRegionBoundaries_cons {msg : Msg} {v : Json} {l : List Json}
    (h : msg.payload = some (.arr (v :: l))) : checkRegionBoundaries msg = .ok msg := by
  rw [checkRegionBoundaries, h]

/-- A message without a region is dropped by the first check. -/
theorem prepare_noRegion (h : regionDigits topic = none) :
    prepare server db (.received topic payload) =
      .error "Discarded measure: invalid MQTT Topic" := by
  rw [prepare, setRegion_eq_received h]
  rfl

/-- The first check lets a message with a region pass. -/
theorem prepare_region (h : regionDigits topic = some digits) :
    prepare server db (.received topic payload) = (do
      let msg ← checkJsonSchema (withRegion topic payload (digitsValue digits))
      let (db, msg) ←
        mysql server db (preparingRegionBoundariesQuery (settingMessageProperties msg))
      let msg ← checkRegionBoundaries msg
      let (db, msg) ← mysql server db (preparingDistanceQuery msg)
      .ok (db, noiseSplit (prepareForNoiseArraySplit msg))) := by
  rw [prepare, setRegion_eq h]
  rfl

/-- A payload that is no valid measure is dropped by the second check. -/
theorem prepare_invalid (h : regionDigits topic = some digits)
    (hv : ¬∃ x y noises, ValidMeasure payload x y noises) :
    prepare server db (.received topic payload) = .error "Discarded measure: invalid JSON" := by
  have hs : (withRegion topic payload (digitsValue digits)).payload.any globalSchema.validate ≠
      true := fun hs => hv (validate_iff.mp hs)
  rw [prepare_region server db h, checkJsonSchema, if_neg hs]
  rfl

/-- The second check lets a valid measure pass, and the region is asked for. -/
theorem prepare_measure (h : regionDigits topic = some digits)
    (hv : ValidMeasure payload x y noises) :
    prepare server db (.received topic payload) = (do
      let msg ← checkRegionBoundaries (withMeasure selectRegion
        (.arr ((db.regionsAround (digitsValue digits : ℕ) x y).map Region.json))
        (digitsValue digits) x y noises)
      let (db, msg) ← mysql server db (preparingDistanceQuery msg)
      .ok (db, noiseSplit (prepareForNoiseArraySplit msg))) := by
  have hs : (withRegion topic payload (digitsValue digits)).payload.any globalSchema.validate =
      true := validate_iff.mpr ⟨x, y, noises, hv⟩
  rw [prepare_region server db h, checkJsonSchema, if_pos hs]
  simp only [bind, Except.bind]
  rw [settingMessageProperties_eq hv, mysql_regionBoundaries]

/-- A place outside the region is dropped by the third check. -/
theorem prepare_outside (h : regionDigits topic = some digits)
    (hv : ValidMeasure payload x y noises) (hr : ¬HoldsPlace db (digitsValue digits) x y) :
    prepare server db (.received topic payload) =
      .error "Discarded measure: invalid region boundaries" := by
  have hn := not_not.mp fun hn => hr ((regionsAround_ne_nil_iff db).mp hn)
  rw [prepare_measure server db h hv, hn]
  rfl

/-- A valid message of a region that holds its place is split into its noises. -/
theorem prepare_accepted (h : regionDigits topic = some digits)
    (hv : ValidMeasure payload x y noises) (hr : HoldsPlace db (digitsValue digits) x y) :
    prepare server db (.received topic payload) =
      .ok (db, noises.map (withNoise (digitsValue digits) x y
        ((nearestPoint server db (digitsValue digits) x y).map PointOfInterest.id))) := by
  have hn := (regionsAround_ne_nil_iff db).mpr hr
  obtain ⟨r, rows, hrows⟩ := List.exists_cons_of_ne_nil hn
  rw [prepare_measure server db h hv, hrows, List.map_cons, checkRegionBoundaries_cons rfl]
  simp only [bind, Except.bind]
  rw [mysql_distance]
  exact congrArg (fun msgs => Except.ok (db, msgs)) noiseSplit_eq

end Checks

section Store

variable (server : Server) {db : Database} {R : ℕ} {x y : ℚ} {nearest : Option ℤ}

/-- The region and the point of a stored measure exist. -/
theorem refersTo_of_nearest (hr : HoldsPlace db R x y) (hn : Nearest db R x y nearest) (q : ℚ) :
    db.refersTo ⟨q, some R, x, y, nearest⟩ = true := by
  obtain ⟨r, hm, hid, -⟩ := hr
  have hregion : (db.region.any fun r => decide (r.id = (R : ℤ))) = true :=
    List.any_eq_true.mpr ⟨r, hm, decide_eq_true hid⟩
  rw [Database.refersTo, Option.all_some, hregion, Bool.true_and]
  cases nearest with
  | none => rfl
  | some id =>
    obtain ⟨p, hp, hpid, -⟩ := hn
    exact List.any_eq_true.mpr ⟨p, hp, decide_eq_true hpid⟩

theorem nullableColumn_nearestJson (nearest : Option ℤ) :
    nullableColumn (nearestJson nearest) = some nearest := by
  cases nearest with
  | none => rfl
  | some id => rw [nearestJson, nullableColumn, intColumn_intCast]

/-- One noise becomes one row. -/
theorem store_withNoise {q : ℚ} (h : db.refersTo ⟨q, some R, x, y, nearest⟩ = true)
    (errors : List String) :
    store server (db, errors) (withNoise R x y nearest q) =
      (db.withMeasures (measureRows R x y nearest [q]), errors) := by
  have hregion : nullableColumn (.num (R : ℚ)) = some (some (R : ℤ)) := by
    have hR := intColumn_intCast (R : ℤ)
    rw [Int.cast_natCast] at hR
    rw [nullableColumn, hR]
  have hq := db.query_insertMeasure server hregion (nullableColumn_nearestJson nearest) h
  have hv : (preparingForInsert (withNoise R x y nearest q)).payload.toList.flatMap
      Json.elements = [.num q, .num R, .num x, .num y, nearestJson nearest] := by
    cases nearest <;> rfl
  have hm : mysql server db (preparingForInsert (withNoise R x y nearest q)) = _ :=
    mysql_eq rfl hv hq
  unfold store
  dsimp only
  rw [hm]
  rfl

/-- The noises of a message become rows in their order. -/
theorem foldl_store (h : ∀ q, db.refersTo ⟨q, some R, x, y, nearest⟩ = true) (noises : List ℚ)
    (errors : List String) :
    (noises.map (withNoise R x y nearest)).foldl (store server) (db, errors) =
      (db.withMeasures (measureRows R x y nearest noises), errors) := by
  induction noises generalizing db with
  | nil => simp [Database.withMeasures, measureRows]
  | cons q noises ih =>
    rw [List.map_cons, List.foldl_cons, store_withNoise server (h q)]
    have hnext : ∀ q', (db.withMeasures (measureRows R x y nearest [q])).refersTo
        ⟨q', some R, x, y, nearest⟩ = true := h
    rw [ih hnext]
    simp [Database.withMeasures, measureRows]

end Store

section Receive

variable (server : Server) (db : Database) {topic : String} {payload : Json} {R : ℕ} {x y : ℚ}
variable {noises : List ℚ}

/-- What a valid message leaves in the tables. -/
theorem receive_accepted (h : Accepted db R x y topic payload noises) :
    receive server db topic payload =
      (db.withMeasures (measureRows R x y
        ((nearestPoint server db R x y).map PointOfInterest.id) noises), []) := by
  obtain ⟨digits, hd, rfl⟩ := regionDigits_of_namesRegion h.topic
  unfold receive
  rw [prepare_accepted server db hd h.measure h.region]
  exact foldl_store server (refersTo_of_nearest h.region nearest_nearestPoint) noises []

/-- The errors of the three checks. -/
def discardTexts : List String :=
  ["Discarded measure: invalid MQTT Topic", "Discarded measure: invalid JSON",
    "Discarded measure: invalid region boundaries"]

/-- Any other message changes no table, and one of the checks says so. -/
theorem receive_discarded (h : ∀ R x y noises, ¬Accepted db R x y topic payload noises) :
    ∃ text ∈ discardTexts, receive server db topic payload = (db, [text]) := by
  unfold receive
  cases hd : regionDigits topic with
  | none =>
    rw [prepare_noRegion server db hd]
    exact ⟨_, List.mem_cons_self, rfl⟩
  | some digits =>
    by_cases hv : ∃ x y noises, ValidMeasure payload x y noises
    · obtain ⟨x, y, noises, hv⟩ := hv
      have hr : ¬HoldsPlace db (digitsValue digits) x y := fun hr =>
        h _ x y noises ⟨namesRegion_of_regionDigits hd, hv, hr⟩
      rw [prepare_outside server db hd hv hr]
      exact ⟨_, List.mem_cons_of_mem _ (List.mem_cons_of_mem _ List.mem_cons_self), rfl⟩
    · rw [prepare_invalid server db hd hv]
      exact ⟨_, List.mem_cons_of_mem _ List.mem_cons_self, rfl⟩

/-- Rows are added exactly for the valid messages with a noise: one row for each noise, in their
order, with the region of the topic, the place of the payload and its nearest point of interest.
Nothing is added for other messages. -/
theorem stored_iff_accepted (topic : String) (payload : Json) :
    ((receive server db topic payload).1.noiseMeasure ≠ db.noiseMeasure ↔
      ∃ R x y noises, Accepted db R x y topic payload noises ∧ noises ≠ []) ∧
    (∀ R x y noises, Accepted db R x y topic payload noises → ∃ nearest,
      Nearest db R x y nearest ∧ (receive server db topic payload).1 =
        db.withMeasures (measureRows R x y nearest noises)) ∧
    ((∀ R x y noises, ¬Accepted db R x y topic payload noises) →
      (receive server db topic payload).1 = db) := by
  have hstored : ∀ R x y noises, Accepted db R x y topic payload noises → ∃ nearest,
      Nearest db R x y nearest ∧ (receive server db topic payload).1 =
        db.withMeasures (measureRows R x y nearest noises) := by
    intro R x y noises h
    exact ⟨_, nearest_nearestPoint, congrArg Prod.fst (receive_accepted server db h)⟩
  have hdropped : (∀ R x y noises, ¬Accepted db R x y topic payload noises) →
      (receive server db topic payload).1 = db := by
    intro h
    obtain ⟨text, -, ht⟩ := receive_discarded server db h
    exact congrArg Prod.fst ht
  refine ⟨⟨fun hne => ?_, ?_⟩, hstored, hdropped⟩
  · by_cases h : ∃ R x y noises, Accepted db R x y topic payload noises
    · obtain ⟨R, x, y, noises, ha⟩ := h
      refine ⟨R, x, y, noises, ha, ?_⟩
      rintro rfl
      obtain ⟨nearest, -, hr⟩ := hstored R x y [] ha
      apply hne
      rw [hr]
      exact List.append_nil _
    · exact absurd (congrArg Database.noiseMeasure (hdropped fun R x y noises ha =>
        h ⟨R, x, y, noises, ha⟩)) hne
  · rintro ⟨R, x, y, noises, ha, hne⟩ he
    obtain ⟨nearest, -, hr⟩ := hstored R x y noises ha
    rw [hr] at he
    exact hne (List.map_eq_nil_iff.mp (List.append_right_eq_self.mp he))

end Receive

/-- The tables of `db-dump.sql`. -/
def dumpedDatabase : Database where
  region := [⟨1, 0, 0, 100, 100⟩, ⟨2, 0, 0, 100, 100⟩, ⟨3, 0, 0, 100, 100⟩]
  pointOfInterest :=
    [⟨1, 1, 50, 50⟩, ⟨2, 1, 75, 75⟩, ⟨3, 1, 55, 55⟩, ⟨4, 1, 20, 20⟩, ⟨5, 1, 20, 80⟩,
      ⟨6, 2, 50, 50⟩, ⟨7, 2, 75, 75⟩, ⟨8, 2, 20, 20⟩, ⟨9, 2, 80, 20⟩, ⟨10, 2, 20, 70⟩,
      ⟨11, 3, 45, 45⟩, ⟨12, 3, 50, 50⟩, ⟨13, 3, 55, 55⟩, ⟨14, 3, 60, 60⟩, ⟨15, 3, 75, 75⟩]
  noiseMeasure := []

theorem holdsPlace_dumpedDatabase : HoldsPlace dumpedDatabase 1 50 50 :=
  ⟨⟨1, 0, 0, 100, 100⟩, List.mem_cons_self, rfl, by norm_num, by norm_num⟩

theorem namesRegion_one : NamesRegion 1 "noise/region1" := by
  refine ⟨[], ['1'], by decide, by decide, ?_, by decide⟩
  intro c hc
  rw [List.mem_singleton.mp hc]
  rfl

/-- A measure of the centre of the first region. -/
def centreMeasure (mode : String) (noise : Json) : Json :=
  .obj [("noise", noise), ("mode", .str mode), ("coordX", .num 50), ("coordY", .num 50)]

/-- An average of the centre of the first region is stored. -/
theorem stored_iff_accepted_centre : ∃ nearest, Nearest dumpedDatabase 1 50 50 nearest ∧
    (receive .stable dumpedDatabase "noise/region1" (centreMeasure "avg" (.num 60))).1 =
      dumpedDatabase.withMeasures (measureRows 1 50 50 nearest [60]) :=
  (stored_iff_accepted .stable dumpedDatabase "noise/region1"
    (centreMeasure "avg" (.num 60))).2.1 1 50 50 [60]
      ⟨namesRegion_one, ⟨rfl, rfl, .inl ⟨rfl, 60, rfl, rfl⟩, by simp; norm_num⟩,
        holdsPlace_dumpedDatabase⟩

/-- Raw values without a level pass all checks and add no row. -/
theorem emptyRaw_notStored :
    ¬((receive .stable dumpedDatabase "noise/region1"
        (centreMeasure "raw" (.arr []))).1.noiseMeasure ≠ dumpedDatabase.noiseMeasure ↔
      ∃ R x y noises, Accepted dumpedDatabase R x y "noise/region1"
        (centreMeasure "raw" (.arr [])) noises) := by
  have ha : Accepted dumpedDatabase 1 50 50 "noise/region1" (centreMeasure "raw" (.arr [])) [] :=
    ⟨namesRegion_one, ⟨rfl, rfl, .inr ⟨rfl, rfl⟩, by simp⟩, holdsPlace_dumpedDatabase⟩
  intro h
  apply h.mpr ⟨1, 50, 50, [], ha⟩
  rw [receive_accepted .stable dumpedDatabase ha]
  rfl

end NoiseLevel.Backend
