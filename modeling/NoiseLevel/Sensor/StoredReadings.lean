import NoiseLevel.Backend.FlowRuns
import NoiseLevel.Sensor.MessageText
import NoiseLevel.Sensor.RegionId
import NoiseLevel.Sensor.SlidingWindow

/-!
# The readings that are stored

From the microphone of a mote to the table of measures: the texts that successive calls of
`noise_processing` publish, in whatever order they are delivered, once, again or not at all,
and the rows that the flow stores for them.
-/

namespace NoiseLevel.Sensor

open NoiseLevel.Core Backend

namespace Program

variable (p : Program)

/-- The noises in the message for a window. -/
def noises (w : Window) : List ℚ :=
  if average w < avgThresholdDb then [roundTwo (average w)]
  else List.ofFn fun i => (w.slots i : ℚ)

/-- A message that passes the schema holds the noises of its window. -/
theorem validMeasure_publishNoise {w : Window} {s : Sample}
    (h : globalSchema.validate (p.publishNoise w s) = true) :
    ValidMeasure (p.publishNoise w s) (p.coordinate s.x) (p.coordinate s.y) (noises w) := by
  unfold publishNoise at h ⊢
  unfold noises
  split_ifs at h ⊢ with havg
  · rw [publishAvg, publish, if_pos rfl, validate_avg] at h
    refine ⟨rfl, rfl, .inl ⟨rfl, _, rfl, rfl⟩, fun q hq => ?_⟩
    obtain rfl := List.mem_singleton.mp hq
    exact h
  · rw [publishRaw, publish, if_neg (by decide), if_pos rfl, validate_raw,
      List.forall_mem_ofFn_iff] at h
    refine ⟨rfl, rfl, .inr ⟨rfl, ?_⟩, fun q hq => ?_⟩
    · rw [List.map_ofFn]
      rfl
    · obtain ⟨i, rfl⟩ := List.mem_ofFn.mp hq
      exact (validate_level_num _).mp (h i)

section Stored

variable {server : Server} {db : Database} {R : ℕ} {topic : String} {w : Window} {s : Sample}

/-- The rows of a message. -/
theorem storedRows_publishNoise (htopic : NamesRegion R topic) :
    storedRows server db (topic, p.publishNoise w s) =
      if globalSchema.validate (p.publishNoise w s) = true ∧
          HoldsPlace db R (p.coordinate s.x) (p.coordinate s.y) then
        measureRows R (p.coordinate s.x) (p.coordinate s.y)
          ((nearestPoint server db R (p.coordinate s.x) (p.coordinate s.y)).map
            PointOfInterest.id) (noises w)
      else [] := by
  split_ifs with h
  · obtain ⟨hvalid, hplace⟩ := h
    exact (storedRows_accepted server
      ⟨htopic, p.validMeasure_publishNoise hvalid, hplace⟩).1
  · refine (storedRows_discarded server fun R' x y ns ha => h ?_).1
    have hx : (p.publishNoise w s).field "coordX" = some (.num (p.coordinate s.x)) := by
      unfold publishNoise
      split <;> rfl
    have hy : (p.publishNoise w s).field "coordY" = some (.num (p.coordinate s.y)) := by
      unfold publishNoise
      split <;> rfl
    obtain ⟨rfl, rfl, rfl⟩ := ha.place_eq htopic hx hy
    exact ⟨validate_iff.mpr ⟨_, _, _, ha.measure⟩, ha.region⟩

end Stored

/-- The noises that are stored for the last of some valid readings: a sixth of the sum of the
latest ones, rounded, where they are quiet, all of them where they are loud and fill the window. -/
def storedNoises (samples : List Sample) : List ℚ :=
  if (p.lastReadings samples).sum < 420 then
    if 60 ≤ (p.lastReadings samples).sum then
      [roundTwo ((p.lastReadings samples).sum / maxWindowSize)]
    else []
  else if maxWindowSize ≤ samples.length then (p.lastReadings samples).map fun n : ℤ => (n : ℚ)
  else []

variable {p}

theorem AllValid.fitsUint16 {samples : List Sample} (h : p.AllValid samples) :
    p.FitsUint16 samples := fun s hs => by
  obtain ⟨hlow, hhigh⟩ := h s hs
  omega

/-- The slots sum up to the latest readings, whether the window is full or not. -/
theorem AllValid.sum_slots {samples : List Sample} (h : p.AllValid samples) :
    ((∑ i, (p.windowAfter samples).slots i : ℕ) : ℤ) = (p.lastReadings samples).sum := by
  rcases le_or_gt maxWindowSize samples.length with hn | hn
  · exact h.fitsUint16.sum_slots hn
  · have hall : samples.drop (samples.length - maxWindowSize) = samples := by
      rw [Nat.sub_eq_zero_of_le hn.le, List.drop_zero]
    rw [windowAfter_eq, initNoiseValues,
      RingWindow.sum_slots_pushes ((p.length_stored samples).trans_le hn.le), lastReadings, hall]
    exact h.sum_stored

/-- The average of the window is that of the latest readings. -/
theorem AllValid.average_eq {samples : List Sample} (h : p.AllValid samples) :
    average (p.windowAfter samples) = (p.lastReadings samples).sum / maxWindowSize := by
  rw [average, ← h.sum_slots, Int.cast_natCast]

/-- A loud window passes the schema exactly when it is full. -/
theorem AllValid.accepted_loud_iff {samples : List Sample} (h : p.AllValid samples)
    (hloud : ¬(p.lastReadings samples).sum < 420) (s : Sample) :
    globalSchema.validate (p.publishNoise (p.windowAfter samples) s) = true ↔
      maxWindowSize ≤ samples.length := by
  rw [windowAfter_eq, Program.stored, p.accepted_pushes_iff h.stored s, List.length_map,
    or_iff_left_iff_imp]
  rintro ⟨-, hquiet⟩
  by_contra hn
  have hall : samples.drop (samples.length - maxWindowSize) = samples := by
    rw [Nat.sub_eq_zero_of_le (not_le.mp hn).le, List.drop_zero]
  apply hloud
  rw [lastReadings, hall, ← h.sum_stored]
  exact_mod_cast hquiet

/-- A full window holds the latest readings in some order. -/
theorem AllValid.noises_perm {samples : List Sample} (h : p.AllValid samples)
    (hn : maxWindowSize ≤ samples.length) :
    (List.ofFn fun i => ((p.windowAfter samples).slots i : ℚ)).Perm
      ((p.lastReadings samples).map fun n : ℤ => (n : ℚ)) := by
  have hcast : (List.ofFn fun i => ((p.windowAfter samples).slots i : ℚ)) =
      ((List.ofFn (p.windowAfter samples).slots).map fun v : ℕ => (v : ℤ)).map
        fun n : ℤ => (n : ℚ) := by
    rw [List.map_map, List.map_ofFn]
    exact congrArg List.ofFn (funext fun i => (Int.cast_natCast _).symm)
  rw [hcast]
  exact (h.fitsUint16.isRotated hn).perm.map _

variable (p) in
/-- The rows for the last of some readings. -/
def readingRows (server : Server) (db : Database) (R : ℕ) (samples : List Sample) :
    List NoiseMeasure :=
  match samples.getLast? with
  | none => []
  | some s =>
    if HoldsPlace db R (p.coordinate s.x) (p.coordinate s.y) then
      measureRows R (p.coordinate s.x) (p.coordinate s.y)
        ((nearestPoint server db R (p.coordinate s.x) (p.coordinate s.y)).map PointOfInterest.id)
        (p.storedNoises samples)
    else []

/-- The message after some valid readings adds the rows of the last one. -/
theorem AllValid.storedRows_perm {samples : List Sample} (h : p.AllValid samples) {s : Sample}
    (hs : samples.getLast? = some s) {server : Server} {db : Database} {R : ℕ} {topic : String}
    (htopic : NamesRegion R topic) :
    (storedRows server db (topic, p.publishNoise (p.windowAfter samples) s)).Perm
      (p.readingRows server db R samples) := by
  have hsum := h.sum_slots
  have hquiet : average (p.windowAfter samples) < avgThresholdDb ↔
      (p.lastReadings samples).sum < 420 := by
    rw [average_lt_iff, ← hsum]
    exact_mod_cast Iff.rfl
  rw [p.storedRows_publishNoise htopic, readingRows, hs]
  dsimp only
  by_cases hplace : HoldsPlace db R (p.coordinate s.x) (p.coordinate s.y)
  · rw [if_pos hplace]
    unfold storedNoises noises
    by_cases hq : (p.lastReadings samples).sum < 420
    · have hw : ∑ i, (p.windowAfter samples).slots i < 420 := by
        rw [← hsum] at hq
        exact_mod_cast hq
      have haccept : globalSchema.validate
          (p.publishNoise (p.windowAfter samples) s) = true ↔
            60 ≤ (p.lastReadings samples).sum := by
        rw [p.accepted_avg_iff hw s, ← hsum]
        exact_mod_cast Iff.rfl
      rw [if_pos hq, if_pos (hquiet.mpr hq), h.average_eq]
      by_cases hloud : 60 ≤ (p.lastReadings samples).sum
      · rw [if_pos hloud, if_pos ⟨haccept.mpr hloud, hplace⟩]
      · rw [if_neg hloud, if_neg fun hboth => hloud (haccept.mp hboth.1)]
        exact List.Perm.refl _
    · rw [if_neg hq, if_neg (mt hquiet.mp hq)]
      by_cases hn : maxWindowSize ≤ samples.length
      · rw [if_pos hn, if_pos ⟨(h.accepted_loud_iff hq s).mpr hn, hplace⟩]
        exact (h.noises_perm hn).map _
      · rw [if_neg hn, if_neg fun hboth => hn ((h.accepted_loud_iff hq s).mp hboth.1)]
        exact List.Perm.refl _
  · rw [if_neg hplace, if_neg fun hboth => hplace hboth.2]

end Program

/-- What one call of `noise_processing` reads: the signal strength of the radio, and the position
of the mote in hundredths. -/
structure Measurement where
  reading : ℤ
  coordX : ℤ
  coordY : ℤ

/-- The numbers that the program computes with. -/
def Measurement.sample (m : Measurement) : Sample :=
  ⟨m.reading, doInterfaceActionsBeforeTick m.coordX, doInterfaceActionsBeforeTick m.coordY⟩

/-- The noise is a level, and the coordinates are numbers of 32 bits. -/
structure Measurement.Fits (m : Measurement) : Prop where
  reading : ValidReading (Program.noiseSensor.noiseLevel m.sample)
  coordX : -2 ^ 31 ≤ m.coordX ∧ m.coordX < 2 ^ 31
  coordY : -2 ^ 31 ≤ m.coordY ∧ m.coordY < 2 ^ 31

/-- A reading is stored in 16 bits. -/
theorem Window.FitsUint16.store {w : Window} (hw : w.FitsUint16) (n : ℤ) :
    Window.FitsUint16 (RingWindow.store w (toUint16 n)) := by
  intro i
  have hlt : toUint16 n < 2 ^ 16 := by
    rw [toUint16]
    omega
  rcases eq_or_ne i w.position with rfl | hne
  · simpa [RingWindow.store] using hlt
  · simpa [RingWindow.store, hne] using hw i

namespace NoiseSensor

/-- The texts of successive calls of `noise_processing`. -/
def texts : Window → List Measurement → List (Except PublishError (List Char))
  | _, [] => []
  | w, m :: rest =>
    let w := w.store (toUint16 (Program.noiseSensor.noiseLevel m.sample))
    publishNoise w m.sample.x m.sample.y :: texts w.advance rest

/-- The message that the flow receives for a text: nothing for a text that was not built. -/
def message (topic : String) (text : Except PublishError (List Char)) : Option (String × Json) :=
  (text.toOption.bind parse).map fun payload => (topic, payload)

/-- Every text is the one of the message. -/
theorem texts_eq {w : Window} (hw : w.FitsUint16) {ms : List Measurement} (h : ∀ m ∈ ms, m.Fits)
    (topic : String) : (texts w ms).map (message topic) =
      (Program.noiseSensor.messages w (ms.map Measurement.sample)).map
        fun payload => some (topic, payload) := by
  induction ms generalizing w with
  | nil => rfl
  | cons m ms ih =>
    obtain ⟨hm, hrest⟩ := List.forall_mem_cons.mp h
    have hstore := hw.store (Program.noiseSensor.noiseLevel m.sample)
    obtain ⟨text, htext, hparse⟩ := exists_publishNoise_eq hstore hm.coordX hm.coordY m.reading
    have hhead : message topic (publishNoise
        (w.store (toUint16 (Program.noiseSensor.noiseLevel m.sample))) m.sample.x m.sample.y) =
        some (topic, (Program.noiseSensor.noiseProcessing w m.sample).2) := by
      rw [message, show publishNoise _ m.sample.x m.sample.y = .ok text from htext]
      exact congrArg (Option.map fun payload => (topic, payload)) hparse
    rw [texts, List.map_cons, List.map_cons, Program.messages, List.map_cons, hhead]
    exact congrArg _ (ih hstore hrest)

section Stored

variable {server : Server} {db : Database} {s : FlowState} {as : List FlowEvent}

/-- The topic of a mote. -/
def topic (simTitle : String) : String :=
  String.ofList (constructPubTopic (getRegionId simTitle)).2

/-- The topic of a mote names its region. -/
theorem namesRegion_topic (simTitle : String) :
    NamesRegion (getRegionId simTitle).toNat (topic simTitle) := by
  obtain ⟨n, hn, hlt⟩ := exists_getRegionId_eq simTitle
  have htopic := constructPubTopic_eq (getRegionId simTitle) (by omega) (by omega)
  rw [topic, htopic, hn, intText_natCast, Int.toNat_natCast]
  refine ⟨[], natText n, ?_, natText_ne_nil n, fun _ => isDigit_of_mem_natText,
    digitsValue_natText n⟩
  rw [String.toList_ofList]
  rfl

/-- The rows for the reading with the given number. -/
def rowsAt (server : Server) (db : Database) (simTitle : String) (ms : List Measurement) (i : ℕ) :
    List NoiseMeasure :=
  Program.noiseSensor.readingRows server db (getRegionId simTitle).toNat
    ((ms.take (i + 1)).map Measurement.sample)

theorem fitsUint16_initNoiseValues : initNoiseValues.FitsUint16 := fun _ => Nat.two_pow_pos 16

/-- The message with the given number adds the rows of its reading. -/
theorem storedRows_text (server : Server) (db : Database) (simTitle : String)
    {ms : List Measurement} (h : ∀ m ∈ ms, m.Fits) {i : ℕ} (hi : i < ms.length) : ∃ m,
      (texts initNoiseValues ms)[i]?.bind (message (topic simTitle)) = some m ∧
      (storedRows server db m).Perm (rowsAt server db simTitle ms i) := by
  have hlast : ((ms.take (i + 1)).map Measurement.sample).getLast? = some (ms[i].sample) := by
    rw [List.getLast?_map, List.getLast?_take, if_neg i.succ_ne_zero, Nat.add_sub_cancel,
      List.getElem?_eq_getElem hi]
    rfl
  have hvalid : Program.noiseSensor.AllValid ((ms.take (i + 1)).map Measurement.sample) := by
    intro s hs
    obtain ⟨m, hm, rfl⟩ := List.mem_map.mp hs
    exact (h m (List.mem_of_mem_take hm)).reading
  have hmessage := Program.noiseSensor.getElem?_messages initNoiseValues
    (ms.map Measurement.sample) i
  have htext := congrArg (fun l => l[i]?) (texts_eq fitsUint16_initNoiseValues h (topic simTitle))
  simp only [List.getElem?_map] at htext hmessage
  rw [hmessage, List.getElem?_eq_getElem hi] at htext
  obtain ⟨text, hsome, hreceived⟩ := Option.map_eq_some_iff.mp htext
  refine ⟨_, ?_, hvalid.storedRows_perm hlast (namesRegion_topic simTitle)⟩
  rw [hsome, Option.bind_some, hreceived, Program.windowAfter_eq, Program.stored, ← List.map_take]

/-- The messages of some texts add the rows of their readings. -/
theorem rows_delivered (server : Server) (db : Database) (simTitle : String)
    {ms : List Measurement} (h : ∀ m ∈ ms, m.Fits) {delivered : List ℕ}
    (hlt : ∀ i ∈ delivered, i < ms.length) :
    ((delivered.filterMap fun i =>
      (texts initNoiseValues ms)[i]?.bind (message (topic simTitle))).flatMap
        (storedRows server db)).Perm (delivered.flatMap (rowsAt server db simTitle ms)) := by
  rw [List.filterMap_eq_flatMap_toList, List.flatMap_assoc]
  refine List.Perm.flatMap_left _ fun i hi => ?_
  obtain ⟨m, hm, hperm⟩ := storedRows_text server db simTitle h (hlt i hi)
  rw [hm, Option.toList_some, List.flatMap_singleton]
  exact hperm

/-- From the microphone to the table: whichever texts of a mote are delivered, how often, in
which order, and however the nodes take turns, the table gets the rows of their readings. -/
theorem readings_stored (simTitle : String) {ms : List Measurement} (h : ∀ m ∈ ms, m.Fits)
    {delivered : List ℕ} (hlt : ∀ i ∈ delivered, i < ms.length)
    (hr : (flowSystem server).Run ⟨db, [], []⟩ as s) (hdrained : s.inFlight = [])
    (hdelivered : (messages as).Perm (delivered.filterMap fun i =>
      (texts initNoiseValues ms)[i]?.bind (message (topic simTitle)))) :
    ∃ rows, s.db = db.withMeasures rows ∧
      rows.Perm (delivered.flatMap (rowsAt server db simTitle ms)) := by
  obtain ⟨rows, hdb, hrows, -⟩ := (flowBalanced hr).drained hdrained
  have hall := hrows.trans (hdelivered.flatMap_right _)
  exact ⟨rows, hdb, hall.trans (rows_delivered server db simTitle h hlt)⟩

/-- A quiet and a loud reading at the centre of the first region. -/
def twoMeasurements : List Measurement := [⟨-45, 5000, 5000⟩, ⟨0, 5000, 5000⟩]

/-- The second text overtakes the first one, which is delivered twice. -/
theorem readings_stored_twoMeasurements : ∃ as s,
    (flowSystem .stable).Run ⟨dumpedDatabase, [], []⟩ as s ∧ s.inFlight = [] ∧
      ∃ rows, s.db = dumpedDatabase.withMeasures rows ∧ rows.Perm
        ([1, 0, 0].flatMap (rowsAt .stable dumpedDatabase "Region 1" twoMeasurements)) := by
  obtain ⟨as, s, hr, hmessages, hdrained⟩ := exists_drained .stable dumpedDatabase
    ([1, 0, 0].filterMap fun i =>
      (texts initNoiseValues twoMeasurements)[i]?.bind (message (topic "Region 1")))
  have hfits : ∀ m ∈ twoMeasurements, m.Fits := by
    intro m hm
    rcases List.mem_pair.mp hm with rfl | rfl <;> exact ⟨by decide, by decide, by decide⟩
  exact ⟨as, s, hr, hdrained, readings_stored "Region 1" hfits (by decide) hr hdrained
    (hmessages ▸ List.Perm.refl _)⟩

end Stored

end NoiseSensor

end NoiseLevel.Sensor
