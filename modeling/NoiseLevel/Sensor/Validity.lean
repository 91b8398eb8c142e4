import Mathlib.Algebra.Order.BigOperators.Group.Finset
import Mathlib.Tactic.Linarith
import NoiseLevel.Sensor.Window

/-!
# Which messages the backend accepts

A message is accepted exactly when its window is loud enough for the average or
holds six levels for the raw array. Slots that no reading has reached count as
zero, so the messages before the first full window decide.
-/

namespace NoiseLevel.Sensor

open NoiseLevel.Core Backend

/-- Two decimals of a number of sixths: no such number lies halfway between two hundredths. -/
theorem roundTwo_div_six (n : ℤ) : roundTwo (n / 6) = ((100 * n + 3) / 6 : ℤ) / 100 := by
  have hfract : Int.fract (100 * ((n : ℚ) / 6)) ≠ 1 / 2 := by
    intro hhalf
    have hfloor := Int.floor_add_fract (100 * ((n : ℚ) / 6))
    have hodd : ((100 * n : ℤ) : ℚ) = ((6 * ⌊100 * ((n : ℚ) / 6)⌋ + 3 : ℤ) : ℚ) := by
      push_cast
      linarith
    have := Int.cast_injective hodd
    omega
  have hsixths : 100 * ((n : ℚ) / 6) + 1 / 2 = ((100 * n + 3 : ℤ) : ℚ) / (6 : ℕ) := by
    push_cast
    ring
  rw [roundTwo, roundEven_eq_round hfract, round_eq, hsixths, Rat.floor_intCast_div_natCast]
  rfl

/-- Rounding to two decimals does not cross an integer from above. -/
theorem le_roundTwo_iff (n b : ℤ) : (b : ℚ) ≤ roundTwo (n / 6) ↔ 6 * b ≤ n := by
  rw [roundTwo_div_six, le_div_iff₀ (by norm_num)]
  norm_cast
  omega

/-- Rounding to two decimals does not cross an integer from below. -/
theorem roundTwo_le_iff (n b : ℤ) : roundTwo (n / 6) ≤ (b : ℚ) ↔ n ≤ 6 * b := by
  rw [roundTwo_div_six, div_le_iff₀ (by norm_num)]
  norm_cast
  omega

/-- What the backend takes for a noise level. -/
def ValidReading (n : ℤ) : Prop := 10 ≤ n ∧ n ≤ 180

instance : DecidablePred ValidReading := fun n =>
  inferInstanceAs (Decidable (10 ≤ n ∧ n ≤ 180))

/-- A valid reading is stored as it is. -/
theorem ValidReading.toUint16_eq {n : ℤ} (h : ValidReading n) : (toUint16 n : ℤ) = n := by
  obtain ⟨hlow, hhigh⟩ := h
  rw [toUint16, Int.emod_eq_of_lt (by omega) (by omega), Int.toNat_of_nonneg (by omega)]

namespace Program

variable (p : Program)

/-- The average is below the threshold exactly when the sum is below six times that. -/
theorem average_lt_iff (w : Window) :
    average w < avgThresholdDb ↔ ∑ i, w.slots i < 420 := by
  rw [average, avgThresholdDb, div_lt_iff₀ (by norm_num)]
  norm_num
  exact_mod_cast Iff.rfl

/-- An average message is accepted exactly when its sum reaches six times the least level. -/
theorem accepted_avg_iff {w : Window} (hw : ∑ i, w.slots i < 420) (s : Sample) :
    globalSchema.validate (p.publishNoise w s) = true ↔ 60 ≤ ∑ i, w.slots i := by
  rw [publishNoise, if_pos ((average_lt_iff w).mpr hw), publishAvg, publish, if_pos rfl,
    validate_avg, average]
  generalize ∑ i, w.slots i = n at hw ⊢
  have hlow := le_roundTwo_iff n 10
  have hhigh := roundTwo_le_iff n 180
  push_cast at hlow hhigh ⊢
  rw [hlow, hhigh]
  omega

/-- A raw message is accepted exactly when every slot is a level. -/
theorem accepted_raw_iff {w : Window} (hw : ¬ ∑ i, w.slots i < 420) (s : Sample) :
    globalSchema.validate (p.publishNoise w s) = true ↔ ∀ i, ValidReading (w.slots i) := by
  rw [publishNoise, if_neg (mt (average_lt_iff w).mp hw), publishRaw, publish,
    if_neg (by decide), if_pos rfl, validate_raw, List.forall_mem_ofFn_iff]
  apply forall_congr'
  intro i
  rw [validate_level_num, ValidReading]
  norm_cast

/-- The message after a history of levels: a full window is always accepted, a partial one
when its sum makes an acceptable average. -/
theorem accepted_pushes_iff {l : List ℕ} (hl : ∀ v ∈ l, ValidReading v) (s : Sample) :
    globalSchema.validate (p.publishNoise (initNoiseValues.pushes l) s) = true ↔
      maxWindowSize ≤ l.length ∨ 60 ≤ l.sum ∧ l.sum < 420 := by
  rcases lt_or_ge l.length maxWindowSize with hlen | hlen
  · have hsum := RingWindow.sum_slots_pushes hlen.le
    rw [or_iff_right hlen.not_ge, ← hsum]
    rcases lt_or_ge (∑ i, (initNoiseValues.pushes l).slots i) 420 with hw | hw
    · rw [p.accepted_avg_iff hw s]
      exact (and_iff_left hw).symm
    · rw [p.accepted_raw_iff hw.not_gt s]
      have hblank : (initNoiseValues.pushes l).slots (Fin.last 5) = 0 :=
        RingWindow.slots_pushes_blank (Nat.le_of_lt_succ hlen)
      refine iff_of_false (fun h => ?_) fun h => hw.not_gt h.2
      have := (h (Fin.last 5)).1
      rw [hblank] at this
      exact absurd this (by decide)
  · rw [or_iff_left_of_imp fun _ => hlen]
    refine iff_of_true ?_ hlen
    have hslots : ∀ i, ValidReading ((initNoiseValues.pushes l).slots i) :=
      fun i => hl _ (RingWindow.slots_pushes_mem hlen i)
    rcases lt_or_ge (∑ i, (initNoiseValues.pushes l).slots i) 420 with hw | hw
    · rw [p.accepted_avg_iff hw s]
      calc 60 = ∑ _i : Fin maxWindowSize, 10 := rfl
        _ ≤ _ := Finset.sum_le_sum fun i _ => by exact_mod_cast (hslots i).1
    · exact (p.accepted_raw_iff hw.not_gt s).mpr hslots

/-- Every message of a history is accepted by the backend. -/
def AllAccepted (samples : List Sample) : Prop :=
  ∀ m ∈ p.messages initNoiseValues samples, globalSchema.validate m = true

/-- Every reading of a history is valid. -/
def AllValid (samples : List Sample) : Prop := ∀ s ∈ samples, ValidReading (p.noiseLevel s)

instance (samples : List Sample) : Decidable (p.AllValid samples) :=
  inferInstanceAs (Decidable (∀ s ∈ samples, ValidReading (p.noiseLevel s)))

variable {p}

/-- The stored values of valid readings are levels. -/
theorem AllValid.stored {samples : List Sample} (h : p.AllValid samples) :
    ∀ v ∈ samples.map (fun s => toUint16 (p.noiseLevel s)), ValidReading v := by
  intro v hv
  obtain ⟨s, hs, rfl⟩ := List.mem_map.mp hv
  rw [(h s hs).toUint16_eq]
  exact h s hs

/-- The stored values of valid readings sum up to the readings. -/
theorem AllValid.sum_stored {samples : List Sample} (h : p.AllValid samples) :
    ((samples.map fun s => toUint16 (p.noiseLevel s)).sum : ℤ)
      = (samples.map p.noiseLevel).sum := by
  rw [Nat.cast_list_sum, List.map_map]
  congr 1
  exact List.map_congr_left fun s hs => (h s hs).toUint16_eq

theorem AllValid.take {samples : List Sample} (h : p.AllValid samples) (n : ℕ) :
    p.AllValid (samples.take n) := fun s hs => h s (List.mem_of_mem_take hs)

/-- The messages of valid readings are accepted exactly when each partial window sums up
to an acceptable average. -/
theorem allAccepted_iff_windows {samples : List Sample} (h : p.AllValid samples) :
    p.AllAccepted samples ↔ ∀ i < samples.length, i < 5 →
      60 ≤ ((samples.take (i + 1)).map p.noiseLevel).sum ∧
        ((samples.take (i + 1)).map p.noiseLevel).sum < 420 := by
  have hkey : ∀ i < samples.length, ∀ s,
      globalSchema.validate (p.publishNoise (initNoiseValues.pushes
        ((samples.take (i + 1)).map fun s => toUint16 (p.noiseLevel s))) s) = true ↔
      5 ≤ i ∨ 60 ≤ ((samples.take (i + 1)).map p.noiseLevel).sum ∧
        ((samples.take (i + 1)).map p.noiseLevel).sum < 420 := by
    intro i hi s
    have hsum := (h.take (i + 1)).sum_stored
    rw [p.accepted_pushes_iff (h.take (i + 1)).stored s, ← hsum, List.length_map,
      List.length_take, min_eq_left hi]
    exact or_congr Nat.succ_le_succ_iff (by norm_cast)
  constructor
  · intro hall i hi hfive
    have hm := p.getElem?_messages initNoiseValues samples i
    rw [List.getElem?_eq_getElem hi, Option.map_some] at hm
    have hacc := (hkey i hi _).mp (hall _ (List.mem_of_getElem? hm))
    exact hacc.resolve_left hfive.not_ge
  · intro hpart m hm
    obtain ⟨i, hi⟩ := List.mem_iff_getElem?.mp hm
    rw [getElem?_messages] at hi
    obtain ⟨s, hs, rfl⟩ := Option.map_eq_some_iff.mp hi
    have hlt : i < samples.length := (List.getElem?_eq_some_iff.mp hs).1
    rw [hkey i hlt s]
    exact (lt_or_ge i 5).symm.imp_right (hpart i hlt)

/-- Leading parts of a valid history have growing sums. -/
theorem AllValid.sum_le {part samples : List Sample} (h : p.AllValid samples)
    (hp : part.Sublist samples) :
    (part.map p.noiseLevel).sum ≤ (samples.map p.noiseLevel).sum := by
  apply (hp.map p.noiseLevel).sum_le_sum
  intro v hv
  obtain ⟨s, hs, rfl⟩ := List.mem_map.mp hv
  exact (by decide : (0 : ℤ) ≤ 10).trans (h s hs).1

/-- The messages of valid readings are all accepted exactly when the first reading is at
least 60 and the first five sum up to less than 420. -/
theorem allAccepted_iff (p : Program) (first : Sample) (rest : List Sample)
    (h : p.AllValid (first :: rest)) :
    p.AllAccepted (first :: rest) ↔ 60 ≤ p.noiseLevel first ∧
      (((first :: rest).take 5).map p.noiseLevel).sum < 420 := by
  rw [allAccepted_iff_windows h]
  constructor
  · intro hpart
    constructor
    · simpa using (hpart 0 (Nat.succ_pos _) (by decide)).1
    · have hlast := (hpart (min 4 rest.length) (by simp) (by omega)).2
      have htake : (first :: rest).take (min 4 rest.length + 1) = (first :: rest).take 5 := by
        rw [List.take_succ_cons, List.take_succ_cons, List.take_eq_take_min, min_assoc, min_self,
          ← List.take_eq_take_min]
      rwa [htake] at hlast
  · rintro ⟨hfirst, hsum⟩ i - hi
    constructor
    · have hsome : [first].Sublist ((first :: rest).take (i + 1)) :=
        (List.nil_sublist _).cons_cons first
      have hle := (h.take (i + 1)).sum_le hsome
      rw [List.map_singleton, List.sum_singleton] at hle
      exact hfirst.trans hle
    · have hpre : ((first :: rest).take (i + 1)).Sublist ((first :: rest).take 5) :=
        (List.take_prefix_take_left hi).sublist
      exact ((h.take 5).sum_le hpre).trans_lt hsum

/-- Five readings of 65 dB and two of 110 dB. -/
def quietThenLoud : List Sample := List.replicate 5 ⟨-45, 0, 0⟩ ++ List.replicate 2 ⟨0, 0, 0⟩

/-- The averages of the first windows are accepted, and the last window has wrapped and is sent
raw. -/
theorem allAccepted_quietThenLoud : noiseSensor.AllAccepted quietThenLoud ∧
    (noiseSensor.messages initNoiseValues quietThenLoud)[6]?.bind (fun m => m.field "mode") =
      some (.str "raw") := by
  refine ⟨(allAccepted_iff noiseSensor ⟨-45, 0, 0⟩ _ (by decide)).mpr (by decide), ?_⟩
  have hloud : ¬average (initNoiseValues.pushes
      (quietThenLoud.map fun s => toUint16 (noiseSensor.noiseLevel s))) < avgThresholdDb := by
    rw [average_lt_iff]
    decide
  have hlast := noiseSensor.getElem?_messages initNoiseValues quietThenLoud 6
  have hsample : quietThenLoud[6]? = some ⟨0, 0, 0⟩ := rfl
  have htake : quietThenLoud.take 7 = quietThenLoud := rfl
  rw [hlast, hsample, htake, Option.map_some, publishNoise, if_neg hloud]
  rfl

/-- One reading of 10 dB is published as an average of 1.67, which the backend rejects. -/
theorem not_allAccepted_quiet :
    noiseSensor.AllValid [⟨-100, 0, 0⟩] ∧ ¬ noiseSensor.AllAccepted [⟨-100, 0, 0⟩] := by
  constructor
  · decide
  · intro h
    have hvalid : noiseSensor.AllValid [⟨-100, 0, 0⟩] := by decide
    have := (allAccepted_iff_windows hvalid).mp h 0 (by decide) (by decide)
    exact absurd this.1 (by decide)

end Program

end NoiseLevel.Sensor
