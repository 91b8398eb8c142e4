import NoiseLevel.Sensor.Validity

/-!
# What the window holds and what is published from it

Readings of 16 bits are stored as they are. After any history the window holds the
latest readings in circular order, and a message from a full window is determined by
these readings alone.
-/

namespace NoiseLevel.Sensor

open NoiseLevel.Core Backend

/-- A reading of 16 bits is stored as it is. -/
theorem toUint16_of_le {n : ℤ} (hlow : 0 ≤ n) (hhigh : n ≤ 65535) : (toUint16 n : ℤ) = n := by
  rw [toUint16, Int.emod_eq_of_lt hlow (by omega), Int.toNat_of_nonneg hlow]

namespace Program

variable (p : Program)

/-- The window after successive calls of `noise_processing`. -/
def windowAfter (samples : List Sample) : Window :=
  samples.foldl (fun w s => (p.noiseProcessing w s).1) initNoiseValues

/-- The readings of the latest calls that fill a window, oldest first. -/
def lastReadings (samples : List Sample) : List ℤ :=
  (samples.drop (samples.length - maxWindowSize)).map p.noiseLevel

/-- Every reading of a history has 16 bits. -/
def FitsUint16 (samples : List Sample) : Prop :=
  ∀ s ∈ samples, 0 ≤ p.noiseLevel s ∧ p.noiseLevel s ≤ 65535

/-- The values that a history stores. -/
def stored (samples : List Sample) : List ℕ := samples.map fun s => toUint16 (p.noiseLevel s)

@[simp] theorem length_stored (samples : List Sample) :
    (p.stored samples).length = samples.length := List.length_map _

theorem windowAfter_eq (samples : List Sample) :
    p.windowAfter samples = initNoiseValues.pushes (p.stored samples) := by
  rw [windowAfter, stored, RingWindow.pushes, List.foldl_map]
  simp only [noiseProcessing_fst]

variable {p}

theorem FitsUint16.map_cast_stored {samples : List Sample} (h : p.FitsUint16 samples) :
    (p.stored samples).map (fun v : ℕ => (v : ℤ)) = samples.map p.noiseLevel := by
  rw [stored, List.map_map]
  apply List.map_congr_left
  intro s hs
  exact toUint16_of_le (h s hs).1 (h s hs).2

/-- Each latest reading sits in its own slot. -/
theorem FitsUint16.slots_recent {samples : List Sample} (h : p.FitsUint16 samples) {i : ℕ}
    (hi : i < min samples.length maxWindowSize) :
    (samples.map p.noiseLevel).reverse[i]? =
      some ((p.windowAfter samples).slots
        (Fin.ofNat maxWindowSize (samples.length - 1 - i)) : ℤ) := by
  have hlen : samples.length - 1 - i < (p.stored samples).length := by
    rw [length_stored]
    omega
  rw [windowAfter_eq, initNoiseValues,
    RingWindow.slots_pushes hlen (by rw [length_stored]; omega), ← h.map_cast_stored,
    ← List.map_reverse, List.getElem?_map, List.getElem?_reverse (by rw [length_stored]; omega),
    length_stored, List.getElem?_eq_getElem hlen, Option.map_some]

/-- The slots of a full window are the latest readings, rotated. -/
theorem FitsUint16.isRotated {samples : List Sample} (h : p.FitsUint16 samples)
    (hn : maxWindowSize ≤ samples.length) :
    ((List.ofFn (p.windowAfter samples).slots).map fun v : ℕ => (v : ℤ)).IsRotated
      (p.lastReadings samples) := by
  have hrot := RingWindow.rotate_slots_pushes (k := maxWindowSize) (z := 0)
    ((p.length_stored samples).symm ▸ hn)
  rw [windowAfter_eq, initNoiseValues]
  refine ⟨(p.stored samples).length, ?_⟩
  rw [← List.map_rotate, hrot, List.map_drop, h.map_cast_stored, length_stored, lastReadings,
    List.map_drop]

/-- The slots of a full window sum up to the latest readings. -/
theorem FitsUint16.sum_slots {samples : List Sample} (h : p.FitsUint16 samples)
    (hn : maxWindowSize ≤ samples.length) :
    ((∑ i, (p.windowAfter samples).slots i : ℕ) : ℤ) = (p.lastReadings samples).sum := by
  rw [← (h.isRotated hn).perm.sum_eq, ← Nat.cast_list_sum, List.sum_ofFn]

/-- The average of a full window is the mean of the latest readings. -/
theorem FitsUint16.average_eq {samples : List Sample} (h : p.FitsUint16 samples)
    (hn : maxWindowSize ≤ samples.length) :
    average (p.windowAfter samples) = (p.lastReadings samples).sum / maxWindowSize := by
  rw [average, ← h.sum_slots hn, Int.cast_natCast]

variable (p)

/-- The last message publishes the window that its reading completed. -/
theorem getElem?_messages_last {samples : List Sample} {s : Sample}
    (hs : samples.getLast? = some s) :
    (p.messages initNoiseValues samples)[samples.length - 1]? =
      some (p.publishNoise (p.windowAfter samples) s) := by
  have hpos : 0 < samples.length := List.length_pos_of_mem (List.mem_of_getLast? hs)
  rw [getElem?_messages, Nat.sub_add_cancel hpos, List.take_length,
    ← List.getLast?_eq_getElem?, hs, windowAfter_eq]
  rfl

/-- After any history of 16-bit readings the window holds the latest readings in circular
order, and from the first full window on a message is the mean of the latest readings or
these readings themselves, rotated. -/
theorem sliding_window (samples : List Sample) (h : p.FitsUint16 samples) :
    ((p.windowAfter samples).position : ℕ) = samples.length % maxWindowSize ∧
    (∀ i < min samples.length maxWindowSize,
      (samples.map p.noiseLevel).reverse[i]? =
        some ((p.windowAfter samples).slots
          (Fin.ofNat maxWindowSize (samples.length - 1 - i)) : ℤ)) ∧
    (∀ j : Fin maxWindowSize,
      (∀ i < min samples.length maxWindowSize,
        (j : ℕ) ≠ (samples.length - 1 - i) % maxWindowSize) →
      (p.windowAfter samples).slots j = 0) ∧
    (maxWindowSize ≤ samples.length → ∃ (s : Sample) (array : List ℤ),
      samples.getLast? = some s ∧ array.IsRotated (p.lastReadings samples) ∧
      (p.messages initNoiseValues samples)[samples.length - 1]? = some (.obj
        [("noise", if (p.lastReadings samples).sum < 6 * 70 then
            .num (roundTwo ((p.lastReadings samples).sum / 6))
          else .arr (array.map fun v : ℤ => .num v)),
        ("mode", .str (if (p.lastReadings samples).sum < 6 * 70 then "avg" else "raw")),
        ("coordX", .num (p.coordinate s.x)),
        ("coordY", .num (p.coordinate s.y))])) := by
  refine ⟨?_, fun i hi => h.slots_recent hi, fun j hj => ?_, fun hn => ?_⟩
  · rw [windowAfter_eq, initNoiseValues, RingWindow.position_pushes, length_stored]
  · rw [windowAfter_eq]
    apply RingWindow.slots_pushes_of_forall_ne
    simpa only [length_stored] using hj
  · have hne : samples ≠ [] := List.ne_nil_of_length_pos (lt_of_lt_of_le (Nat.succ_pos 5) hn)
    have hs := List.getLast?_eq_some_getLast hne
    refine ⟨_, _, hs, h.isRotated hn, ?_⟩
    have hquiet : average (p.windowAfter samples) < avgThresholdDb ↔
        (p.lastReadings samples).sum < 6 * 70 := by
      rw [average_lt_iff, ← h.sum_slots hn]
      exact_mod_cast Iff.rfl
    rw [p.getElem?_messages_last hs, publishNoise, List.map_map, List.map_ofFn]
    simp only [hquiet]
    split_ifs with hsum
    · rw [publishAvg, publish, if_pos rfl, h.average_eq hn]
      rfl
    · rw [publishRaw, publish, if_neg (by decide), if_pos rfl]
      rfl

/-- Seven readings at the centre of the first region, each 10 dB above the one before it. -/
def sevenSamples (first : ℤ) : List Sample :=
  (List.range 7).map fun i : ℕ => ⟨first - 110 + 10 * i, 50, 50⟩

/-- The seventh reading is written over the first; the latest ones are quiet in the first run and
loud in the second one. -/
theorem sliding_window_seven :
    ((noiseSensor.windowAfter (sevenSamples 10)).slots 0 : ℤ) = 70 ∧
    (noiseSensor.messages initNoiseValues (sevenSamples 10))[6]? = some (.obj
      [("noise", .num 45), ("mode", .str "avg"), ("coordX", .num 50), ("coordY", .num 50)]) ∧
    ∃ array : List ℤ, array.IsRotated [70, 80, 90, 100, 110, 120] ∧
      (noiseSensor.messages initNoiseValues (sevenSamples 60))[6]? = some (.obj
        [("noise", .arr (array.map fun v : ℤ => .num v)), ("mode", .str "raw"),
        ("coordX", .num 50), ("coordY", .num 50)]) := by
  have hquiet : noiseSensor.FitsUint16 (sevenSamples 10) := by
    rw [FitsUint16, sevenSamples, List.forall_mem_map]
    decide
  have hloud : noiseSensor.FitsUint16 (sevenSamples 60) := by
    rw [FitsUint16, sevenSamples, List.forall_mem_map]
    decide
  have hfifty : roundTwo 50 = 50 := by exact_mod_cast roundTwo_intCast 50
  have hmean : roundTwo 45 = 45 := by exact_mod_cast roundTwo_intCast 45
  obtain ⟨-, hslots, -, hmessage⟩ := noiseSensor.sliding_window _ hquiet
  obtain ⟨s, _, hs, -, havg⟩ := hmessage (by decide)
  obtain ⟨-, -, -, hmessage'⟩ := noiseSensor.sliding_window _ hloud
  obtain ⟨s', array, hs', hrot, hraw⟩ := hmessage' (by decide)
  obtain rfl : s = ⟨-40, 50, 50⟩ := Option.some.inj (hs.symm.trans (by decide))
  obtain rfl : s' = ⟨10, 50, 50⟩ := Option.some.inj (hs'.symm.trans (by decide))
  have hlast : noiseSensor.lastReadings (sevenSamples 10) = [20, 30, 40, 50, 60, 70] := by decide
  have hlast' : noiseSensor.lastReadings (sevenSamples 60) = [70, 80, 90, 100, 110, 120] := by
    decide
  refine ⟨(Option.some.inj (hslots 0 (by decide))).symm, havg.trans ?_, array, hlast' ▸ hrot,
    hraw.trans ?_⟩
  · rw [hlast]
    norm_num [hmean, hfifty, coordinate]
  · rw [hlast']
    norm_num [hfifty, coordinate]

end Program

end NoiseLevel.Sensor
