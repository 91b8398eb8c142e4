import NoiseLevel.Backend.JsonForms
import NoiseLevel.Core.CString
import NoiseLevel.Sensor.Dataset
import NoiseLevel.Sensor.Validity

/-!
# The messages of the sensor with a microphone

`publish_avg`, `publish_raw` and `publish` build the text of a message through three
buffers of fixed size. No buffer is too small for readings of 16 bits and coordinates of
32 bits, and the text is parsed back to what was measured. Rationals stand for doubles.
-/

namespace NoiseLevel.Sensor

open NoiseLevel.Core Backend

/-- The size of `final_string`. -/
def finalStringSize : ℕ := maxWindowSize * parseBufferSize

/-- `doInterfaceActionsBeforeTick`, which sets `X` and `Y` alike. -/
def doInterfaceActionsBeforeTick (coord : ℤ) : ℚ := coord / 100

/-- How a message may fail to be built. -/
inductive PublishError where
  /-- `strcat` writes past the end of `final_string`. -/
  | overrun
  /-- The text does not fit into `pub_buffer`. -/
  | tooLong
deriving DecidableEq

namespace NoiseSensor

/-- What `publish_raw` prints into `double_string`. -/
def doubleString (value : ℕ) : List Char := (snprintf parseBufferSize (natText value ++ [','])).2

/-- What `publish_raw` leaves in `final_string`. -/
def rawString (w : Window) : Except PublishError (List Char) :=
  match ((List.ofFn w.slots).map doubleString).foldlM (strcat finalStringSize) ['['] with
  | some text => .ok (text.set (text.length - 1) ']')
  | none => .error .overrun

/-- `publish`: the payload that is handed to `mqtt_publish`. -/
def publish (value : List Char) (mode : ℕ) (x y : ℚ) : Except PublishError (List Char) :=
  let (len, pubBuffer) := snprintf publishBufferSize
    (measureText value (modeString mode) (fixedTwo x) (fixedTwo y))
  if publishBufferSize ≤ len then .error .tooLong else .ok (pubBuffer.take len)

/-- `publish_noise`. -/
def publishNoise (w : Window) (x y : ℚ) : Except PublishError (List Char) :=
  if Program.average w < avgThresholdDb then publish (avgString w) publishModeAvg x y
  else do
    let value ← rawString w
    publish value publishModeRaw x y

end NoiseSensor

/-- Every slot holds a reading of 16 bits. -/
def Window.FitsUint16 (w : Window) : Prop := ∀ i, w.slots i < 2 ^ 16

/-- A coordinate of 32 bits takes at most twelve characters. -/
theorem length_fixedTwo_le {n : ℤ} (hlo : -2 ^ 31 ≤ n) (hhi : n < 2 ^ 31) :
    (fixedTwo (doInterfaceActionsBeforeTick n)).length ≤ 12 := by
  have hround : roundEven (100 * doInterfaceActionsBeforeTick n) = n := by
    rw [doInterfaceActionsBeforeTick, mul_div_cancel₀ _ (by norm_num), roundEven_intCast]
  rcases lt_or_ge (doInterfaceActionsBeforeTick n) 0 with hq | hq
  · obtain ⟨h, htext, hh⟩ := fixedTwo_of_neg hq
    have hlen := length_hundredthsText_le (h := h) (k := 8) (by decide) (by omega)
    rw [htext, List.length_cons]
    omega
  · obtain ⟨h, htext, hh⟩ := fixedTwo_of_nonneg hq
    have hlen := length_hundredthsText_le (h := h) (k := 8) (by decide) (by omega)
    rw [htext]
    omega

namespace Window.FitsUint16

variable {w : Window} (hw : w.FitsUint16)
include hw

theorem average_le : Program.average w ≤ 65535 := by
  have hsum : ∑ i, w.slots i ≤ ∑ _i : Fin maxWindowSize, 65535 :=
    Finset.sum_le_sum fun i _ => Nat.le_of_lt_succ (hw i)
  rw [Finset.sum_const, Finset.card_univ, Fintype.card_fin, smul_eq_mul] at hsum
  have hcast : ((∑ i, w.slots i : ℕ) : ℚ) ≤ ((maxWindowSize * 65535 : ℕ) : ℚ) :=
    Nat.cast_le.mpr hsum
  rw [Program.average, div_le_iff₀ (by norm_num)]
  exact hcast.trans (by norm_num)

/-- The average is printed in full. -/
theorem avgString_eq : avgString w = fixedTwo (Program.average w) := by
  have hpos : 0 ≤ Program.average w := by
    rw [Program.average]
    positivity
  obtain ⟨h, htext, hround⟩ := fixedTwo_of_nonneg hpos
  have hle : roundEven (100 * Program.average w) ≤ 6553500 := by
    apply roundEven_le
    have := hw.average_le
    push_cast
    linarith
  have hlen := length_hundredthsText_le (h := h) (k := 5) (by decide) (by omega)
  have hlt : (fixedTwo (Program.average w)).length < parseBufferSize := by
    rw [htext]
    exact hlen.trans_lt (by decide)
  rw [avgString, snprintf_of_lt hlt]

theorem length_natText_slot_le (i : Fin maxWindowSize) : (natText (w.slots i)).length ≤ 5 :=
  length_natText_le (by decide) ((hw i).trans (by decide))

/-- The readings are printed in full. -/
theorem map_doubleString_eq : (List.ofFn w.slots).map NoiseSensor.doubleString =
    ((List.ofFn w.slots).map natText).map fun t => t ++ [','] := by
  rw [List.map_map]
  apply List.map_congr_left
  intro v hv
  obtain ⟨i, rfl⟩ := List.mem_ofFn.mp hv
  have hlt : (natText (w.slots i) ++ [',']).length < parseBufferSize := by
    have := hw.length_natText_slot_le i
    have hsize : parseBufferSize = 15 := rfl
    rw [List.length_append, List.length_singleton]
    omega
  rw [NoiseSensor.doubleString, snprintf_of_lt hlt]
  rfl

theorem length_flatten_doubleString_le :
    ((List.ofFn w.slots).map NoiseSensor.doubleString).flatten.length ≤ 36 := by
  rw [hw.map_doubleString_eq, List.length_flatten]
  refine (List.sum_le_card_nsmul _ 6 fun n hn => ?_).trans (by simp)
  simp only [List.map_map, List.mem_map, List.mem_ofFn] at hn
  obtain ⟨_, ⟨i, rfl⟩, rfl⟩ := hn
  have := hw.length_natText_slot_le i
  simp only [Function.comp_apply, List.length_append, List.length_singleton]
  omega

/-- The array is built inside its buffer, where the last comma becomes the bracket, and it is
parsed back to the readings in the order of the slots. -/
theorem exists_rawString_eq : ∃ value, NoiseSensor.rawString w = .ok value ∧
    value.length ≤ 37 ∧ ReadsWithin 2 value (.arr (List.ofFn fun i => .num (w.slots i))) := by
  have hlen := hw.length_flatten_doubleString_le
  obtain ⟨text, hcommas, hclosed⟩ := exists_elementsText_eq (natText (w.slots 0))
    ((List.ofFn fun i : Fin 5 => w.slots i.succ).map natText)
  have hpieces : ((List.ofFn w.slots).map NoiseSensor.doubleString).flatten = text ++ [','] := by
    rw [hw.map_doubleString_eq, ← hcommas, List.ofFn_succ]
    rfl
  have hroom : ['['].length + ((List.ofFn w.slots).map NoiseSensor.doubleString).flatten.length <
      finalStringSize := by
    have hsize : finalStringSize = 90 := rfl
    rw [List.length_singleton]
    omega
  refine ⟨'[' :: (text ++ [']']), ?_, ?_, ?_⟩
  · rw [NoiseSensor.rawString, foldlM_strcat hroom, hpieces]
    simp
  · rw [hpieces, List.length_append] at hlen
    rw [List.length_cons, List.length_append]
    exact Nat.succ_le_succ hlen
  · rw [← hclosed]
    have hnumbers := readsWithin_numbers (w.slots 0) (List.ofFn fun i : Fin 5 => w.slots i.succ)
    rwa [← List.ofFn_succ (f := w.slots), List.map_ofFn] at hnumbers

end Window.FitsUint16

section Coordinates

variable {coordX coordY : ℤ} (hx : -2 ^ 31 ≤ coordX ∧ coordX < 2 ^ 31)
  (hy : -2 ^ 31 ≤ coordY ∧ coordY < 2 ^ 31)
include hx hy

/-- A short value is published in full. -/
theorem publish_eq {value : List Char} {m : ℕ} (hvalue : value.length ≤ 86)
    (hmode : (modeString m).length ≤ 7) :
    NoiseSensor.publish value m (doInterfaceActionsBeforeTick coordX)
        (doInterfaceActionsBeforeTick coordY) =
      .ok (measureText value (modeString m) (fixedTwo (doInterfaceActionsBeforeTick coordX))
        (fixedTwo (doInterfaceActionsBeforeTick coordY))) := by
  have hlt := VirtualSensor.length_measureText_lt hvalue hmode
    ((length_fixedTwo_le hx.1 hx.2).trans (by decide))
    ((length_fixedTwo_le hy.1 hy.2).trans (by decide))
  rw [NoiseSensor.publish, snprintf_of_lt hlt]
  dsimp only
  rw [if_neg (not_le.mpr hlt), List.take_length]

omit hx hy in
/-- The coordinates are printed with all their decimals. -/
theorem readsAs_coordinate (coord : ℤ) :
    ReadsAs (fixedTwo (doInterfaceActionsBeforeTick coord)) (.num (coord / 100)) := by
  have h := readsAs_fixedTwo (doInterfaceActionsBeforeTick coord)
  rwa [doInterfaceActionsBeforeTick, roundTwo_hundredths] at h

/-- A published value is parsed back. -/
theorem parse_publish {value text : List Char} {mode : ℕ} {v : Json}
    (hvalue : value.length ≤ 86) (hmode : (modeString mode).length ≤ 7)
    (hplain : Plain (modeString mode)) (hread : ReadsWithin 2 value v)
    (h : NoiseSensor.publish value mode (doInterfaceActionsBeforeTick coordX)
      (doInterfaceActionsBeforeTick coordY) = .ok text) :
    parse text = some (.obj [("noise", v), ("mode", .str (String.ofList (modeString mode))),
      ("coordX", .num (coordX / 100)), ("coordY", .num (coordY / 100))]) := by
  rw [publish_eq hx hy hvalue hmode] at h
  obtain rfl := Except.ok.inj h
  exact parse_measureText_within hread hplain (readsAs_coordinate coordX)
    (readsAs_coordinate coordY)

end Coordinates

@[simp] theorem roundTwo_coordinate (coord : ℤ) :
    roundTwo (doInterfaceActionsBeforeTick coord) = coord / 100 := roundTwo_hundredths coord

/-- The text of a message is one of the object that the window and the coordinates make. -/
theorem exists_publishNoise_eq {w : Window} (hw : w.FitsUint16) {coordX coordY : ℤ}
    (hx : -2 ^ 31 ≤ coordX ∧ coordX < 2 ^ 31) (hy : -2 ^ 31 ≤ coordY ∧ coordY < 2 ^ 31)
    (reading : ℤ) : ∃ text,
      NoiseSensor.publishNoise w (doInterfaceActionsBeforeTick coordX)
        (doInterfaceActionsBeforeTick coordY) = .ok text ∧
      parse text = some (Program.noiseSensor.publishNoise w
        ⟨reading, doInterfaceActionsBeforeTick coordX, doInterfaceActionsBeforeTick coordY⟩) := by
  have hobject : ∀ value mode, Program.noiseSensor.publish value mode
      ⟨reading, doInterfaceActionsBeforeTick coordX, doInterfaceActionsBeforeTick coordY⟩ =
      .obj [("noise", value),
        ("mode", .str (if mode = publishModeAvg then "avg"
          else if mode = publishModeRaw then "raw" else "unknown")),
        ("coordX", .num (coordX / 100)), ("coordY", .num (coordY / 100))] := by
    intro value mode
    simp only [Program.publish, Program.coordinate, roundTwo_coordinate]
  unfold NoiseSensor.publishNoise Program.publishNoise
  by_cases havg : Program.average w < avgThresholdDb
  · have hshort : (avgString w).length ≤ 86 :=
      (VirtualSensor.length_snprintf_le _).trans (by decide)
    have hmean : ReadsWithin 2 (avgString w) (.num (roundTwo (Program.average w))) := by
      rw [hw.avgString_eq]
      exact (readsAs_fixedTwo _).within 1
    have hok := publish_eq hx hy hshort (m := publishModeAvg) (by decide)
    rw [if_pos havg, if_pos havg, Program.publishAvg, hobject]
    exact ⟨_, hok, parse_publish hx hy hshort (by decide) (by decide) hmean hok⟩
  · obtain ⟨value, hraw, hlen, hread⟩ := hw.exists_rawString_eq
    have hshort : value.length ≤ 86 := hlen.trans (by decide)
    have hok := publish_eq hx hy hshort (m := publishModeRaw) (by decide)
    rw [if_neg havg, if_neg havg, Program.publishRaw, hobject, hraw]
    exact ⟨_, hok, parse_publish hx hy hshort (by decide) (by decide) hread hok⟩

/-- The messages fit their buffers, and each is parsed back to the readings or their mean, to
the branch that was taken and to the coordinates. -/
theorem publishNoise_decodes (w : Window) (hw : w.FitsUint16) (coordX coordY : ℤ)
    (hx : -2 ^ 31 ≤ coordX ∧ coordX < 2 ^ 31) (hy : -2 ^ 31 ≤ coordY ∧ coordY < 2 ^ 31) :
    (∃ value, NoiseSensor.rawString w = .ok value) ∧
    avgString w = fixedTwo ((∑ i, w.slots i : ℕ) / 6) ∧
    ∃ text, NoiseSensor.publishNoise w (doInterfaceActionsBeforeTick coordX)
        (doInterfaceActionsBeforeTick coordY) = .ok text ∧
      parse text = some (.obj
        [("noise", if ∑ i, w.slots i < 420 then .num (roundTwo ((∑ i, w.slots i : ℕ) / 6))
          else .arr (List.ofFn fun i => .num (w.slots i))),
        ("mode", .str (if ∑ i, w.slots i < 420 then "avg" else "raw")),
        ("coordX", .num (coordX / 100)),
        ("coordY", .num (coordY / 100))]) := by
  obtain ⟨value, hraw, -⟩ := hw.exists_rawString_eq
  obtain ⟨text, htext, hparse⟩ := exists_publishNoise_eq hw hx hy 0
  refine ⟨⟨value, hraw⟩, hw.avgString_eq, text, htext, hparse.trans (congrArg some ?_)⟩
  unfold Program.publishNoise
  simp only [Program.average_lt_iff]
  split_ifs with havg
  · simp only [Program.publishAvg, Program.publish, Program.coordinate, roundTwo_coordinate,
      if_pos]
    rfl
  · simp only [Program.publishRaw, Program.publish, Program.coordinate, roundTwo_coordinate,
      if_pos, if_neg (by decide : publishModeRaw ≠ publishModeAvg)]

/-- Six readings of 65535 at the smallest coordinates, and a first reading of 65 dB. -/
theorem publishNoise_decodes_extreme : (∃ text,
    NoiseSensor.publishNoise ⟨fun _ => 65535, 0⟩ (doInterfaceActionsBeforeTick (-2 ^ 31))
      (doInterfaceActionsBeforeTick (-2 ^ 31)) = .ok text ∧
    parse text = some (.obj [("noise", .arr (List.replicate 6 (.num 65535))),
      ("mode", .str "raw"), ("coordX", .num (-2147483648 / 100)),
      ("coordY", .num (-2147483648 / 100))])) ∧ ∃ text,
    NoiseSensor.publishNoise ⟨![65, 0, 0, 0, 0, 0], 1⟩ (doInterfaceActionsBeforeTick 150)
      (doInterfaceActionsBeforeTick (-275)) = .ok text ∧
    parse text = some (.obj [("noise", .num (1083 / 100)), ("mode", .str "avg"),
      ("coordX", .num (3 / 2)), ("coordY", .num (-11 / 4))]) := by
  obtain ⟨-, -, text, htext, hloud⟩ := publishNoise_decodes ⟨fun _ => 65535, 0⟩
    (fun _ => Nat.lt_succ_self 65535) (-2 ^ 31) (-2 ^ 31) (by decide) (by decide)
  obtain ⟨-, -, text', htext', hquiet⟩ := publishNoise_decodes ⟨![65, 0, 0, 0, 0, 0], 1⟩
    (show ∀ i, ![65, 0, 0, 0, 0, 0] i < 2 ^ 16 by decide) 150 (-275) (by decide) (by decide)
  have hmean : roundTwo ((65 : ℕ) / 6) = 1083 / 100 := by
    have h := roundTwo_div_six 65
    norm_num at h ⊢
    exact h
  refine ⟨⟨text, htext, hloud.trans ?_⟩, text', htext', hquiet.trans ?_⟩
  · norm_num [Fin.sum_univ_succ]
    rfl
  · rw [show ∑ i, ![65, 0, 0, 0, 0, 0] i = 65 by decide, hmean]
    norm_num

end NoiseLevel.Sensor
