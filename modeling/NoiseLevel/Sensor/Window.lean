import NoiseLevel.Backend.Schema
import NoiseLevel.Core.Decimal
import NoiseLevel.Core.RingWindow

/-!
# The sensors' window and messages

`noise_processing` of both sensor programs: a reading enters the window of
`noise_values` as a 16-bit value, the window is published as its average or as the
raw array, and the position moves on. Rationals stand for doubles.
-/

namespace NoiseLevel.Sensor

open NoiseLevel.Core Backend

/-- `MAX_WINDOW_SIZE`. -/
abbrev maxWindowSize : ℕ := 6

/-- `AVG_THRESHOLD_DB`. -/
def avgThresholdDb : ℚ := 70

/-- `PUBLISH_MODE_RAW`. -/
def publishModeRaw : ℕ := 0

/-- `PUBLISH_MODE_AVG`. -/
def publishModeAvg : ℕ := 1

/-- `noise_values` and `position`. -/
abbrev Window := RingWindow ℕ maxWindowSize

/-- `init_noise_values`. -/
def initNoiseValues : Window := RingWindow.blank maxWindowSize 0

/-- The conversion of an `int` to `uint16_t`. -/
def toUint16 (n : ℤ) : ℕ := (n % 2 ^ 16).toNat

/-- The two sensor programs. -/
inductive Program where
  | noiseSensor
  | noiseSimulatedSensor
deriving DecidableEq

/-- What one call of `noise_processing` reads: the signal strength of the radio and the
position of the mote, or the three tokens of a row of the dataset. -/
structure Sample where
  /-- `radio_signal_strength_current()`, or the first token of the row. -/
  reading : ℤ
  /-- `X`, or the second token. -/
  x : ℚ
  /-- `Y`, or the third token. -/
  y : ℚ
deriving DecidableEq

namespace Program

/-- The value assigned to the current slot. -/
def noiseLevel : Program → Sample → ℤ
  | noiseSensor, s => s.reading + 110
  | noiseSimulatedSensor, s => s.reading

/-- A coordinate as `publish` prints it: the tokens of the dataset are copied. -/
def coordinate : Program → ℚ → ℚ
  | noiseSensor, q => roundTwo q
  | noiseSimulatedSensor, q => q

variable (p : Program)

/-- The object whose text `publish` writes. -/
def publish (value : Json) (mode : ℕ) (s : Sample) : Json :=
  .obj [("noise", value),
    ("mode", .str (if mode = publishModeAvg then "avg"
      else if mode = publishModeRaw then "raw" else "unknown")),
    ("coordX", .num (p.coordinate s.x)),
    ("coordY", .num (p.coordinate s.y))]

/-- `publish_avg`. -/
def publishAvg (avg : ℚ) (s : Sample) : Json :=
  p.publish (.num (roundTwo avg)) publishModeAvg s

/-- `publish_raw`. -/
def publishRaw (w : Window) (s : Sample) : Json :=
  p.publish (.arr (List.ofFn fun i => .num (w.slots i))) publishModeRaw s

/-- The average that `publish_noise` computes. -/
def average (w : Window) : ℚ := (∑ i, w.slots i : ℕ) / maxWindowSize

/-- `publish_noise`. -/
def publishNoise (w : Window) (s : Sample) : Json :=
  if average w < avgThresholdDb then p.publishAvg (average w) s else p.publishRaw w s

/-- `noise_processing`: store, publish, move on. -/
def noiseProcessing (w : Window) (s : Sample) : Window × Json :=
  ((w.store (toUint16 (p.noiseLevel s))).advance,
    p.publishNoise (w.store (toUint16 (p.noiseLevel s))) s)

/-- The messages of successive calls of `noise_processing`. -/
def messages : Window → List Sample → List Json
  | _, [] => []
  | w, s :: rest => (p.noiseProcessing w s).2 :: messages (p.noiseProcessing w s).1 rest

theorem noiseProcessing_fst (w : Window) (s : Sample) :
    (p.noiseProcessing w s).1 = w.push (toUint16 (p.noiseLevel s)) := rfl

/-- What is published depends on the slots alone. -/
theorem publishNoise_congr {w v : Window} (h : w.slots = v.slots) (s : Sample) :
    p.publishNoise w s = p.publishNoise v s := by
  obtain ⟨slots, i⟩ := w
  obtain ⟨slots', j⟩ := v
  cases h
  rfl

/-- Every message publishes the window as its own reading left it. -/
theorem getElem?_messages (w : Window) (samples : List Sample) (i : ℕ) :
    (p.messages w samples)[i]? = samples[i]?.map (p.publishNoise
      (w.pushes ((samples.take (i + 1)).map fun s => toUint16 (p.noiseLevel s)))) := by
  induction samples generalizing w i with
  | nil => rfl
  | cons s rest ih =>
    cases i with
    | zero => exact congrArg some (p.publishNoise_congr rfl s)
    | succ i => exact ih _ i

end Program

end NoiseLevel.Sensor
