import NoiseLevel.Backend.JsonText
import NoiseLevel.Core.CString
import NoiseLevel.Mpi.ConfigParser
import NoiseLevel.Mpi.NoiseSim

/-!
# Publishing the own cells

`publish_data` walks over an array of cells and hands a JSON text for every positive level
to `mosquitto_publish`, whose return codes are only reported. The buffer holds the text of
every cell, and the texts are parsed back to the cells.
-/

namespace NoiseLevel.Mpi

open NoiseLevel.Core NoiseLevel.Backend

/-- `PUBLISH_BUFFER_SIZE`. -/
def publishBufferSize : ℕ := 512

/-- The arguments of `mosquitto_publish`. -/
structure PublishCall where
  topic : ConfStr
  payload : List Char
  qos : ℕ
  retain : Bool

/-- The calls that `publish_data` has made, oldest first, the return codes that it has
reported as errors, and `pub_count`. -/
structure Publishing where
  calls : List PublishCall
  errors : List ℤ
  pubCount : ℕ

/-- The text of one cell. -/
def publishText (d : NoiseData) : List Char :=
  measureText (intText d.noiseLevel) "avg".toList (intText d.x) (intText d.y)

section Loop

variable (mqttConf : MqttConfig) (mosquittoPublish : List PublishCall → ℤ)

/-- One call of `mosquitto_publish`, whose return code may depend on all calls so far. -/
def Publishing.call (p : Publishing) (payload : List Char) : Publishing :=
  let calls := p.calls ++ [⟨mqttConf.topic, payload, 1, false⟩]
  let rc := mosquittoPublish calls
  { calls
    errors := if rc ≠ 0 then p.errors ++ [rc] else p.errors
    pubCount := p.pubCount + 1 }

/-- The loop of `publish_data` over the remaining cells, and the value that it returns when
it leaves early. -/
def publishLoop : List NoiseData → Publishing → Publishing × Option ℤ
  | [], p => (p, none)
  | d :: noises, p =>
    if d.noiseLevel ≤ 0 then publishLoop noises p
    else
      let (len, pubBuffer) := snprintf publishBufferSize (publishText d)
      if publishBufferSize ≤ len then (p, some 1)
      else publishLoop noises (p.call mqttConf mosquittoPublish (pubBuffer.take len))

/-- `publish_data`. -/
def publishData (noises : List NoiseData) : Publishing × Option ℤ :=
  publishLoop mqttConf mosquittoPublish noises ⟨[], [], 0⟩

end Loop

/-- All members fit an `int`. -/
structure NoiseData.Fits (d : NoiseData) : Prop where
  noiseLevel : -2 ^ 31 ≤ d.noiseLevel ∧ d.noiseLevel < 2 ^ 31
  x : -2 ^ 31 ≤ d.x ∧ d.x < 2 ^ 31
  y : -2 ^ 31 ≤ d.y ∧ d.y < 2 ^ 31

/-- The cells that are published. -/
def positive (noises : List NoiseData) : List NoiseData :=
  noises.filter fun d => 0 < d.noiseLevel

/-- The value that the text of a cell stands for. -/
def measure (d : NoiseData) : Json :=
  .obj [("noise", .num d.noiseLevel), ("mode", .str "avg"), ("coordX", .num d.x),
    ("coordY", .num d.y)]

/-- The text of a cell is parsed back to the cell. -/
theorem parse_publishText (d : NoiseData) : parse (publishText d) = some (measure d) :=
  parse_measureText (readsAs_intText _) (by decide) (readsAs_intText _) (readsAs_intText _)

/-- The text of a cell fits the buffer. -/
theorem length_publishText {d : NoiseData} (h : d.Fits) :
    (publishText d).length < publishBufferSize := by
  have hnoise := length_intText_le h.noiseLevel.1 h.noiseLevel.2
  have hx := length_intText_le h.x.1 h.x.2
  have hy := length_intText_le h.y.1 h.y.2
  rw [publishText, length_measureText, publishBufferSize]
  simp only [String.length_toList]
  have havg : "avg".length = 3 := rfl
  omega

section Published

variable (mqttConf : MqttConfig) (mosquittoPublish : List PublishCall → ℤ)

/-- A positive cell is handed over whole. -/
theorem publishLoop_cons_pos {d : NoiseData} (hd : d.Fits) (hpos : 0 < d.noiseLevel)
    (noises : List NoiseData) (p : Publishing) :
    publishLoop mqttConf mosquittoPublish (d :: noises) p =
      publishLoop mqttConf mosquittoPublish noises
        (p.call mqttConf mosquittoPublish (publishText d)) := by
  have hfits := length_publishText hd
  rw [publishLoop, if_neg (not_le.mpr hpos), snprintf_of_lt hfits]
  dsimp only
  rw [if_neg (not_le.mpr hfits), List.take_length]

/-- The calls for some cells. -/
def publishCalls (noises : List NoiseData) : List PublishCall :=
  (positive noises).map fun d => ⟨mqttConf.topic, publishText d, 1, false⟩

/-- The loop calls for the positive cells, in order, and runs to its end. -/
theorem publishLoop_eq {noises : List NoiseData} (h : ∀ d ∈ noises, d.Fits) (p : Publishing) :
    (publishLoop mqttConf mosquittoPublish noises p).1.calls =
        p.calls ++ publishCalls mqttConf noises ∧
      (publishLoop mqttConf mosquittoPublish noises p).1.pubCount =
        p.pubCount + (positive noises).length ∧
      (publishLoop mqttConf mosquittoPublish noises p).2 = none := by
  induction noises generalizing p with
  | nil => simp [publishLoop, publishCalls, positive]
  | cons d noises ih =>
    have hrest := ih fun d hd => h d (List.mem_cons_of_mem _ hd)
    by_cases hpos : 0 < d.noiseLevel
    · have hfilter : positive (d :: noises) = d :: positive noises :=
        List.filter_cons_of_pos (by simpa using hpos)
      obtain ⟨hcalls, hcount, hend⟩ := hrest (p.call mqttConf mosquittoPublish (publishText d))
      rw [publishLoop_cons_pos mqttConf mosquittoPublish (h d List.mem_cons_self) hpos,
        publishCalls, hfilter]
      refine ⟨?_, ?_, hend⟩
      · rw [hcalls, Publishing.call, List.append_assoc]
        rfl
      · rw [hcount, List.length_cons]
        simp only [Publishing.call]
        omega
    · have hfilter : positive (d :: noises) = positive noises :=
        List.filter_cons_of_neg (by simpa using hpos)
      rw [publishLoop, if_pos (not_lt.mp hpos), publishCalls, hfilter]
      exact hrest p

/-- The payloads that `publish_data` hands over. -/
def payloads (noises : List NoiseData) : List (List Char) :=
  (publishData mqttConf mosquittoPublish noises).1.calls.map PublishCall.payload

/-- Every positive cell is published once, in order, with its own fields. -/
structure PublishedOnce (noises : List NoiseData) : Prop where
  payloads_eq : payloads mqttConf mosquittoPublish noises = (positive noises).map publishText
  parsed : (payloads mqttConf mosquittoPublish noises).map parse =
    (positive noises).map fun d => some (measure d)
  /-- The function does not leave early. -/
  finishes : (publishData mqttConf mosquittoPublish noises).2 = none
  counted : (publishData mqttConf mosquittoPublish noises).1.pubCount = (positive noises).length

theorem publishedOnce {noises : List NoiseData} (h : ∀ d ∈ noises, d.Fits) :
    PublishedOnce mqttConf mosquittoPublish noises := by
  obtain ⟨hcalls, hcount, hend⟩ := publishLoop_eq mqttConf mosquittoPublish h ⟨[], [], 0⟩
  have hpayloads : payloads mqttConf mosquittoPublish noises =
      (positive noises).map publishText := by
    rw [payloads, publishData, hcalls, List.nil_append, publishCalls, List.map_map]
    rfl
  refine ⟨hpayloads, ?_, hend, ?_⟩
  · rw [hpayloads, List.map_map]
    apply List.map_congr_left
    intro d _
    rw [Function.comp_apply, parse_publishText]
  · rw [publishData, hcount, Nat.zero_add]

end Published

end NoiseLevel.Mpi
