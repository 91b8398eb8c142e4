import NoiseLevel.Backend.Flow
import NoiseLevel.Core.CString
import NoiseLevel.Sensor.App

/-!
# The region of a mote

The simulator takes the number of the region from the title of the simulation, the sensor
prints it behind the word of its topic, and the flow reads it off the end of the topic.
-/

namespace NoiseLevel.Sensor

open NoiseLevel.Core Backend

/-- The region of a simulation whose title names none. -/
def defaultRegionId : ℤ := 99

/-- `simTitle.replaceAll("[^0-9]", "")`. -/
def titleDigits (simTitle : String) : List Char := simTitle.toList.filter Char.isDigit

/-- `Integer.parseInt` of a text of digits, which throws for an empty text and for a number
that is no `int`. -/
def parseInt (digits : List Char) : Option ℤ :=
  if digits = [] ∨ 2 ^ 31 - 1 < digitsValue digits then none else some (digitsValue digits)

/-- `getRegionId`. -/
def getRegionId (simTitle : String) : ℤ := (parseInt (titleDigits simTitle)).getD defaultRegionId

/-- `MQTT_PUBLISH_TOPIC`. -/
def mqttPublishTopic : List Char := "noise/region".toList

/-- `construct_pub_topic`: its return value and what it leaves in `pub_topic`. -/
def constructPubTopic (regionId : ℤ) : ℤ × List Char :=
  let (len, pubTopic) := snprintf bufferSize.toNat (mqttPublishTopic ++ intText regionId)
  (if (len : ℤ) < 0 ∨ bufferSize ≤ len then 0 else 1, pubTopic)

/-- A region is a number that an `int` holds. -/
theorem exists_getRegionId_eq (simTitle : String) :
    ∃ n : ℕ, getRegionId simTitle = n ∧ n < 2 ^ 31 := by
  unfold getRegionId parseInt
  split_ifs with h
  · exact ⟨99, rfl, by decide⟩
  · refine ⟨digitsValue (titleDigits simTitle), rfl, ?_⟩
    have := not_lt.mp (not_or.mp h).2
    omega

/-- The topic of a region that is an `int` is not truncated. -/
theorem constructPubTopic_eq (regionId : ℤ) (hlo : -2 ^ 31 ≤ regionId) (hhi : regionId < 2 ^ 31) :
    constructPubTopic regionId = (1, mqttPublishTopic ++ intText regionId) := by
  have hlen := length_intText_le hlo hhi
  have hword : mqttPublishTopic.length = 12 := by decide
  have hlt : (mqttPublishTopic ++ intText regionId).length < bufferSize.toNat := by
    have hsize : bufferSize.toNat = 64 := rfl
    rw [List.length_append]
    omega
  rw [constructPubTopic, snprintf_of_lt hlt]
  have hfits : ¬(((mqttPublishTopic ++ intText regionId).length : ℤ) < 0 ∨
      bufferSize ≤ ((mqttPublishTopic ++ intText regionId).length : ℕ)) := by
    have hsize : (bufferSize.toNat : ℤ) = bufferSize := rfl
    omega
  dsimp only
  rw [if_neg hfits]

theorem intText_natCast (n : ℕ) : intText n = natText n := by
  rw [intText, if_neg (by omega), Int.natAbs_natCast]

/-- The flow reads the printed number back. -/
theorem region_setRegion (n : ℕ) (payload : Json) :
    (setRegion (.received (String.ofList (mqttPublishTopic ++ natText n)) payload)).region =
      some (.num n) := by
  have hdigits : regionDigits (String.ofList (mqttPublishTopic ++ natText n)) =
      some (natText n) := by
    rw [regionDigits_eq_some_iff, String.toList_ofList]
    exact ⟨[], rfl, natText_ne_nil n, fun _ => isDigit_of_mem_natText⟩
  rw [setRegion, Msg.received]
  dsimp only
  rw [Option.bind_some, hdigits, Option.map_some, digitsValue_natText]

/-- What `getRegionId` returns: the number whose decimal text the digits of the title are, behind
any zeros, if it is an `int`, and the default otherwise. -/
theorem getRegionId_eq (simTitle : String) :
    titleDigits simTitle = [] ∧ getRegionId simTitle = 99 ∨
      ∃ zeros n, titleDigits simTitle = List.replicate zeros '0' ++ natText n ∧
        getRegionId simTitle = if n < 2 ^ 31 then (n : ℤ) else 99 := by
  by_cases hnil : titleDigits simTitle = []
  · refine Or.inl ⟨hnil, ?_⟩
    rw [getRegionId, parseInt, if_pos (Or.inl hnil)]
    rfl
  · have hdigits : ∀ c ∈ titleDigits simTitle, c.isDigit = true := fun c hc =>
      (List.mem_filter.mp hc).2
    obtain ⟨zeros, n, heq, hvalue⟩ := eq_zeros_append_natText hdigits hnil
    refine Or.inr ⟨zeros, n, heq, ?_⟩
    rw [getRegionId, parseInt, hvalue]
    by_cases hn : n < 2 ^ 31
    · rw [if_pos hn, if_neg (not_or.mpr ⟨hnil, by omega⟩)]
      rfl
    · rw [if_neg hn, if_pos (Or.inr (by omega))]
      rfl

/-- The region of the title is the region of every measure: its digits are read as a number, the
topic is built without truncation, and the flow takes the same number from it and does not discard
the message. -/
theorem region_roundTrip (simTitle : String) (payload : Json) :
    (titleDigits simTitle = [] ∧ getRegionId simTitle = 99 ∨
      ∃ zeros n, titleDigits simTitle = List.replicate zeros '0' ++ natText n ∧
        getRegionId simTitle = if n < 2 ^ 31 then (n : ℤ) else 99) ∧
    (constructPubTopic (getRegionId simTitle)).1 = 1 ∧
    (constructPubTopic (getRegionId simTitle)).2 =
      mqttPublishTopic ++ intText (getRegionId simTitle) ∧
    (setRegion (.received (String.ofList (constructPubTopic (getRegionId simTitle)).2)
      payload)).region = some (.num (getRegionId simTitle)) ∧
    (checkRegion (setRegion (.received
      (String.ofList (constructPubTopic (getRegionId simTitle)).2) payload))).isOk := by
  obtain ⟨n, hn, hlt⟩ := exists_getRegionId_eq simTitle
  have htopic := constructPubTopic_eq (getRegionId simTitle) (by omega) (by omega)
  have hregion := region_setRegion n payload
  refine ⟨getRegionId_eq simTitle, ?_⟩
  rw [htopic, hn, intText_natCast]
  refine ⟨rfl, rfl, ?_, ?_⟩
  · rw [hregion, Int.cast_natCast]
  · rw [checkRegion, hregion]
    rfl

/-- Digits anywhere in the title count, and leading zeros do not. -/
example : getRegionId "Region 07, run 2" = 72 := by decide

end NoiseLevel.Sensor
