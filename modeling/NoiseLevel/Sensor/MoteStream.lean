import NoiseLevel.Mqtt.BrokerStream
import NoiseLevel.Sensor.StoredReadings

/-!
# A mote on its connection

The packets of a mote with a microphone: a CONNECT and then its texts, numbered as
`mqtt_publish` numbers them, and its pings. All of them are read back, so that a broker
hands the flow what the mote published, however its segments fare.
-/

namespace NoiseLevel.Sensor

open NoiseLevel.Core Backend Mqtt

/-- `MAX_TCP_SEGMENT_SIZE`. -/
def maxTcpSegmentSize : ℕ := 32

/-- `DEFAULT_KEEP_ALIVE_INTERVAL`. -/
def defaultKeepAliveInterval : UInt16 := 180

/-- `DEFAULT_ORG_ID`. -/
def defaultOrgId : List Char := "mqtt-util".toList

/-- `DEFAULT_TYPE_ID`. -/
def defaultTypeId : List Char := "native".toList

/-- A byte printed with `%02x`. -/
def hexByte (b : UInt8) : List Char := [(b.toNat / 16).digitChar, (b.toNat % 16).digitChar]

/-- `construct_client_id` for an address of the link layer: its return value and what it leaves
in `client_id`. -/
def constructClientId (addr : Fin 8 → UInt8) : ℤ × List Char :=
  let (len, clientId) := snprintf bufferSize.toNat ("d:".toList ++ defaultOrgId ++ ":".toList ++
    defaultTypeId ++ ":".toList ++ [0, 1, 2, 5, 6, 7].flatMap fun i => hexByte (addr i))
  (if (len : ℤ) < 0 ∨ bufferSize ≤ len then 0 else 1, clientId)

/-- The identifier of a client fits its buffer and has 31 characters. -/
theorem length_clientId (addr : Fin 8 → UInt8) :
    (constructClientId addr).1 = 1 ∧ (constructClientId addr).2.length = 31 := ⟨rfl, rfl⟩

/-- What the state machine gives to `mqtt_register`, `mqtt_set_username_password` and
`mqtt_connect`. -/
def settings (clientId : List Char) : ConnectSettings :=
  ((ConnectSettings.register (charBytes clientId)).setUsernamePassword
    (some (charBytes "use-token-auth".toList)) (some (charBytes "AUTHZ".toList))).connect
    defaultKeepAliveInterval

/-- What a mote has its engine send once it is connected. -/
inductive Order where
  | publish (text : List Char)
  | pingreq
  | disconnect
deriving DecidableEq

/-- The text of a publish. -/
def Order.text : Order → Option (List Char)
  | publish text => some text
  | _ => none

/-- The packets of a mote, told the `mid_counter`. -/
def packets (topic : List Char) : UInt16 → List Order → List Outgoing
  | _, [] => []
  | mid, .publish text :: rest =>
    .publish ⟨mid + 2, charBytes topic, charBytes text, .level1, false⟩ ::
      packets topic (mid + 2) rest
  | mid, .pingreq :: rest => .pingreq :: packets topic mid rest
  | mid, .disconnect :: rest => .disconnect :: packets topic mid rest

/-- All packets of a connection. -/
def session (clientId topic : List Char) (orders : List Order) : List Outgoing :=
  .connect (settings clientId) :: packets topic 1 orders

/-- What a broker reads of a text that so many came before: the identifier is never 0, and it
comes again after 128 texts. -/
def publishAt (topic text : List Char) (k : ℕ) : ControlPacket :=
  .publish false 1 (charBytes topic) (some ((2 * k + 3) % 256)) (charBytes text)

/-- What a broker reads after the CONNECT. -/
def readings (topic : List Char) : ℕ → List Order → List ControlPacket
  | _, [] => []
  | k, .publish text :: rest => publishAt topic text k :: readings topic (k + 1) rest
  | k, .pingreq :: rest => .pingreq :: readings topic k rest
  | k, .disconnect :: rest => .disconnect :: readings topic k rest

/-- The numbers on the wire are those of the texts. -/
theorem map_onWire_packets (topic : List Char) (k : ℕ) (orders : List Order) :
    (packets topic (UInt16.ofNat (2 * k + 1)) orders).map (fun o => o.onWire.meaning) =
      readings topic k orders := by
  induction orders generalizing k with
  | nil => rfl
  | cons order orders ih =>
    cases order with
    | publish text =>
      have hnext : UInt16.ofNat (2 * k + 1) + 2 = UInt16.ofNat (2 * (k + 1) + 1) := by
        rw [Nat.mul_succ, Nat.add_right_comm]
        exact (UInt16.ofNat_add _ 2).symm
      have hmid : (UInt16.ofNat (2 * (k + 1) + 1) % 256).toNat = (2 * k + 3) % 256 := by
        rw [UInt16.toNat_mod, UInt16.toNat_ofNat']
        change (2 * (k + 1) + 1) % 2 ^ 16 % 256 = _
        omega
      rw [packets, hnext, List.map_cons, ih, readings, publishAt, Outgoing.onWire,
        Outgoing.meaning, hmid]
      rfl
    | pingreq => exact congrArg _ (ih k)
    | disconnect => exact congrArg _ (ih k)

theorem toNat_length_ofString {data : List UInt8} (hlt : data.length < 2 ^ 16) :
    (MqttString.ofString (some data)).length.toNat = data.length := by
  rw [MqttString.ofString, toNat_size16, Nat.mod_eq_of_lt hlt]

/-- A string that is not empty is counted with its length. -/
theorem stringLength_ofString {data : List UInt8} (hne : data ≠ []) (hlt : data.length < 2 ^ 16) :
    (MqttString.ofString (some data)).stringLength = 2 + data.length := by
  have hlength := toNat_length_ofString hlt
  rw [MqttString.stringLength, if_neg, hlength]
  intro hzero
  rw [hzero] at hlength
  exact hne (List.length_eq_zero_iff.mp hlength.symm)

/-- The strings of the CONNECT of a mote. -/
theorem strings_settings (clientId : List Char) : (settings clientId).strings =
    [some (.ofString (charBytes clientId)), none, none,
      some (.ofString (charBytes "use-token-auth".toList)),
      some (.ofString (charBytes "AUTHZ".toList))] := by
  have hflags : (settings clientId).connectVhdrFlags = 0xC2 := by
    change (settings []).connectVhdrFlags = 0xC2
    decide
  have hwill : (settings clientId).Has .will = false := by
    rw [ConnectSettings.Has, hflags]
    decide
  have husername : (settings clientId).Has .username = true := by
    rw [ConnectSettings.Has, hflags]
    decide
  have hpassword : (settings clientId).Has .password = true := by
    rw [ConnectSettings.Has, hflags]
    decide
  rw [ConnectSettings.strings, hwill, husername, hpassword]
  rfl

/-- What the strings of the CONNECT of a mote take. -/
theorem bodyLength_settings {clientId : List Char} (hlt : clientId.length < 256) :
    (settings clientId).bodyLength = 37 + clientId.length := by
  have hlength := @toNat_length_ofString (charBytes clientId) (by rw [length_charBytes]; omega)
  rw [ConnectSettings.bodyLength, strings_settings]
  simp only [List.map_cons, List.map_nil, List.sum_cons, List.sum_nil, Option.map_some,
    Option.map_none, Option.getD_some, Option.getD_none, hlength, length_charBytes]
  change 12 + (2 + clientId.length + (0 + (0 + (2 + 14 + (2 + 5 + 0))))) = _
  omega

/-- The CONNECT of a mote is read back. -/
theorem representable_settings {clientId : List Char} (hne : clientId ≠ [])
    (hlt : clientId.length < 256) : (Outgoing.connect (settings clientId)).Representable := by
  have hcount := @stringLength_ofString (charBytes clientId)
    (mt List.map_eq_nil_iff.mp hne) (by rw [length_charBytes]; omega)
  constructor
  · rw [bodyLength_settings hlt, ConnectSettings.remainingLength]
    change 12 + (MqttString.ofString (some (charBytes clientId))).stringLength +
      (MqttString.ofString (some (charBytes "use-token-auth".toList))).stringLength +
      (MqttString.ofString (some (charBytes "AUTHZ".toList))).stringLength + 0 + 0 = _
    rw [hcount, length_charBytes]
    change 12 + (2 + clientId.length) + 16 + 7 + 0 + 0 = _
    omega
  · rw [strings_settings]
    intro t ht
    simp only [List.mem_cons, Option.some.injEq, reduceCtorEq, false_or, List.not_mem_nil,
      or_false] at ht
    rcases ht with rfl | rfl | rfl
    · exact (length_charBytes clientId).trans_lt hlt
    · decide
    · decide

/-- Every packet of a mote is read back up to the upper byte of its number. -/
theorem representable_packets {topic : List Char} (htopic : topic.length < 2 ^ 16) (mid : UInt16)
    {orders : List Order} (h : ∀ text, Order.publish text ∈ orders → text.length < 2 ^ 16) :
    ∀ o ∈ packets topic mid orders, o.onWire.Representable := by
  induction orders generalizing mid with
  | nil => exact nofun
  | cons order orders ih =>
    have hrest := fun mid => ih mid fun text ht => h text (List.mem_cons_of_mem _ ht)
    cases order with
    | publish text =>
      rw [packets, List.forall_mem_cons]
      refine ⟨⟨?_, ?_, Or.inr ?_⟩, hrest _⟩
      · rwa [length_charBytes]
      · rw [length_charBytes]
        exact h text List.mem_cons_self
      · rw [UInt16.lt_iff_toNat_lt, UInt16.toNat_mod]
        exact Nat.mod_lt _ (by decide)
    | pingreq | disconnect =>
      rw [packets, List.forall_mem_cons]
      exact ⟨trivial, hrest mid⟩

/-- Every packet of a mote fits into the buffer of the writer. -/
theorem length_packets_le {topic : List Char} (htopic : topic.length ≤ 23) (mid : UInt16)
    {orders : List Order} (h : ∀ text, Order.publish text ∈ orders → text.length ≤ 200) :
    ∀ o ∈ packets topic mid orders, o.bytes.length ≤ outputBuffSize := by
  have hsize : outputBuffSize = 512 := rfl
  induction orders generalizing mid with
  | nil => exact nofun
  | cons order orders ih =>
    have hrest := fun mid => ih mid fun text ht => h text (List.mem_cons_of_mem _ ht)
    cases order with
    | publish text =>
      rw [packets, List.forall_mem_cons]
      refine ⟨(OutPacket.length_publish_le _).trans ?_, hrest _⟩
      have htext := h text List.mem_cons_self
      rw [length_charBytes, length_charBytes]
      omega
    | pingreq | disconnect =>
      rw [packets, List.forall_mem_cons]
      exact ⟨by decide, hrest mid⟩

section Texts

theorem ascii_natText (n : ℕ) : Ascii (natText n) :=
  Ascii.of_isDigit fun _ => isDigit_of_mem_natText

theorem ascii_fixedTwo (q : ℚ) : Ascii (fixedTwo q) := by
  have htext (h : ℕ) : Ascii (hundredthsText h) := by
    have hfraction : Ascii [(h / 10 % 10).digitChar, (h % 10).digitChar] := by
      refine Ascii.of_isDigit fun c hc => ?_
      rcases List.mem_pair.mp hc with rfl | rfl <;>
        exact isDigit_digitChar (Nat.mod_lt _ (by decide))
    exact (ascii_natText _).append (Ascii.append (s := ['.']) (by decide) hfraction)
  unfold fixedTwo
  dsimp only
  split_ifs
  · exact Ascii.append (s := ['-']) (by decide) (htext _)
  · exact htext _

theorem ascii_measureText {noise mode x y : List Char} (hnoise : Ascii noise) (hmode : Ascii mode)
    (hx : Ascii x) (hy : Ascii y) : Ascii (measureText noise mode x y) := by
  unfold measureText
  exact ((((((((Ascii.append (by decide) hnoise).append (by decide)).append hmode).append
    (by decide)).append hx).append (by decide)).append hy).append (by decide))

theorem ascii_modeString (mode : ℕ) : Ascii (modeString mode) := by
  unfold modeString
  split_ifs <;> decide

/-- What `strcat` builds has the pieces it was built from. -/
theorem ascii_foldlM_strcat {size : ℕ} {pieces : List (List Char)} {dest text : List Char}
    (hdest : Ascii dest) (hpieces : ∀ p ∈ pieces, Ascii p)
    (h : pieces.foldlM (strcat size) dest = some text) : Ascii text := by
  induction pieces generalizing dest with
  | nil => exact Option.some.inj h ▸ hdest
  | cons piece pieces ih =>
    obtain ⟨hpiece, hrest⟩ := List.forall_mem_cons.mp hpieces
    rw [List.foldlM_cons] at h
    obtain ⟨mid, hmid, h⟩ := Option.bind_eq_some_iff.mp h
    rw [strcat] at hmid
    split_ifs at hmid
    exact ih (Option.some.inj hmid ▸ hdest.append hpiece) hrest h

theorem ascii_rawString {w : Window} {value : List Char}
    (h : NoiseSensor.rawString w = .ok value) : Ascii value := by
  unfold NoiseSensor.rawString at h
  split at h
  next text hfold =>
    have htext : Ascii text := by
      refine ascii_foldlM_strcat (by decide) ?_ hfold
      intro p hp
      obtain ⟨v, -, rfl⟩ := List.mem_map.mp hp
      exact ((ascii_natText v).append (by decide)).subset (List.take_subset _ _)
    obtain rfl := Except.ok.inj h
    intro c hc
    rcases List.mem_or_eq_of_mem_set hc with hc | rfl
    · exact htext c hc
    · decide
  next => exact absurd h (by simp)

theorem publish_ok {value text : List Char} {mode : ℕ} {x y : ℚ} (hvalue : Ascii value)
    (h : NoiseSensor.publish value mode x y = .ok text) :
    Ascii text ∧ text.length ≤ (measureText value (modeString mode) (fixedTwo x)
      (fixedTwo y)).length := by
  unfold NoiseSensor.publish snprintf at h
  dsimp only at h
  split_ifs at h with hlen
  obtain rfl := Except.ok.inj h
  have hascii := ascii_measureText hvalue (ascii_modeString mode) (ascii_fixedTwo x)
    (ascii_fixedTwo y)
  constructor
  · exact hascii.subset fun c hc => List.mem_of_mem_take (List.mem_of_mem_take hc)
  · exact List.length_take_le _ _

/-- A text that is handed to `mqtt_publish` is ASCII and leaves room in its packet. -/
theorem publishNoise_ok {w : Window} (hw : w.FitsUint16) {m : Measurement} (hm : m.Fits)
    {text : List Char} (h : NoiseSensor.publishNoise w m.sample.x m.sample.y = .ok text) :
    Ascii text ∧ text.length ≤ 200 := by
  have hshort {value : List Char} {mode : ℕ} (hvalue : value.length ≤ 86)
      (hmode : (modeString mode).length ≤ 7) : (measureText value (modeString mode)
        (fixedTwo m.sample.x) (fixedTwo m.sample.y)).length ≤ 200 := by
    have hx : (fixedTwo m.sample.x).length ≤ 12 := length_fixedTwo_le hm.coordX.1 hm.coordX.2
    have hy : (fixedTwo m.sample.y).length ≤ 12 := length_fixedTwo_le hm.coordY.1 hm.coordY.2
    rw [length_measureText]
    omega
  unfold NoiseSensor.publishNoise at h
  split_ifs at h
  · obtain ⟨hascii, hle⟩ := publish_ok ((ascii_fixedTwo _).subset (List.take_subset _ _)) h
    have hvalue : (avgString w).length ≤ 86 :=
      (VirtualSensor.length_snprintf_le _).trans (by decide)
    exact ⟨hascii, hle.trans (hshort hvalue (by decide))⟩
  · obtain ⟨value, hraw, hlen, -⟩ := hw.exists_rawString_eq
    rw [hraw] at h
    obtain ⟨hascii, hle⟩ := publish_ok (ascii_rawString hraw) h
    exact ⟨hascii, hle.trans (hshort (hlen.trans (by decide)) (by decide))⟩

theorem texts_ok {w : Window} (hw : w.FitsUint16) {ms : List Measurement} (hms : ∀ m ∈ ms, m.Fits)
    {text : List Char} (h : .ok text ∈ NoiseSensor.texts w ms) :
    Ascii text ∧ text.length ≤ 200 := by
  induction ms generalizing w with
  | nil => exact absurd h (by simp [NoiseSensor.texts])
  | cons m ms ih =>
    obtain ⟨hm, hrest⟩ := List.forall_mem_cons.mp hms
    have hstore := hw.store (Program.noiseSensor.noiseLevel m.sample)
    rw [NoiseSensor.texts, List.mem_cons] at h
    rcases h with hhead | htail
    · exact publishNoise_ok hstore hm hhead.symm
    · refine ih ?_ hrest htail
      exact hstore

end Texts

section Arrival

/-- What a broker hands to the flow for a packet. -/
def brokerMessage : ControlPacket → Option (String × Json)
  | .publish _ _ topic _ payload =>
    (parse (byteChars payload)).map fun json => (String.ofList (byteChars topic), json)
  | _ => none

theorem brokerMessage_publishAt {topic text : List Char} (htopic : Ascii topic)
    (htext : Ascii text) (k : ℕ) : brokerMessage (publishAt topic text k) =
      NoiseSensor.message (String.ofList topic) (.ok text) := by
  rw [publishAt, brokerMessage, byteChars_charBytes htopic, byteChars_charBytes htext]
  rfl

/-- The flow receives the texts of a mote in their order. -/
theorem filterMap_readings {topic : List Char} (htopic : Ascii topic) (k : ℕ)
    {orders : List Order} (h : ∀ text ∈ orders.filterMap Order.text, Ascii text) :
    (readings topic k orders).filterMap brokerMessage =
      ((orders.filterMap Order.text).map Except.ok).filterMap
        (NoiseSensor.message (String.ofList topic)) := by
  induction orders generalizing k with
  | nil => rfl
  | cons order orders ih =>
    cases order with
    | publish text =>
      rw [List.filterMap_cons_some (f := Order.text) rfl, List.forall_mem_cons] at h
      rw [readings, List.filterMap_cons, brokerMessage_publishAt htopic h.1, ih _ h.2,
        List.filterMap_cons_some (f := Order.text) rfl, List.map_cons, List.filterMap_cons]
    | pingreq | disconnect => exact ih k h

/-- A first part of what is made of a list is made of a first part of the list. -/
theorem exists_prefix_filterMap {α β : Type*} {F : α → Option β} {l : List α} {p : List β}
    (h : p <+: l.filterMap F) : ∃ q, q <+: l ∧ q.filterMap F = p := by
  obtain ⟨t, ht⟩ := h
  obtain ⟨q, r, hl, hq, -⟩ := List.filterMap_eq_append_iff.mp ht.symm
  exact ⟨q, ⟨r, hl.symm⟩, hq⟩

/-- The flow receives the texts of a session. -/
theorem filterMap_session {topic : List Char} (htopic : Ascii topic) (clientId : List Char)
    {orders : List Order} (h : ∀ text ∈ orders.filterMap Order.text, Ascii text) :
    ((session clientId topic orders).map fun o => o.onWire.meaning).filterMap brokerMessage =
      ((orders.filterMap Order.text).map Except.ok).filterMap
        (NoiseSensor.message (String.ofList topic)) := by
  rw [session, List.map_cons, List.filterMap_cons_none rfl, ← filterMap_readings htopic 0 h,
    ← map_onWire_packets]
  rfl

/-- The topic of a mote is ASCII and short. -/
theorem ascii_pubTopic (simTitle : String) :
    Ascii (constructPubTopic (getRegionId simTitle)).2 ∧
      (constructPubTopic (getRegionId simTitle)).2.length ≤ 23 := by
  obtain ⟨n, hn, hlt⟩ := exists_getRegionId_eq simTitle
  have htopic := constructPubTopic_eq (getRegionId simTitle) (by omega) (by omega)
  have hlen := length_intText_le (n := getRegionId simTitle) (by omega) (by omega)
  have hword : mqttPublishTopic.length = 12 := by decide
  rw [htopic]
  constructor
  · rw [hn, intText_natCast]
    exact Ascii.append (by decide) (ascii_natText n)
  · rw [List.length_append]
    omega

/-- The packets of a mote are read back and fit into the buffer of the writer. -/
theorem session_ok (addr : Fin 8 → UInt8) (simTitle : String) {orders : List Order}
    (h : ∀ text ∈ orders.filterMap Order.text, text.length ≤ 200) :
    ∀ o ∈ session (constructClientId addr).2 (constructPubTopic (getRegionId simTitle)).2 orders,
      o.onWire.Representable ∧ o.bytes.length ≤ outputBuffSize := by
  have hid := (length_clientId addr).2
  have htopic := (ascii_pubTopic simTitle).2
  have htext (text : List Char) (ht : Order.publish text ∈ orders) : text.length ≤ 200 :=
    h text (List.mem_filterMap.mpr ⟨_, ht, rfl⟩)
  have hbody := @bodyLength_settings (constructClientId addr).2 (by omega)
  rw [session, List.forall_mem_cons]
  refine ⟨⟨representable_settings (List.ne_nil_of_length_pos (hid ▸ Nat.succ_pos 30)) (by omega),
    (ConnectSettings.length_connect_le _).trans ?_⟩, fun o ho => ⟨?_, ?_⟩⟩
  · rw [hbody, hid]
    decide
  · exact representable_packets (htopic.trans_lt (by decide)) 1
      (fun text ht => (htext text ht).trans_lt (by decide)) o ho
  · exact length_packets_le htopic 1 htext o ho

variable {server : Server} {db : Database} {s : FlowState} {as : List FlowEvent} {c : Sender}
  {memcpy : Memcpy UInt8} {es : List Sender.Event} {outBuffer : List UInt8} {outWritePos mss : ℕ}

/-- The texts that are published are ASCII and leave room in their packets. -/
theorem ascii_of_orders {ms : List Measurement} (hms : ∀ m ∈ ms, m.Fits) {published : List ℕ}
    {orders : List Order}
    (h : (orders.filterMap Order.text).map Except.ok =
      published.filterMap fun i => (NoiseSensor.texts initNoiseValues ms)[i]?) :
    ∀ text ∈ orders.filterMap Order.text, Ascii text ∧ text.length ≤ 200 := by
  intro text ht
  have hmem : Except.ok text ∈ (orders.filterMap Order.text).map (@Except.ok PublishError _) :=
    List.mem_map_of_mem ht
  rw [h] at hmem
  obtain ⟨i, -, hi⟩ := List.mem_filterMap.mp hmem
  exact texts_ok NoiseSensor.fitsUint16_initNoiseValues hms (List.mem_of_getElem? hi)

/-- The measurements of a mote reach the table over a connection that loses and repeats segments:
of the texts that its engine accepted, a first part has arrived, and the table holds exactly the
rows of their readings; when the connection is at rest and the broker has read all, of all. -/
theorem measurements_arrive (simTitle : String) (addr : Fin 8 → UInt8) {ms : List Measurement}
    (h : ∀ m ∈ ms, m.Fits) {published : List ℕ} (hpublished : ∀ i ∈ published, i < ms.length)
    {orders : List Order} (horders : (orders.filterMap Order.text).map Except.ok =
      published.filterMap fun i => (NoiseSensor.texts initNoiseValues ms)[i]?)
    (hmemcpy : memcpy.CopiesDown) (hbuffer : outBuffer.length = outputBuffSize)
    (hmss : maxTcpSegmentSize ≤ mss)
    (hrun : ((Sender.system memcpy).restrict Sender.Roomy).Run
      (Sender.opened outBuffer outWritePos maxTcpSegmentSize mss) es c)
    (hstarted : es.flatMap Sender.Event.started = session (constructClientId addr).2
      (constructPubTopic (getRegionId simTitle)).2 orders)
    {received : List ControlPacket} {rest : List UInt8}
    (hread : packetReader.Reads c.received received rest)
    (hflow : (flowSystem server).Run ⟨db, [], []⟩ as s) (hdrained : s.inFlight = [])
    (hdelivered : (messages as).Perm (received.filterMap brokerMessage)) :
    ∃ arrived, arrived <+: published ∧ (c.Idle → rest = [] → arrived = published) ∧
      ∃ rows, s.db = db.withMeasures rows ∧
        rows.Perm (arrived.flatMap (NoiseSensor.rowsAt server db simTitle ms)) := by
  have htexts := ascii_of_orders h horders
  have hpackets := session_ok addr simTitle fun text ht => (htexts text ht).2
  obtain ⟨hsteady, -, hsound⟩ := Sender.steady_of_roomy hmemcpy ⟨hmss, fun hne => absurd rfl hne⟩
    (Sender.sound_opened hbuffer outWritePos maxTcpSegmentSize mss) hrun
  obtain ⟨-, hall⟩ := Sender.whole_of_fits hmemcpy hbuffer hsteady
    (hstarted ▸ fun o ho => (hpackets o ho).2)
  have hall := Sender.reads_sent hmemcpy hbuffer hsteady hall
    (hstarted ▸ fun o ho => (hpackets o ho).1)
  have hmessages : ((es.flatMap Sender.Event.started).map fun o => o.onWire.meaning).filterMap
      brokerMessage = published.filterMap fun i =>
        (NoiseSensor.texts initNoiseValues ms)[i]?.bind
          (NoiseSensor.message (NoiseSensor.topic simTitle)) := by
    rw [hstarted, filterMap_session (ascii_pubTopic simTitle).1 _ fun text ht => (htexts text ht).1,
      horders, List.filterMap_filterMap]
    rfl
  have hprefix := hall.isPrefix_of_append hread
  have harrived : ∃ arrived, arrived <+: published ∧ (c.Idle → rest = [] → arrived = published) ∧
      arrived.filterMap (fun i => (NoiseSensor.texts initNoiseValues ms)[i]?.bind
        (NoiseSensor.message (NoiseSensor.topic simTitle))) = received.filterMap brokerMessage := by
    by_cases hrest : c.Idle ∧ rest = []
    · obtain ⟨hidle, rfl⟩ := hrest
      rw [Pipe.sent, hsound.waiting_of_idle hidle, List.append_nil] at hall
      have heq := hprefix.eq_of_length_le (hread.isPrefix hall).length_le
      exact ⟨published, List.prefix_rfl, fun _ _ => rfl, by rw [heq, hmessages]⟩
    · obtain ⟨arrived, hpart, heq⟩ :=
        exists_prefix_filterMap (hmessages ▸ hprefix.filterMap brokerMessage)
      exact ⟨arrived, hpart, fun hidle hnil => absurd ⟨hidle, hnil⟩ hrest, heq⟩
  obtain ⟨arrived, hpart, hwhole, heq⟩ := harrived
  obtain ⟨rows, hdb, hrows, -⟩ := (flowBalanced hflow).drained hdrained
  have hall := hrows.trans (hdelivered.flatMap_right _)
  rw [← heq] at hall
  have hrowsAt := NoiseSensor.rows_delivered server db simTitle h fun i hi =>
    hpublished i (hpart.subset hi)
  exact ⟨arrived, hpart, hwhole, rows, hdb, hall.trans hrowsAt⟩

/-- Orders for the texts with the given numbers. -/
theorem exists_orders {ms : List Measurement} (h : ∀ m ∈ ms, m.Fits) {published : List ℕ}
    (hpublished : ∀ i ∈ published, i < ms.length) : ∃ orders : List Order,
      (orders.filterMap Order.text).map Except.ok =
        published.filterMap fun i => (NoiseSensor.texts initNoiseValues ms)[i]? := by
  induction published with
  | nil => exact ⟨[], rfl⟩
  | cons i published ih =>
    obtain ⟨hi, hrest⟩ := List.forall_mem_cons.mp hpublished
    obtain ⟨orders, horders⟩ := ih hrest
    obtain ⟨m, hm, -⟩ := NoiseSensor.storedRows_text .stable dumpedDatabase "" h hi
    obtain ⟨built, hbuilt, hmessage⟩ := Option.bind_eq_some_iff.mp hm
    cases built with
    | error e => exact absurd hmessage (by simp [NoiseSensor.message, Except.toOption])
    | ok text =>
      refine ⟨.publish text :: orders, ?_⟩
      rw [List.filterMap_cons_some (f := Order.text) rfl, List.map_cons, horders,
        List.filterMap_cons_some hbuilt]

/-- The texts of a mote can all be brought over. -/
theorem exists_delivery (simTitle : String) (addr : Fin 8 → UInt8) {orders : List Order}
    (htexts : ∀ text ∈ orders.filterMap Order.text, text.length ≤ 200)
    (hmemcpy : memcpy.CopiesDown) (hbuffer : outBuffer.length = outputBuffSize) :
    ∃ es c received, ((Sender.system memcpy).restrict Sender.Roomy).Run
        (Sender.opened outBuffer outWritePos maxTcpSegmentSize mss) es c ∧
      es.flatMap Sender.Event.started = session (constructClientId addr).2
        (constructPubTopic (getRegionId simTitle)).2 orders ∧
      c.Idle ∧ packetReader.Reads c.received received [] := by
  have hpackets := fun o ho => (session_ok addr simTitle htexts o ho).1
  have hops : ∀ o ∈ session (constructClientId addr).2
      (constructPubTopic (getRegionId simTitle)).2 orders, o.ops.isSome = true := by
    intro o ho
    obtain ⟨ops, hops, -⟩ := Outgoing.readBack_onWire (hpackets o ho)
    exact hops ▸ rfl
  have hsound := Sender.sound_opened hbuffer outWritePos maxTcpSegmentSize mss
  obtain ⟨c, hc, hidle⟩ := hsound.leads_packets hmemcpy (Nat.succ_pos 31) hops
  obtain ⟨es, hrun, hstarted, hwhole⟩ := hc.run
  have hsteady := hrun.restrict_mono fun _ _ h => h.1
  have hall := Sender.reads_sent hmemcpy hbuffer hsteady hwhole (hstarted ▸ hpackets)
  rw [Pipe.sent, hc.sound.waiting_of_idle hidle, List.append_nil] at hall
  exact ⟨es, c, _, hrun.restrict_mono fun _ _ h => h.2, hstarted, hidle, hall⟩

/-- Both readings of a mote at the centre of the first region arrive. -/
theorem measurements_arrive_twoMeasurements : ∃ (c : Sender) (as : List FlowEvent) (s : FlowState),
    c.Idle ∧ (flowSystem .stable).Run ⟨dumpedDatabase, [], []⟩ as s ∧
      ∃ rows, s.db = dumpedDatabase.withMeasures rows ∧ rows.Perm ([0, 1].flatMap
        (NoiseSensor.rowsAt .stable dumpedDatabase "Region 1" NoiseSensor.twoMeasurements)) := by
  have hfits : ∀ m ∈ NoiseSensor.twoMeasurements, m.Fits := by
    intro m hm
    rcases List.mem_pair.mp hm with rfl | rfl <;> exact ⟨by decide, by decide, by decide⟩
  have hpublished : ∀ i ∈ [0, 1], i < NoiseSensor.twoMeasurements.length := by decide
  obtain ⟨orders, horders⟩ := exists_orders hfits hpublished
  have htexts := fun text ht => (ascii_of_orders hfits horders text ht).2
  have hbuffer : (List.replicate outputBuffSize (0 : UInt8)).length = outputBuffSize :=
    List.length_replicate
  obtain ⟨es, c, received, hrun, hstarted, hidle, hread⟩ :=
    @exists_delivery _ _ 0 1220 "Region 1" (fun _ => 0) orders htexts copiesDown_copyForward hbuffer
  obtain ⟨as, s, hflow, hmessages, hdrained⟩ :=
    exists_drained .stable dumpedDatabase (received.filterMap brokerMessage)
  obtain ⟨arrived, -, hwhole, hrows⟩ := measurements_arrive "Region 1" (fun _ => 0) hfits
    hpublished horders copiesDown_copyForward hbuffer (by decide) hrun hstarted hread hflow hdrained
    (hmessages ▸ List.Perm.refl _)
  rw [hwhole hidle rfl] at hrows
  exact ⟨c, as, s, hidle, hflow, hrows⟩

end Arrival

end NoiseLevel.Sensor
