import NoiseLevel.Mqtt.Packets

/-!
# Which packets a broker reads back

A broker reads back what a protothread sent exactly when the numbers that the source
shifts the wrong way are below 256, when texts and payload fit into 16 bits and when a
CONNECT counts the strings that it writes: an empty string is written with its length
and is not counted.
-/

namespace NoiseLevel.Mqtt

open NoiseLevel.Core

/-- Without a macro nothing is written. -/
@[simp] theorem written_nil : written [] = [] := rfl

/-- The macros write one after the other. -/
@[simp] theorem written_cons (op : WriteOp) (ops : List WriteOp) :
    written (op :: ops) = op.content ++ written ops := List.flatMap_cons

/-- Two sequences of macros write one after the other. -/
@[simp] theorem written_append (ops more : List WriteOp) :
    written (ops ++ more) = written ops ++ written more := List.flatMap_append

/-- `PT_MQTT_WRITE_BYTE` writes its byte. -/
@[simp] theorem content_byte (data : UInt8) : (WriteOp.byte data).content = [data] := rfl

/-- `PT_MQTT_WRITE_BYTES` writes as many bytes as it is told. -/
@[simp] theorem content_bytes (data : List UInt8) (len : UInt16) (h : len.toNat ≤ data.length) :
    (WriteOp.bytes data len h).content = data.take len.toNat := rfl

/-- The upper byte of a number of 16 bits. -/
@[simp] theorem content_writeHigh (n : UInt16) :
    (writeHigh n).content = [UInt8.ofNat (n.toNat / 256)] := by
  rw [writeHigh, WriteOp.content, Nat.shiftRight_eq_div_pow]

/-- The byte that is shifted the wrong way is always 0. -/
@[simp] theorem content_writeShifted (n : UInt16) : (writeShifted n).content = [0] := by
  have h : UInt8.ofNat (n.toNat <<< 8) = 0 := by
    apply UInt8.toNat_inj.mp
    rw [UInt8.toNat_ofNat', Nat.shiftLeft_eq]
    exact Nat.mul_mod_left _ _
  rw [writeShifted, WriteOp.content, h]

/-- The lower byte of a number of 16 bits. -/
@[simp] theorem content_writeLow (n : UInt16) :
    (writeLow n).content = [UInt8.ofNat (n.toNat % 256)] := by
  rw [writeLow, WriteOp.content, Nat.and_two_pow_sub_one_eq_mod n.toNat 8]

/-- A text is written as far as 16 bits count. -/
@[simp] theorem content_writeText (data : List UInt8) :
    (writeText data).content = data.take (data.length % 2 ^ 16) := by
  rw [writeText, WriteOp.content, toNat_size16]

/-- What is written of a text is the text exactly when 16 bits count it. -/
theorem take_size_eq_self_iff {data : List UInt8} {n : ℕ} (hn : 0 < n) :
    data.take (data.length % n) = data ↔ data.length < n := by
  rw [List.take_eq_self_iff]
  exact ⟨fun h => lt_of_le_of_lt h (Nat.mod_lt _ hn), fun h => (Nat.mod_eq_of_lt h).ge⟩

/-- A lower byte keeps the number modulo 256. -/
theorem toNat_lowByte (n : ℕ) : (UInt8.ofNat (n % 256)).toNat = n % 256 := by
  rw [UInt8.toNat_ofNat']
  omega

/-- An upper byte fits. -/
theorem toNat_highByte (n : UInt16) : (UInt8.ofNat (n.toNat / 256)).toNat = n.toNat / 256 := by
  have := n.toNat_lt
  rw [UInt8.toNat_ofNat']
  omega

/-- Two bytes give back a number of 16 bits. -/
theorem readNumber_highLow (n : UInt16) (rest : List UInt8) :
    readNumber (UInt8.ofNat (n.toNat / 256) :: UInt8.ofNat (n.toNat % 256) :: rest) =
      some (n.toNat, rest) := by
  rw [readNumber, toNat_highByte, toNat_lowByte]
  congr 2
  omega

/-- Only the lower byte of a number that is shifted the wrong way is read back. -/
theorem readNumber_shiftedLow (n : UInt16) (rest : List UInt8) :
    readNumber (0 :: UInt8.ofNat (n.toNat % 256) :: rest) = some (n.toNat % 256, rest) := by
  rw [readNumber, toNat_lowByte]
  congr 2
  exact Nat.zero_add _

/-- A text with its length in both bytes is read back as far as it was written. -/
theorem readString_highLow (data rest : List UInt8) :
    readString (UInt8.ofNat ((size16 data).toNat / 256) ::
      UInt8.ofNat ((size16 data).toNat % 256) :: (data.take (data.length % 2 ^ 16) ++ rest)) =
      some (data.take (data.length % 2 ^ 16), rest) := by
  have hlength : (data.take (data.length % 2 ^ 16)).length = (size16 data).toNat := by
    rw [List.length_take, toNat_size16]
    exact min_eq_left (Nat.mod_le _ _)
  rw [readString, readNumber_highLow, Option.bind_some, ← hlength, readBytes_length]

/-- Whatever follows a packet, a broker reads it back. -/
def ReadBack (ops : Option (List WriteOp)) (packet : ControlPacket) : Prop :=
  ∃ w, ops = some w ∧ ∀ rest, packetReader.read (written w ++ rest) = some (packet, rest)

/-- A packet is read back exactly when its remaining length is the length of its body, fits
into four bytes, and the body is read. -/
theorem readBack_withHeader_iff {fhdr : UInt8} {n : ℕ} {ops : List WriteOp}
    {packet : ControlPacket} : ReadBack (withHeader fhdr n ops) packet ↔
      n % 2 ^ 32 = (written ops).length ∧ (written ops).length < 128 ^ 4 ∧
        readBody fhdr (written ops) = some packet := by
  rw [ReadBack, withHeader, encodeRemainingLength]
  generalize n % 2 ^ 32 = n
  cases henc : encode128 4 n with
  | none =>
    have hn : ¬ n < 128 ^ 4 := fun h => by
      have := isSome_encode128_iff.mpr h
      rw [henc] at this
      exact Bool.false_ne_true this
    exact iff_of_false (by simp) fun h => hn (h.1 ▸ h.2.1)
  | some enc =>
    have hn : n < 128 ^ 4 := isSome_encode128_iff.mp (henc ▸ rfl)
    have hsize : enc.take (enc.length % 2 ^ 16) = enc :=
      (take_size_eq_self_iff (by omega)).mpr ((length_encode128 henc).2.trans_lt (by omega))
    have hread (rest : List UInt8) :
        packetReader.read (written (.byte fhdr :: writeText enc :: ops) ++ rest) =
          (readBytes n (written ops ++ rest)).bind fun body =>
            (readBody fhdr body.1).map fun packet => (packet, body.2) := by
      rw [written_cons, written_cons, content_writeText, hsize, content_byte,
        List.singleton_append, List.cons_append, List.append_assoc]
      exact readPacket_frame henc
    simp only [Option.map_some, Option.some.injEq, exists_eq_left', hread]
    constructor
    · intro h
      have h := h []
      rw [List.append_nil, readBytes] at h
      split_ifs at h with hle
      · obtain ⟨p, hp, heq⟩ := Option.map_eq_some_iff.mp h
        obtain ⟨rfl, hdrop⟩ := Prod.mk.inj heq
        have hlength : n = (written ops).length :=
          le_antisymm hle (List.drop_eq_nil_iff.mp hdrop)
        exact ⟨hlength, hlength ▸ hn, by rwa [hlength, List.take_length] at hp⟩
      · exact absurd h (by simp)
    · rintro ⟨rfl, -, hbody⟩ rest
      rw [readBytes_length, Option.bind_some, hbody, Option.map_some]

/-- The fixed header has at most five bytes. -/
theorem length_withHeader_le (fhdr : UInt8) (n : ℕ) (ops : List WriteOp) :
    (((withHeader fhdr n ops).map written).getD []).length ≤ 5 + (written ops).length := by
  rw [withHeader]
  cases henc : encodeRemainingLength n with
  | none => exact Nat.zero_le _
  | some enc =>
    have henc := (length_encode128 henc).2
    have htake := List.length_take_le (enc.length % 2 ^ 16) enc
    simp only [Option.map_some, Option.getD_some, written_cons, content_byte, content_writeText,
      List.length_append, List.length_singleton]
    omega

namespace OutPacket

variable (p : OutPacket)

/-- The upper half of the first byte names a PUBLISH. -/
theorem publishFhdr_and : p.publishFhdr &&& 0xF0 = MsgType.publish.code := by
  unfold publishFhdr
  cases p.qos <;> cases p.retain <;> rfl

/-- The first byte has the quality of service. -/
theorem fhdrQos_publishFhdr : fhdrQos p.publishFhdr = p.qos.code.toNat := by
  unfold publishFhdr
  cases p.qos <;> cases p.retain <;> rfl

/-- The lowest bit of the first byte is the retain flag. -/
theorem retain_publishFhdr : decide (p.publishFhdr.toNat % 2 = 1) = p.retain := by
  unfold publishFhdr
  cases p.qos <;> cases p.retain <;> rfl

/-- Only the lowest quality of service has the code zero. -/
theorem code_eq_zero_iff (qos : QosLevel) : qos.code.toNat = 0 ↔ qos = .level0 := by
  cases qos <;> decide

/-- A topic is read back as far as its length, modulo 65536, reaches. -/
theorem readString_topicWrites (rest : List UInt8) :
    readString (written p.topicWrites ++ rest) =
      some (p.topic.take (p.topic.length % 2 ^ 16), rest) := by
  simpa [topicWrites] using readString_highLow p.topic rest

/-- Of an identifier the lower byte is read back. -/
theorem readNumber_midWrites (rest : List UInt8) :
    readNumber (written p.midWrites ++ rest) = some (p.mid.toNat % 256, rest) := by
  simpa [midWrites] using readNumber_shiftedLow p.mid rest

/-- A topic takes two bytes more than its length, modulo 65536. -/
theorem length_topicWrites :
    (written p.topicWrites).length = 2 + p.topic.length % 2 ^ 16 := by
  have hmin : min (p.topic.length % 2 ^ 16) p.topic.length = p.topic.length % 2 ^ 16 :=
    min_eq_left (Nat.mod_le _ _)
  simp only [topicWrites, written_cons, written_nil, content_writeHigh, content_writeLow,
    content_writeText, List.length_append, List.length_take, List.length_singleton,
    List.length_nil, hmin]
  omega

/-- An identifier takes two bytes. -/
theorem length_midWrites : (written p.midWrites).length = 2 := by
  simp [midWrites]

/-- A PUBLISH adds at most nine bytes to its topic and its payload. -/
theorem length_publish_le :
    (Outgoing.publish p).bytes.length ≤ 9 + p.topic.length + p.payload.length := by
  have hheader := length_withHeader_le p.publishFhdr
    (2 + (size16 p.topic).toNat + p.payload.length + if p.qos = .level0 then 0 else 2)
    (p.topicWrites ++ (if p.qos = .level0 then [] else p.midWrites) ++ [writeText p.payload])
  have hmid : (written (if p.qos = .level0 then [] else p.midWrites)).length ≤ 2 := by
    split_ifs
    · exact Nat.zero_le _
    · exact p.length_midWrites.le
  have htopic := Nat.mod_le p.topic.length (2 ^ 16)
  have hpayload := List.length_take_le (p.payload.length % 2 ^ 16) p.payload
  rw [written_append, written_append, List.length_append, List.length_append,
    length_topicWrites, written_cons, written_nil, content_writeText, List.append_nil] at hheader
  refine hheader.trans ?_
  omega

/-- What a broker makes of the body of a PUBLISH. -/
theorem readBody_publish (p : OutPacket) : readBody p.publishFhdr
    (written (p.topicWrites ++ (if p.qos = .level0 then [] else p.midWrites) ++
      [writeText p.payload])) =
    some (.publish p.retain p.qos.code.toNat (p.topic.take (p.topic.length % 2 ^ 16))
      (if p.qos = .level0 then none else some (p.mid.toNat % 256))
      (p.payload.take (p.payload.length % 2 ^ 16))) := by
  rw [readBody, if_pos p.publishFhdr_and, readPublish, written_append, written_append,
    List.append_assoc, readString_topicWrites, Option.bind_some, fhdrQos_publishFhdr,
    retain_publishFhdr]
  by_cases h : p.qos = .level0
  · rw [if_pos ((code_eq_zero_iff _).mpr h), if_pos h, if_pos h, h]
    simp [QosLevel.code]
  · rw [if_neg (mt (code_eq_zero_iff _).mp h), if_neg h, if_neg h, readNumber_midWrites]
    simp

/-- What is read of the body of a SUBSCRIBE. -/
theorem readBody_subscribe (p : OutPacket) : readBody (MsgType.subscribe.code ||| 0x02)
    (written (p.midWrites ++ p.topicWrites ++ [.byte p.qos.code])) =
    some (.subscribe (p.mid.toNat % 256) (p.topic.take (p.topic.length % 2 ^ 16)) p.qos.code) := by
  have htype (body : List UInt8) :
      readBody (MsgType.subscribe.code ||| 0x02) body = readSubscribe body := by
    rw [readBody, if_neg (by decide), if_neg (by decide), if_pos (by decide)]
  rw [htype, readSubscribe, written_append, written_append, List.append_assoc,
    readNumber_midWrites, Option.bind_some, readString_topicWrites]
  rfl

/-- What is read of the body of an UNSUBSCRIBE. -/
theorem readBody_unsubscribe (p : OutPacket) : readBody (MsgType.unsubscribe.code ||| 0x02)
    (written (p.midWrites ++ p.topicWrites)) =
    some (.unsubscribe (p.mid.toNat % 256) (p.topic.take (p.topic.length % 2 ^ 16))) := by
  have htype (body : List UInt8) :
      readBody (MsgType.unsubscribe.code ||| 0x02) body = readUnsubscribe body := by
    rw [readBody, if_neg (by decide), if_neg (by decide), if_neg (by decide), if_pos (by decide)]
  rw [htype, readUnsubscribe, written_append, ← List.append_nil (written p.topicWrites),
    readNumber_midWrites, Option.bind_some, readString_topicWrites]
  rfl

/-- An identifier is its lower byte when it is below 256. -/
theorem mid_mod_eq_iff : p.mid.toNat % 256 = p.mid.toNat ↔ p.mid < 256 := by
  rw [UInt16.lt_iff_toNat_lt]
  change _ ↔ p.mid.toNat < 256
  omega

end OutPacket

namespace MqttString

variable (s : MqttString)

/-- The length of a string is taken modulo 65536. -/
theorem toNat_length : s.length.toNat = s.text.length % 2 ^ 16 := by
  rw [s.length_eq, toNat_size16]
  rfl

/-- A string takes two bytes more than its length. -/
theorem length_writes : (written s.writes).length = 2 + s.length.toNat := by
  have hmin : min s.length.toNat s.text.length = s.length.toNat := by
    rw [s.toNat_length]
    exact min_eq_left (Nat.mod_le _ _)
  simp only [writes, written_cons, written_nil, content_writeShifted, content_writeLow,
    content_bytes, List.length_append, List.length_take, List.length_singleton,
    List.length_nil, hmin]
  omega

/-- Of a string of a CONNECT at most 255 bytes are read, and what is left of a longer one
stays in the stream. -/
theorem readString_writes (rest : List UInt8) : ∃ left,
    readString (written s.writes ++ rest) = some (s.text.take (s.text.length % 256), left) ∧
      (s.text.length < 256 → left = rest) := by
  have hlow : s.length.toNat % 256 = s.text.length % 256 := by
    rw [s.toNat_length]
    omega
  have hmod : s.text.length % 256 ≤ s.text.length % 2 ^ 16 := by omega
  have htext : (s.text.take (s.text.length % 2 ^ 16)).length = s.text.length % 2 ^ 16 := by
    rw [List.length_take]
    exact min_eq_left (Nat.mod_le _ _)
  have hread : readString (written s.writes ++ rest) =
      readBytes (s.text.length % 256) (s.text.take (s.text.length % 2 ^ 16) ++ rest) := by
    rw [← hlow, ← s.toNat_length]
    simp only [writes, written_cons, written_nil, content_writeShifted, content_writeLow,
      content_bytes, List.append_nil, List.nil_append, List.cons_append]
    rw [readString, readNumber_shiftedLow, Option.bind_some]
  rw [hread, readBytes, if_pos (by rw [List.length_append, htext]; omega),
    List.take_append_of_le_length (by omega), List.take_take, min_eq_left hmod]
  refine ⟨_, rfl, fun h => ?_⟩
  rw [List.drop_append_of_le_length (by omega), Nat.mod_eq_of_lt h,
    Nat.mod_eq_of_lt (h.trans (by omega)), List.take_length, List.drop_length, List.nil_append]

end MqttString

namespace ConnectSettings

/-- The writes of strings, where they are present. -/
def stringWrites (strings : List (Option MqttString)) : List WriteOp :=
  strings.flatMap fun string => (string.map MqttString.writes).getD []

/-- Strings are read back exactly when each that is present has less than 256 bytes. -/
theorem readStrings_iff (strings : List (Option MqttString)) :
    readStrings (strings.map Option.isSome) (written (stringWrites strings)) =
        some (strings.map (Option.map MqttString.text)) ↔
      ∀ t, some t ∈ strings → t.text.length < 256 := by
  induction strings with
  | nil => exact iff_of_true rfl nofun
  | cons string strings ih =>
    cases string with
    | none =>
      have hskip : stringWrites (none :: strings) = stringWrites strings := rfl
      rw [List.map_cons, List.map_cons, hskip, Option.isSome_none, Option.map_none, readStrings,
        Option.map_eq_some_iff]
      simpa using ih
    | some t =>
      obtain ⟨left, hread, hleft⟩ := t.readString_writes (written (stringWrites strings))
      have hcons : written (stringWrites (some t :: strings)) =
          written t.writes ++ written (stringWrites strings) := written_append _ _
      rw [List.map_cons, List.map_cons, hcons, Option.isSome_some, Option.map_some, readStrings,
        hread, Option.bind_some, Option.map_eq_some_iff]
      constructor
      · rintro ⟨rest, hrest, heq⟩
        obtain ⟨htake, rfl⟩ := List.cons.inj heq
        have ht := (take_size_eq_self_iff (by omega)).mp (Option.some.inj htake)
        rw [hleft ht] at hrest
        intro u hu
        rcases List.mem_cons.mp hu with h | h
        · exact Option.some.inj h ▸ ht
        · exact ih.mp hrest u h
      · intro h
        have ht := h t List.mem_cons_self
        refine ⟨_, ?_, congrArg₂ _ ?_ rfl⟩
        · rw [hleft ht]
          exact ih.mpr fun u hu => h u (List.mem_cons_of_mem _ hu)
        · rw [(take_size_eq_self_iff (by omega)).mpr ht]

variable (s : ConnectSettings)

/-- The length of the body that `connect_pt` writes. -/
def bodyLength : ℕ :=
  12 + (s.strings.map fun string => (string.map fun t => 2 + t.length.toNat).getD 0).sum

/-- The strings of a CONNECT take as many bytes as the present ones together. -/
theorem length_stringWrites (strings : List (Option MqttString)) :
    (written (stringWrites strings)).length =
      (strings.map fun string => (string.map fun t => 2 + t.length.toNat).getD 0).sum := by
  induction strings with
  | nil => rfl
  | cons string strings ih =>
    have hcons : written (stringWrites (string :: strings)) =
        written ((string.map MqttString.writes).getD []) ++ written (stringWrites strings) :=
      written_append _ _
    rw [hcons, List.length_append, ih, List.map_cons, List.sum_cons]
    cases string with
    | none => rfl
    | some t => rw [Option.map_some, Option.getD_some, t.length_writes, Option.map_some,
        Option.getD_some]

/-- The variable header of a CONNECT. -/
theorem written_vhdr : written s.vhdr = 0 :: 6 :: (mqttProtocolName ++
    [mqttProtocolVersion, s.connectVhdrFlags, UInt8.ofNat (s.keepAlive.toNat / 256),
      UInt8.ofNat (s.keepAlive.toNat % 256)]) := by
  simp only [vhdr, written_cons, written_nil, content_byte, content_writeHigh, content_writeLow,
    List.cons_append, List.nil_append]
  rfl

/-- What follows the fixed header of a CONNECT is as long as it announces. -/
theorem length_body : (written (s.vhdr ++ stringWrites s.strings)).length = s.bodyLength := by
  rw [written_append, List.length_append, length_stringWrites, written_vhdr]
  rfl

/-- A CONNECT is at most five bytes longer than its body. -/
theorem length_connect_le : (Outgoing.connect s).bytes.length ≤ 5 + s.bodyLength :=
  (length_withHeader_le _ _ _).trans_eq (congrArg (5 + ·) s.length_body)

/-- The flags of a CONNECT announce the strings that are present. -/
theorem announced_eq : announced s.connectVhdrFlags = s.strings.map Option.isSome := by
  unfold announced strings Has
  cases VhdrFlag.will.In s.connectVhdrFlags <;> cases VhdrFlag.username.In s.connectVhdrFlags <;>
    cases VhdrFlag.password.In s.connectVhdrFlags <;> rfl

/-- The strings of a CONNECT in the order in which they are written. -/
theorem map_text_strings : s.strings.map (Option.map MqttString.text) =
    [some s.request.clientId, s.request.willTopic, s.request.willMessage, s.request.username,
      s.request.password] := by
  unfold strings request
  cases s.Has .will <;> cases s.Has .username <;> cases s.Has .password <;> rfl

/-- A broker reads the body of a CONNECT as it was meant exactly when every string in it has
less than 256 bytes. -/
theorem readConnect_iff :
    readConnect (written (s.vhdr ++ stringWrites s.strings)) = some s.request ↔
      ∀ t, some t ∈ s.strings → t.text.length < 256 := by
  have hname (rest : List UInt8) : readString (0 :: 6 :: (mqttProtocolName ++ rest)) =
      some (mqttProtocolName, rest) := by
    have hnumber : readNumber (0 :: 6 :: (mqttProtocolName ++ rest)) =
        some (mqttProtocolName.length, mqttProtocolName ++ rest) := rfl
    rw [readString, hnumber, Option.bind_some, readBytes_length]
  have hkeep : (UInt8.ofNat (s.keepAlive.toNat / 256)).toNat * 256 +
      (UInt8.ofNat (s.keepAlive.toNat % 256)).toNat = s.keepAlive.toNat := by
    rw [toNat_highByte, toNat_lowByte]
    omega
  rw [← readStrings_iff, ← s.announced_eq, map_text_strings, written_append, written_vhdr,
    List.cons_append, List.cons_append, List.append_assoc, readConnect, hname]
  simp only [List.cons_append, List.nil_append, and_self, if_true, hkeep]
  cases readStrings (announced s.connectVhdrFlags) (written (stringWrites s.strings)) with
  | none => exact iff_of_false nofun nofun
  | some strings =>
    constructor
    · intro h
      split at h
      next heq =>
        obtain rfl := Option.some.inj heq
        rw [← Option.some.inj h]
      next => exact absurd h nofun
    · intro h
      rw [Option.some.inj h]
      rfl

/-- A string takes at most 65537 bytes. -/
theorem stringLength_le (t : MqttString) : t.stringLength ≤ 2 + 65535 := by
  have := t.length.toNat_lt
  unfold MqttString.stringLength
  split_ifs <;> omega

/-- A CONNECT is read back exactly when it counts what it writes and every string in it has
less than 256 bytes. -/
theorem readBack_connect_iff : ReadBack s.connectPt (.connect s.request) ↔
    s.remainingLength = s.bodyLength ∧ ∀ t, some t ∈ s.strings → t.text.length < 256 := by
  have hremaining : s.remainingLength < 128 ^ 4 := by
    have := stringLength_le s.clientId
    have := stringLength_le s.username
    have := stringLength_le s.password
    have := stringLength_le s.willTopic
    have := stringLength_le s.willMessage
    unfold remainingLength
    omega
  have htype (body : List UInt8) : readBody MsgType.connect.code body =
      (readConnect body).map ControlPacket.connect := by
    rw [readBody, if_neg (by decide), if_pos (by decide)]
  have hread : (readConnect (written (s.vhdr ++ stringWrites s.strings))).map
        ControlPacket.connect = some (.connect s.request) ↔
      ∀ t, some t ∈ s.strings → t.text.length < 256 := by
    rw [← s.readConnect_iff, Option.map_eq_some_iff]
    simp
  rw [connectPt, readBack_withHeader_iff, ← stringWrites, htype, hread, length_body,
    Nat.mod_eq_of_lt (hremaining.trans (by omega))]
  exact ⟨fun h => ⟨h.1, h.2.2⟩, fun h => ⟨h.1, h.1 ▸ hremaining, h.2⟩⟩

end ConnectSettings

namespace OutPacket

variable (p : OutPacket)

/-- A PUBLISH is read back exactly when its topic and payload fit into 16 bits and its
identifier, if it has one, into 8. -/
theorem readBack_publish_iff : ReadBack p.publishPt (.publish p.retain p.qos.code.toNat p.topic
      (if p.qos = .level0 then none else some p.mid.toNat) p.payload) ↔
    p.topic.length < 2 ^ 16 ∧ p.payload.length < 2 ^ 16 ∧ (p.qos = .level0 ∨ p.mid < 256) := by
  have hmid : (if p.qos = .level0 then none else some (p.mid.toNat % 256)) =
      (if p.qos = .level0 then none else some p.mid.toNat) ↔ p.qos = .level0 ∨ p.mid < 256 := by
    by_cases h : p.qos = .level0
    · simp [h]
    · rw [if_neg h, if_neg h, Option.some_inj, p.mid_mod_eq_iff, or_iff_right h]
  have hlength : (written (p.topicWrites ++ (if p.qos = .level0 then [] else p.midWrites) ++
      [writeText p.payload])).length = 2 + p.topic.length % 2 ^ 16 +
        (if p.qos = .level0 then 0 else 2) + p.payload.length % 2 ^ 16 := by
    have hmin : min (p.payload.length % 2 ^ 16) p.payload.length = p.payload.length % 2 ^ 16 :=
      min_eq_left (Nat.mod_le _ _)
    rw [written_append, written_append, List.length_append, List.length_append,
      length_topicWrites, written_cons, content_writeText, written_nil, List.append_nil,
      List.length_take, hmin]
    split_ifs
    · rfl
    · rw [length_midWrites]
  rw [publishPt, readBack_withHeader_iff, readBody_publish, hlength, toNat_size16]
  simp only [Option.some.injEq, ControlPacket.publish.injEq, true_and, hmid,
    take_size_eq_self_iff (Nat.two_pow_pos 16)]
  constructor
  · exact fun h => ⟨h.2.2.1, h.2.2.2.2, h.2.2.2.1⟩
  · rintro ⟨htopic, hpayload, hid⟩
    refine ⟨?_, ?_, htopic, hid, hpayload⟩ <;> split_ifs <;> omega

/-- A SUBSCRIBE is read back exactly when its identifier and topic fit. -/
theorem readBack_subscribe_iff :
    ReadBack p.subscribePt (.subscribe p.mid.toNat p.topic p.qos.code) ↔
      p.mid < 256 ∧ p.topic.length < 2 ^ 16 := by
  have hlength : (written (p.midWrites ++ p.topicWrites ++ [.byte p.qos.code])).length =
      2 + (2 + p.topic.length % 2 ^ 16) + 1 := by
    rw [written_append, written_append, List.length_append, List.length_append,
      length_midWrites, length_topicWrites]
    rfl
  rw [subscribePt, readBack_withHeader_iff, readBody_subscribe, hlength, toNat_size16]
  simp only [Option.some.injEq, ControlPacket.subscribe.injEq, and_true, p.mid_mod_eq_iff,
    take_size_eq_self_iff (Nat.two_pow_pos 16)]
  exact ⟨fun h => h.2.2, fun h => ⟨by omega, by omega, h⟩⟩

/-- An UNSUBSCRIBE is read back exactly when its identifier and topic fit. -/
theorem readBack_unsubscribe_iff :
    ReadBack p.unsubscribePt (.unsubscribe p.mid.toNat p.topic) ↔
      p.mid < 256 ∧ p.topic.length < 2 ^ 16 := by
  have hlength : (written (p.midWrites ++ p.topicWrites)).length =
      2 + (2 + p.topic.length % 2 ^ 16) := by
    rw [written_append, List.length_append, length_midWrites, length_topicWrites]
  rw [unsubscribePt, readBack_withHeader_iff, readBody_unsubscribe, hlength, toNat_size16]
  simp only [Option.some.injEq, ControlPacket.unsubscribe.injEq, p.mid_mod_eq_iff,
    take_size_eq_self_iff (Nat.two_pow_pos 16)]
  exact ⟨fun h => h.2.2, fun h => ⟨by omega, by omega, h⟩⟩

end OutPacket

namespace Outgoing

/-- The packet can be written so that it is read back. -/
def Representable : Outgoing → Prop
  | connect s => s.remainingLength = s.bodyLength ∧ ∀ t, some t ∈ s.strings → t.text.length < 256
  | publish p =>
    p.topic.length < 2 ^ 16 ∧ p.payload.length < 2 ^ 16 ∧ (p.qos = .level0 ∨ p.mid < 256)
  | subscribe p | unsubscribe p => p.mid < 256 ∧ p.topic.length < 2 ^ 16
  | pingreq | disconnect => True

/-- A packet is read back exactly when it can be represented. -/
theorem readBack_iff (o : Outgoing) : ReadBack o.ops o.meaning ↔ o.Representable := by
  cases o with
  | connect s => exact s.readBack_connect_iff
  | publish p => exact p.readBack_publish_iff
  | subscribe p => exact p.readBack_subscribe_iff
  | unsubscribe p => exact p.readBack_unsubscribe_iff
  | pingreq | disconnect => exact iff_of_true ⟨_, rfl, fun rest => rfl⟩ trivial

/-- The packet as it is on the wire: of a message identifier only the lower byte. -/
def onWire : Outgoing → Outgoing
  | publish p => publish { p with mid := p.mid % 256 }
  | subscribe p => subscribe { p with mid := p.mid % 256 }
  | unsubscribe p => unsubscribe { p with mid := p.mid % 256 }
  | o => o

/-- Of an identifier only the lower byte is written. -/
theorem midWrites_mod (p : OutPacket) :
    OutPacket.midWrites { p with mid := p.mid % 256 } = p.midWrites := by
  have hshifted (n : UInt16) : writeShifted n = .byte 0 := by
    have h := content_writeShifted n
    rw [writeShifted, content_byte] at h
    rw [writeShifted, List.singleton_inj.mp h]
  have hlow : writeLow (p.mid % 256) = writeLow p.mid := by
    have hmod : (p.mid % 256).toNat &&& 0x00FF = p.mid.toNat &&& 0x00FF := by
      rw [Nat.and_two_pow_sub_one_eq_mod _ 8, Nat.and_two_pow_sub_one_eq_mod _ 8, UInt16.toNat_mod]
      exact Nat.mod_mod _ _
    rw [writeLow, writeLow, hmod]
  rw [OutPacket.midWrites, OutPacket.midWrites, hshifted, hshifted, hlow]

/-- Packets that agree on the wire are written alike. -/
theorem ops_onWire (o : Outgoing) : o.onWire.ops = o.ops := by
  cases o with
  | connect | pingreq | disconnect => rfl
  | publish p =>
    rw [onWire, ops, ops, OutPacket.publishPt, OutPacket.publishPt, midWrites_mod]
    rfl
  | subscribe p =>
    rw [onWire, ops, ops, OutPacket.subscribePt, OutPacket.subscribePt, midWrites_mod]
    rfl
  | unsubscribe p =>
    rw [onWire, ops, ops, OutPacket.unsubscribePt, OutPacket.unsubscribePt, midWrites_mod]
    rfl

/-- A packet is read back as it is on the wire. -/
theorem readBack_onWire {o : Outgoing} (h : o.onWire.Representable) :
    ReadBack o.ops o.onWire.meaning := by
  rw [← o.ops_onWire]
  exact o.onWire.readBack_iff.mpr h

/-- A broker reads back what a protothread sends, whatever follows it, exactly when the packet
can be written; when only its identifier is too large, the lower byte is read. -/
theorem packet_readBack_iff (o : Outgoing) : (ReadBack o.ops o.meaning ↔ o.Representable) ∧
    (o.onWire.Representable → ReadBack o.ops o.onWire.meaning) :=
  ⟨o.readBack_iff, readBack_onWire⟩

end Outgoing

end NoiseLevel.Mqtt
