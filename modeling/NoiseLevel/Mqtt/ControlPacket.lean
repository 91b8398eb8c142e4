import NoiseLevel.Core.Base128
import NoiseLevel.Core.CharBytes
import NoiseLevel.Core.Framing

/-!
# What a broker reads

The packets that a client sends, as a broker of MQTT 3.1 reads them from a stream: the
first byte, the number of bytes that follow it in base 128, and in these the fields of the
packet, texts with their length in two bytes before them.
-/

namespace NoiseLevel.Mqtt

open NoiseLevel.Core

/-- The types of packets in `mqtt_fhdr_fields_t`. -/
inductive MsgType where
  | connect
  | connack
  | publish
  | puback
  | pubrec
  | pubrel
  | pubcomp
  | subscribe
  | suback
  | unsubscribe
  | unsuback
  | pingreq
  | pingresp
  | disconnect
deriving DecidableEq

/-- The value of a type, in the upper half of the first byte. -/
def MsgType.code : MsgType → UInt8
  | connect => 0x10
  | connack => 0x20
  | publish => 0x30
  | puback => 0x40
  | pubrec => 0x50
  | pubrel => 0x60
  | pubcomp => 0x70
  | subscribe => 0x80
  | suback => 0x90
  | unsubscribe => 0xA0
  | unsuback => 0xB0
  | pingreq => 0xC0
  | pingresp => 0xD0
  | disconnect => 0xE0

/-- `MQTT_PROTOCOL_NAME`. -/
def mqttProtocolName : List UInt8 := charBytes "MQIsdp".toList

/-- `MQTT_PROTOCOL_VERSION`. -/
def mqttProtocolVersion : UInt8 := 3

/-- The flags in `mqtt_vhdr_conn_fields_t` that the engine sets. -/
inductive VhdrFlag where
  | username
  | password
  | willRetain
  | will
  | cleanSession
deriving DecidableEq

/-- The bit of a flag. -/
def VhdrFlag.mask : VhdrFlag → UInt8
  | username => 0x80
  | password => 0x40
  | willRetain => 0x20
  | will => 0x04
  | cleanSession => 0x02

/-- A flag is set. -/
def VhdrFlag.In (flag : VhdrFlag) (flags : UInt8) : Bool := decide (flags &&& flag.mask ≠ 0)

/-- The fields of a CONNECT. -/
structure ConnectRequest where
  flags : UInt8
  keepAlive : ℕ
  clientId : List UInt8
  willTopic : Option (List UInt8)
  willMessage : Option (List UInt8)
  username : Option (List UInt8)
  password : Option (List UInt8)
deriving DecidableEq

/-- A packet of a client. -/
inductive ControlPacket where
  | connect (request : ConnectRequest)
  | publish (retain : Bool) (qos : ℕ) (topic : List UInt8) (mid : Option ℕ) (payload : List UInt8)
  | subscribe (mid : ℕ) (topic : List UInt8) (qos : UInt8)
  | unsubscribe (mid : ℕ) (topic : List UInt8)
  | pingreq
  | disconnect
deriving DecidableEq

/-- A number in two bytes. -/
def readNumber : List UInt8 → Option (ℕ × List UInt8)
  | hi :: lo :: rest => some (hi.toNat * 256 + lo.toNat, rest)
  | _ => none

/-- So many bytes. -/
def readBytes (n : ℕ) (bytes : List UInt8) : Option (List UInt8 × List UInt8) :=
  if n ≤ bytes.length then some (bytes.take n, bytes.drop n) else none

/-- A text after its length. -/
def readString (bytes : List UInt8) : Option (List UInt8 × List UInt8) :=
  (readNumber bytes).bind fun r => readBytes r.1 r.2

/-- The texts that are present, up to the end. -/
def readStrings : List Bool → List UInt8 → Option (List (Option (List UInt8)))
  | [], bytes => if bytes = [] then some [] else none
  | false :: present, bytes => (readStrings present bytes).map fun strings => none :: strings
  | true :: present, bytes => (readString bytes).bind fun r =>
      (readStrings present r.2).map fun strings => some r.1 :: strings

/-- Which of the five texts of a CONNECT its flags announce. -/
def announced (flags : UInt8) : List Bool :=
  [true, VhdrFlag.will.In flags, VhdrFlag.will.In flags, VhdrFlag.username.In flags,
    VhdrFlag.password.In flags]

/-- The body of a CONNECT. -/
def readConnect (body : List UInt8) : Option ConnectRequest :=
  match readString body with
  | some (name, version :: flags :: hi :: lo :: rest) =>
    if name = mqttProtocolName ∧ version = mqttProtocolVersion then
      match readStrings (announced flags) rest with
      | some [some clientId, willTopic, willMessage, username, password] =>
        some ⟨flags, hi.toNat * 256 + lo.toNat, clientId, willTopic, willMessage, username, password⟩
      | _ => none
    else none
  | _ => none

/-- The quality of service in the first byte of a PUBLISH. -/
def fhdrQos (fhdr : UInt8) : ℕ := fhdr.toNat / 2 % 4

/-- The body of a PUBLISH, with a message identifier unless the quality of service is 0. -/
def readPublish (fhdr : UInt8) (body : List UInt8) : Option ControlPacket :=
  (readString body).bind fun topic =>
    if fhdrQos fhdr = 0 then
      some (.publish (decide (fhdr.toNat % 2 = 1)) 0 topic.1 none topic.2)
    else (readNumber topic.2).map fun mid =>
      .publish (decide (fhdr.toNat % 2 = 1)) (fhdrQos fhdr) topic.1 (some mid.1) mid.2

/-- The body of a SUBSCRIBE to one topic. -/
def readSubscribe (body : List UInt8) : Option ControlPacket :=
  (readNumber body).bind fun mid => (readString mid.2).bind fun topic =>
    match topic.2 with
    | [qos] => some (.subscribe mid.1 topic.1 qos)
    | _ => none

/-- The body of an UNSUBSCRIBE from one topic. -/
def readUnsubscribe (body : List UInt8) : Option ControlPacket :=
  (readNumber body).bind fun mid => (readString mid.2).bind fun topic =>
    if topic.2 = [] then some (.unsubscribe mid.1 topic.1) else none

/-- The body of a packet, by the type in its first byte. -/
def readBody (fhdr : UInt8) (body : List UInt8) : Option ControlPacket :=
  if fhdr &&& 0xF0 = MsgType.publish.code then readPublish fhdr body
  else if fhdr &&& 0xF0 = MsgType.connect.code then (readConnect body).map ControlPacket.connect
  else if fhdr &&& 0xF0 = MsgType.subscribe.code then readSubscribe body
  else if fhdr &&& 0xF0 = MsgType.unsubscribe.code then readUnsubscribe body
  else if fhdr = MsgType.pingreq.code ∧ body = [] then some .pingreq
  else if fhdr = MsgType.disconnect.code ∧ body = [] then some .disconnect
  else none

/-- A packet after its first byte and the number of bytes of its body. -/
def readPacket : List UInt8 → Option (ControlPacket × List UInt8)
  | [] => none
  | fhdr :: bytes => (decode128 4 bytes).bind fun length =>
      (readBytes length.1 length.2).bind fun body =>
        (readBody fhdr body.1).map fun packet => (packet, body.2)

theorem readBytes_append_right {n : ℕ} {bytes body rest : List UInt8}
    (h : readBytes n bytes = some (body, rest)) (more : List UInt8) :
    readBytes n (bytes ++ more) = some (body, rest ++ more) := by
  unfold readBytes at h ⊢
  split_ifs at h with hle
  obtain ⟨rfl, rfl⟩ := Prod.mk.inj (Option.some.inj h)
  rw [if_pos (by rw [List.length_append]; omega), List.take_append_of_le_length hle,
    List.drop_append_of_le_length hle]

/-- The reader of a broker. -/
def packetReader : Reader ControlPacket UInt8 where
  read := readPacket
  read_nil := rfl
  read_append := by
    intro bytes packet rest h more
    cases bytes with
    | nil => exact absurd h nofun
    | cons fhdr bytes =>
      obtain ⟨⟨n, tail⟩, hn, h⟩ := Option.bind_eq_some_iff.mp h
      obtain ⟨⟨body, left⟩, hbody, h⟩ := Option.bind_eq_some_iff.mp h
      obtain ⟨p, hp, heq⟩ := Option.map_eq_some_iff.mp h
      obtain ⟨rfl, rfl⟩ := Prod.mk.inj heq
      rw [List.cons_append, readPacket, decode128_append_right hn, Option.bind_some,
        readBytes_append_right hbody, Option.bind_some, hp, Option.map_some]

/-- A framed body is read on its own when the announced length is its length. -/
theorem readPacket_frame {length bytes : List UInt8} {fhdr : UInt8} {n : ℕ}
    (h : encode128 4 n = some length) : readPacket (fhdr :: (length ++ bytes)) =
      (readBytes n bytes).bind fun body =>
        (readBody fhdr body.1).map fun packet => (packet, body.2) := by
  rw [readPacket, decode128_append h, Option.bind_some]

@[simp] theorem readBytes_length (bytes rest : List UInt8) :
    readBytes bytes.length (bytes ++ rest) = some (bytes, rest) := by
  simp [readBytes]

end NoiseLevel.Mqtt
