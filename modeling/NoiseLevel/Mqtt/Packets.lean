import NoiseLevel.Mqtt.ControlPacket

/-!
# What the protothreads write

Each protothread of `mqtt.c` hands its packet to the writer byte by byte and text by text.
A length or a message identifier of 16 bits is written as two bytes; where the source
shifts to the left instead of to the right, the upper byte is always 0. A packet has no
writes when the digits of its remaining length do not fit into the array for them.
-/

namespace NoiseLevel.Mqtt

open NoiseLevel.Core

/-- `PT_MQTT_WRITE_BYTE` and `PT_MQTT_WRITE_BYTES`, of no more bytes than there are. -/
inductive WriteOp where
  | byte (data : UInt8)
  | bytes (data : List UInt8) (len : UInt16) (h : len.toNat ≤ data.length)
deriving DecidableEq

/-- What is written. -/
def WriteOp.content : WriteOp → List UInt8
  | byte data => [data]
  | bytes data len _ => data.take len.toNat

/-- What a list of writes adds to the stream. -/
def written (ops : List WriteOp) : List UInt8 := ops.flatMap WriteOp.content

/-- `mqtt_qos_level_t`. -/
inductive QosLevel where
  | level0
  | level1
  | level2
deriving DecidableEq

/-- The value of a level. -/
def QosLevel.code : QosLevel → UInt8
  | level0 => 0
  | level1 => 1
  | level2 => 2

/-- `strlen` and other sizes as a `uint16_t`. -/
def size16 (data : List UInt8) : UInt16 := UInt16.ofNat data.length

theorem toNat_size16 (data : List UInt8) : (size16 data).toNat = data.length % 2 ^ 16 :=
  UInt16.toNat_ofNat'

theorem size16_le (data : List UInt8) : (size16 data).toNat ≤ data.length := by
  rw [toNat_size16]
  exact Nat.mod_le _ _

/-- `write_byte` of `n >> 8`. -/
def writeHigh (n : UInt16) : WriteOp := .byte (UInt8.ofNat (n.toNat >>> 8))

/-- `write_byte` of `n << 8`. -/
def writeShifted (n : UInt16) : WriteOp := .byte (UInt8.ofNat (n.toNat <<< 8))

/-- `write_byte` of `n & 0x00FF`. -/
def writeLow (n : UInt16) : WriteOp := .byte (UInt8.ofNat (n.toNat &&& 0x00FF))

/-- `write_bytes` of a whole text. -/
def writeText (data : List UInt8) : WriteOp := .bytes data (size16 data) (size16_le data)

/-- `encode_remaining_length` into `remaining_length_enc`, of a `uint32_t`. -/
def encodeRemainingLength (length : ℕ) : Option (List UInt8) := encode128 4 (length % 2 ^ 32)

/-- The fixed header and what follows it. -/
def withHeader (fhdr : UInt8) (remainingLength : ℕ) (ops : List WriteOp) :
    Option (List WriteOp) :=
  (encodeRemainingLength remainingLength).map fun enc => .byte fhdr :: writeText enc :: ops

/-- `mqtt_string`. -/
structure MqttString where
  string : Option (List UInt8)
  length : UInt16
  length_eq : length = size16 (string.getD [])
deriving DecidableEq

namespace MqttString

/-- `string_to_mqtt_string`. -/
def ofString : Option (List UInt8) → MqttString
  | some string => ⟨some string, size16 string, rfl⟩
  | none => ⟨none, 0, rfl⟩

variable (s : MqttString)

/-- `MQTT_STRING_LENGTH`. -/
def stringLength : ℕ := if s.length = 0 then 0 else 2 + s.length.toNat

/-- The bytes of the string. -/
def text : List UInt8 := s.string.getD []

/-- The length and the bytes of a string in `connect_pt`. -/
def writes : List WriteOp :=
  [writeShifted s.length, writeLow s.length,
    .bytes s.text s.length (s.length_eq ▸ size16_le s.text)]

end MqttString

/-- What `connect_pt` reads of the connection. -/
structure ConnectSettings where
  clientId : MqttString
  connectVhdrFlags : UInt8
  keepAlive : UInt16
  willTopic : MqttString
  willMessage : MqttString
  username : MqttString
  password : MqttString
deriving DecidableEq

namespace ConnectSettings

/-- `mqtt_register`, for a client whose identifier is not empty. -/
def register (clientId : List UInt8) : ConnectSettings where
  clientId := .ofString clientId
  connectVhdrFlags := 0
  keepAlive := 0
  willTopic := ⟨none, 0, rfl⟩
  willMessage := ⟨none, 0, rfl⟩
  username := ⟨none, 0, rfl⟩
  password := ⟨none, 0, rfl⟩

/-- Sets or clears a flag. -/
def setFlag (flag : VhdrFlag) (on : Bool) (flags : UInt8) : UInt8 :=
  if on then flags ||| flag.mask else flags &&& ~~~flag.mask

variable (s : ConnectSettings)

/-- `mqtt_set_username_password`. -/
def setUsernamePassword (username password : Option (List UInt8)) : ConnectSettings :=
  { s with
    username := .ofString username
    password := .ofString password
    connectVhdrFlags := setFlag .password password.isSome
      (setFlag .username username.isSome s.connectVhdrFlags) }

/-- `mqtt_set_last_will`. -/
def setLastWill (topic message : Option (List UInt8)) : ConnectSettings :=
  { s with
    willTopic := .ofString topic
    willMessage := .ofString message
    connectVhdrFlags :=
      if topic.isSome then s.connectVhdrFlags ||| (VhdrFlag.will.mask ||| VhdrFlag.willRetain.mask)
      else s.connectVhdrFlags }

/-- `mqtt_connect`, as far as `connect_pt` reads it. -/
def connect (keepAlive : UInt16) : ConnectSettings :=
  { s with
    keepAlive := keepAlive
    connectVhdrFlags := s.connectVhdrFlags ||| VhdrFlag.cleanSession.mask }

/-- The remaining length, with `MQTT_CONNECT_VHDR_FLAGS_SIZE`. -/
def remainingLength : ℕ :=
  12 + s.clientId.stringLength + s.username.stringLength + s.password.stringLength +
    s.willTopic.stringLength + s.willMessage.stringLength

/-- A flag is set. -/
def Has (flag : VhdrFlag) : Bool := flag.In s.connectVhdrFlags

/-- The strings that `connect_pt` writes, in their order, where their flags are set. -/
def strings : List (Option MqttString) :=
  [some s.clientId, if s.Has .will then some s.willTopic else none,
    if s.Has .will then some s.willMessage else none,
    if s.Has .username then some s.username else none,
    if s.Has .password then some s.password else none]

/-- The variable header up to the strings. -/
def vhdr : List WriteOp :=
  [.byte 0, .byte 6, .bytes mqttProtocolName 6 le_rfl, .byte mqttProtocolVersion,
    .byte s.connectVhdrFlags, writeHigh s.keepAlive, writeLow s.keepAlive]

/-- `connect_pt`. -/
def connectPt : Option (List WriteOp) :=
  withHeader MsgType.connect.code s.remainingLength
    (s.vhdr ++ s.strings.flatMap fun string => (string.map MqttString.writes).getD [])

/-- What a broker should read of a CONNECT. -/
def request : ConnectRequest where
  flags := s.connectVhdrFlags
  keepAlive := s.keepAlive.toNat
  clientId := s.clientId.text
  willTopic := if s.Has .will then some s.willTopic.text else none
  willMessage := if s.Has .will then some s.willMessage.text else none
  username := if s.Has .username then some s.username.text else none
  password := if s.Has .password then some s.password.text else none

end ConnectSettings

/-- `mqtt_out_packet`, as far as it is set before the protothread starts. -/
structure OutPacket where
  mid : UInt16
  topic : List UInt8
  payload : List UInt8
  qos : QosLevel
  retain : Bool
deriving DecidableEq

namespace OutPacket

variable (p : OutPacket)

/-- The length of the topic and its bytes. -/
def topicWrites : List WriteOp :=
  [writeHigh (size16 p.topic), writeLow (size16 p.topic), writeText p.topic]

/-- The message identifier. -/
def midWrites : List WriteOp := [writeShifted p.mid, writeLow p.mid]

/-- The first byte of a PUBLISH. -/
def publishFhdr : UInt8 :=
  if p.retain then MsgType.publish.code ||| p.qos.code <<< 1 ||| 0x01
  else MsgType.publish.code ||| p.qos.code <<< 1

/-- `publish_pt`. -/
def publishPt : Option (List WriteOp) :=
  withHeader p.publishFhdr
    (2 + (size16 p.topic).toNat + p.payload.length + if p.qos = .level0 then 0 else 2)
    (p.topicWrites ++ (if p.qos = .level0 then [] else p.midWrites) ++ [writeText p.payload])

/-- `subscribe_pt`. -/
def subscribePt : Option (List WriteOp) :=
  withHeader (MsgType.subscribe.code ||| 0x02) (2 + 2 + (size16 p.topic).toNat + 1)
    (p.midWrites ++ p.topicWrites ++ [.byte p.qos.code])

/-- `unsubscribe_pt`. -/
def unsubscribePt : Option (List WriteOp) :=
  withHeader (MsgType.unsubscribe.code ||| 0x02) (2 + 2 + (size16 p.topic).toNat)
    (p.midWrites ++ p.topicWrites)

end OutPacket

/-- `disconnect_pt`. -/
def disconnectPt : List WriteOp := [.byte MsgType.disconnect.code, .byte 0]

/-- `pingreq_pt`. -/
def pingreqPt : List WriteOp := [.byte MsgType.pingreq.code, .byte 0]

/-- A packet that a protothread is about to send. -/
inductive Outgoing where
  | connect (s : ConnectSettings)
  | publish (p : OutPacket)
  | subscribe (p : OutPacket)
  | unsubscribe (p : OutPacket)
  | pingreq
  | disconnect
deriving DecidableEq

namespace Outgoing

/-- The writes of its protothread. -/
def ops : Outgoing → Option (List WriteOp)
  | connect s => s.connectPt
  | publish p => p.publishPt
  | subscribe p => p.subscribePt
  | unsubscribe p => p.unsubscribePt
  | pingreq => some pingreqPt
  | disconnect => some disconnectPt

/-- What its protothread writes. -/
def bytes (o : Outgoing) : List UInt8 := (o.ops.map written).getD []

/-- What a broker should read. -/
def meaning : Outgoing → ControlPacket
  | connect s => .connect s.request
  | publish p => .publish p.retain p.qos.code.toNat p.topic
      (if p.qos = .level0 then none else some p.mid.toNat) p.payload
  | subscribe p => .subscribe p.mid.toNat p.topic p.qos.code
  | unsubscribe p => .unsubscribe p.mid.toNat p.topic
  | pingreq => .pingreq
  | disconnect => .disconnect

end Outgoing

end NoiseLevel.Mqtt
