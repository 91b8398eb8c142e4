import NoiseLevel.Core.Memcpy
import NoiseLevel.Core.Transition
import NoiseLevel.Mqtt.Packets

/-!
# From the writer to the network

The writer of `mqtt.c`, the socket of `tcp-socket.c` and the sending side of `uip6.c`, for
one connection from its opening to its end. The writer fills `out_buffer`, which is the
output buffer of the socket as well, and waits until all of it was acknowledged. uIP has
one segment outstanding and asks the socket for the same bytes again when it repeats it;
what the socket does not give again it fills with what its own buffer holds. The socket
copies inside its buffer between areas that overlap, which C leaves open for `memcpy`: the
routine is a parameter.
-/

namespace NoiseLevel.Mqtt

open NoiseLevel.Core

/-- `MQTT_TCP_OUTPUT_BUFF_SIZE`. -/
def outputBuffSize : ℕ := 512

/-- The sending side of a connection. -/
structure Sender where
  /-- `out_buffer`, at which `output_data_ptr` of the socket points too. -/
  outBuffer : List UInt8
  /-- `out_buffer_ptr`, as a position. -/
  outBufferPtr : ℕ
  outBufferSent : Bool
  outWritePos : ℕ
  /-- What the protothread has not written, the write that it is at first. -/
  ops : List WriteOp
  outputDataLen : ℕ
  outputSenddataLen : ℕ
  outputDataSendNxt : ℕ
  outputDataMaxSeg : ℕ
  /-- `len` of `uip_conn`, the number of outstanding bytes. -/
  len : ℕ
  mss : ℕ
  /-- The copies of the outstanding segment on their way. -/
  copies : List (List UInt8)
  /-- What the other side has acknowledged. -/
  received : List UInt8
deriving DecidableEq

/-- What a write that has come so far still has to write. -/
def WriteOp.rest : WriteOp → ℕ → List UInt8
  | byte data, _ => [data]
  | bytes data len _, pos => (data.take len.toNat).drop pos

namespace Sender

variable (memcpy : Memcpy UInt8) (c : Sender)

/-- The bytes that the protothread has not written. -/
def pending : List UInt8 :=
  match c.ops with
  | [] => []
  | op :: ops => op.rest c.outWritePos ++ written ops

/-- `tcp_socket_send` of the first bytes of `out_buffer`. -/
def tcpSocketSend (datalen : ℕ) : Sender :=
  let len := min datalen (outputBuffSize - c.outputDataLen)
  { c with
    outBuffer := memcpy c.outBuffer c.outputDataLen 0 len
    outputDataLen := c.outputDataLen + len
    outputSenddataLen :=
      if c.outputSenddataLen = 0 then c.outputDataLen + len else c.outputSenddataLen }

/-- `send_out_buffer`. -/
def sendOutBuffer : Sender :=
  if c.outBufferPtr = 0 then { c with outBufferSent := true }
  else { c with outBufferSent := false }.tcpSocketSend memcpy c.outBufferPtr

/-- `write_byte`, and whether it has to be called again. -/
def writeByte (data : UInt8) : Bool × Sender :=
  if outputBuffSize - c.outBufferPtr = 0 then (true, c.sendOutBuffer memcpy)
  else
    (false, { c with
      outBuffer := overwrite c.outBuffer c.outBufferPtr [data]
      outBufferPtr := c.outBufferPtr + 1 })

/-- `write_bytes`, and whether it has to be called again. -/
def writeBytes (data : List UInt8) (len : ℕ) : Bool × Sender :=
  let n := min (outputBuffSize - c.outBufferPtr) (len - c.outWritePos)
  let c := { c with
    outBuffer := overwrite c.outBuffer c.outBufferPtr ((data.drop c.outWritePos).take n)
    outWritePos := c.outWritePos + n
    outBufferPtr := c.outBufferPtr + n }
  if len - c.outWritePos = 0 then (false, { c with outWritePos := 0 })
  else (true, c.sendOutBuffer memcpy)

/-- One turn of the loop of `PT_MQTT_WRITE_BYTE` or `PT_MQTT_WRITE_BYTES`. -/
def attempt : WriteOp → Bool × Sender
  | .byte data => c.writeByte memcpy data
  | .bytes data len _ => c.writeBytes memcpy data len.toNat

/-- What the macros do before their loop. -/
def enter : WriteOp → Sender
  | .byte _ => c
  | .bytes _ _ _ => { c with outWritePos := 0 }

/-- A protothread from the start of a write on. A write that has to be called again waits for
`out_buffer_sent`, which was just cleared; after the last one comes `send_out_buffer`. -/
def runWrites : List WriteOp → Sender → Sender
  | [], c => { c with ops := [] }.sendOutBuffer memcpy
  | op :: ops, c =>
    let r := (c.enter op).attempt memcpy op
    if r.1 then { r.2 with ops := op :: ops } else runWrites ops r.2

/-- A protothread that is run again. -/
def resume : Sender :=
  match c.ops with
  | [] => c
  | op :: ops =>
    if c.outBufferSent then
      let r := c.attempt memcpy op
      if r.1 then { r.2 with ops := op :: ops } else runWrites memcpy ops r.2
    else c

/-- `senddata`, with the number of bytes that it hands to `uip_send`. -/
def senddata : ℕ × Sender :=
  if 0 < c.outputSenddataLen then
    let len := min c.outputSenddataLen (min c.outputDataMaxSeg c.mss)
    (len, { c with outputDataSendNxt := len })
  else (0, c)

/-- `tcp_event` for `TCP_SOCKET_DATA_SENT`. -/
def dataSent : Sender :=
  if c.outputDataLen = 0 then { c with outBufferSent := true, outBufferPtr := 0 } else c

/-- `acked`, which aborts the connection when more was acknowledged than there is. -/
def acked : Option Sender :=
  if 0 < c.outputSenddataLen then
    let c :=
      if 0 < c.outputDataSendNxt then
        { c with
          outBuffer := memcpy c.outBuffer 0 c.outputDataSendNxt
            (outputBuffSize - c.outputDataSendNxt) }
      else c
    if c.outputDataLen < c.outputDataSendNxt then none
    else
      some { c with
        outputDataLen := c.outputDataLen - c.outputDataSendNxt
        outputSenddataLen := c.outputDataLen - c.outputDataSendNxt
        outputDataSendNxt := 0 }.dataSent
  else some c

/-- A segment leaves with as many bytes as are outstanding; the application has given the
first `slen` of them, and behind these is what was in the buffer of uIP. -/
def transmit (slen : ℕ) (stale : List UInt8) : Sender :=
  if 0 < slen ∧ 0 < c.len then
    { c with copies := c.copies ++ [(c.outBuffer.take slen ++ stale).take c.len] }
  else c

/-- `appsend` in `uip_process`. -/
def appsend (slen : ℕ) (stale : List UInt8) : Sender :=
  if 0 < slen ∧ c.len = 0 then { c with len := min slen c.mss }.transmit slen stale
  else c.transmit slen stale

/-- What happens to the sending side. -/
inductive Event where
  /-- `mqtt_process` starts the protothread of a packet. -/
  | start (o : Outgoing)
  /-- `mqtt_process` runs the protothread again. -/
  | resume
  /-- `mqtt_process` leaves the loop around the protothread, which has not written these bytes. -/
  | leave (unwritten : List UInt8)
  /-- uIP polls the connection. -/
  | poll
  /-- The timer of the outstanding segment expires. -/
  | rexmit (stale : List UInt8)
  /-- A segment comes in, which may acknowledge what is outstanding, of which the other side
  has this copy; it may have data, and it tells how much may be sent. -/
  | segment (acks : Option (List UInt8)) (newData : Bool) (mss : ℕ) (stale : List UInt8)
deriving DecidableEq

/-- When an event can happen. A packet is started only when everything was sent, and outside of
the loop around the one before it. -/
def Enabled : Event → Prop
  | .start o => c.outBufferSent = true ∧ c.ops = [] ∧ o.ops.isSome = true
  | .resume => True
  | .leave unwritten => unwritten = c.pending
  | .poll => c.len = 0
  | .rexmit _ => c.len ≠ 0
  | .segment none _ _ _ => True
  | .segment (some copy) _ _ _ => c.len ≠ 0 ∧ copy ∈ c.copies

instance : DecidablePred c.Enabled
  | .start o =>
    inferInstanceAs (Decidable (c.outBufferSent = true ∧ c.ops = [] ∧ o.ops.isSome = true))
  | .resume => inferInstanceAs (Decidable True)
  | .leave unwritten => inferInstanceAs (Decidable (unwritten = c.pending))
  | .poll => inferInstanceAs (Decidable (c.len = 0))
  | .rexmit _ => inferInstanceAs (Decidable (c.len ≠ 0))
  | .segment none _ _ _ => inferInstanceAs (Decidable True)
  | .segment (some copy) _ _ _ => inferInstanceAs (Decidable (c.len ≠ 0 ∧ copy ∈ c.copies))

/-- The application sends, and uIP with it. -/
def send (stale : List UInt8) : Sender := c.senddata.2.appsend c.senddata.1 stale

/-- The effect of an event, which has none when the connection is aborted. -/
def next : Event → Option Sender
  | .start o => o.ops.map fun ops => runWrites memcpy ops c
  | .resume => some (c.resume memcpy)
  | .leave _ => some { c with ops := [] }
  | .poll => some (c.send [])
  | .rexmit stale => some (c.senddata.2.transmit c.senddata.1 stale)
  | .segment none false mss _ => some { c with mss := mss }
  | .segment none true mss stale => some ({ c with mss := mss }.send stale)
  | .segment (some copy) _ mss stale =>
    { c with mss := mss, len := 0, copies := [], received := c.received ++ copy }.acked memcpy
      |>.map fun d : Sender => d.send stale

/-- The runs of the sending side. -/
def system : System Sender Event where
  step c e d := c.Enabled e ∧ c.next memcpy e = some d

end Sender

end NoiseLevel.Mqtt
