import Mathlib.Data.List.Basic

/-!
# The MQTT engine of a mote

One connection of `mqtt.c` with the event queue of `mqtt_process`. Handlers are atomic.
A protothread that has to wait posts `mqtt_continue_send_event` and keeps the process in
`PT_MQTT_WAIT_SEND`, where the events of the engine go back to the queue. What depends
on acknowledgements, timers, buffer space and free TCP connections is an argument. The
sensors never subscribe.
-/

namespace NoiseLevel.Mqtt

/-- `mqtt_conn_state_t`. -/
inductive ConnState where
  | error
  | dnsError
  | disconnecting
  | abortImmediate
  | notConnected
  | dnsLookup
  | tcpConnecting
  | tcpConnected
  | connectingToBroker
  | connectedToBroker
  | sendingMqttDisconnect
deriving DecidableEq

/-- The value of a state in the enumeration. -/
def ConnState.code : ConnState → ℕ
  | error => 0
  | dnsError => 1
  | disconnecting => 2
  | abortImmediate => 3
  | notConnected => 4
  | dnsLookup => 5
  | tcpConnecting => 6
  | tcpConnected => 7
  | connectingToBroker => 8
  | connectedToBroker => 9
  | sendingMqttDisconnect => 10

/-- The comparison by which `mqtt_connect` finds that it is already trying to connect. -/
def ConnState.InProgress (s : ConnState) : Prop := ConnState.notConnected.code < s.code

instance : DecidablePred ConnState.InProgress := fun _ => Nat.decLt _ _

theorem ConnState.inProgress_tcpConnecting : InProgress tcpConnecting := by decide

theorem ConnState.inProgress_tcpConnected : InProgress tcpConnected := by decide

theorem ConnState.inProgress_connectingToBroker : InProgress connectingToBroker := by decide

/-- `mqtt_event_t`. -/
inductive MqttEvent where
  | connected
  | disconnected
  | suback
  | unsuback
  | publish
  | puback
  | error
  | protocolError
  | connectionRefusedError
  | dnsError
  | notImplementedError
deriving DecidableEq

/-- `mqtt_status_t`, as far as `mqtt_publish` answers it. -/
inductive MqttStatus where
  | ok
  | outQueueFull
  | notConnectedError
deriving DecidableEq

/-- The events in the queue of `mqtt_process`. -/
inductive ProcessEvent where
  | doConnectTcp
  | doConnectMqtt
  | doDisconnectMqtt
  | doPublish
  | doPingreq
  | abortNow
  | continueSend
deriving DecidableEq

/-- The socket of the connection: cleared, opening or open. -/
inductive Socket where
  | none
  | connecting
  | established
deriving DecidableEq

/-- `keep_alive_timer`, which has no callback before it is first set. -/
inductive KeepAlive where
  | unset
  | stopped
  | running
deriving DecidableEq

/-- `ctimer_stop`. -/
def KeepAlive.stop : KeepAlive → KeepAlive
  | unset => unset
  | _ => stopped

theorem KeepAlive.stop_ne_running (k : KeepAlive) : k.stop ≠ running := by
  cases k <;> exact nofun

/-- `ctimer_restart`. -/
def KeepAlive.restart : KeepAlive → KeepAlive
  | unset => unset
  | _ => running

/-- The packets that are sent by a protothread. -/
inductive Packet where
  | connect
  | disconnect
  | pingreq
  | publish
deriving DecidableEq

/-- The protothread that `mqtt_process` drives, and whether it still has to write. -/
structure Sending where
  packet : Packet
  writing : Bool
deriving DecidableEq

/-- How far a protothread comes when it is run: its buffer is full, it waits for the
answer, or it ends, with its timer expired or not. -/
inductive Progress where
  | blocked
  | waiting
  | finished (expired : Bool)
deriving DecidableEq

/-- A run that does not end: its result is below `PT_EXITED`. -/
def Progress.pending : Progress → Bool
  | finished _ => false
  | _ => true

/-- A connection and the process that serves it. -/
structure Engine where
  state : ConnState
  socket : Socket
  queue : List ProcessEvent
  sending : Option Sending
  outBufferSent : Bool
  outQueueFull : Bool
  waitingForPingresp : Bool
  keepAlive : KeepAlive
  autoReconnect : Bool
deriving DecidableEq

namespace Engine

/-- The memory before any call. -/
def boot : Engine where
  state := .error
  socket := .none
  queue := []
  sending := none
  outBufferSent := false
  outQueueFull := false
  waitingForPingresp := false
  keepAlive := .unset
  autoReconnect := false

/-- `process_post` to `mqtt_process`. -/
def post (ev : ProcessEvent) (e : Engine) : Engine := { e with queue := e.queue ++ [ev] }

/-- `abort_connection`. -/
def abortConnection (e : Engine) : Engine :=
  { e with outQueueFull := false, socket := .none, state := .notConnected }

/-- `connect_tcp`; there may be no free TCP connection. -/
def connectTcp (free : Bool) (e : Engine) : Engine :=
  { e with
    state := .tcpConnecting
    waitingForPingresp := false
    outBufferSent := false
    socket := if free then .connecting else .none }

/-- `disconnect_tcp`. -/
def disconnectTcp (e : Engine) : Engine := { e with state := .disconnecting, socket := .none }

/-- `keep_alive_callback`. -/
def keepAliveCallback (e : Engine) : Engine :=
  if e.waitingForPingresp then { e with keepAlive := .stopped }.disconnectTcp
  else { e with keepAlive := .stopped }.post .doPingreq

/-- `handle_connack` with the return code of the broker. -/
def handleConnack (code : ℕ) (e : Engine) : Engine × List MqttEvent :=
  if code ≠ 0 then (e.abortConnection, [.connectionRefusedError])
  else ({ e with keepAlive := .running, state := .connectedToBroker }, [.connected])

/-- `mqtt_register`. -/
def mqttRegister (e : Engine) : Engine :=
  { e with
    state := .error
    socket := .none
    outBufferSent := false
    outQueueFull := false
    waitingForPingresp := false
    keepAlive := .unset
    autoReconnect := true }

/-- `mqtt_connect` to a broker whose address is well formed. -/
def mqttConnect (e : Engine) : Engine :=
  if e.state.InProgress then e else e.post .doConnectTcp

/-- `mqtt_disconnect`. -/
def mqttDisconnect (e : Engine) : Engine :=
  if e.state ≠ .connectedToBroker then e
  else { e with state := .sendingMqttDisconnect }.post .doDisconnectMqtt

/-- `mqtt_publish`. -/
def mqttPublish (e : Engine) : Engine :=
  if e.state ≠ .connectedToBroker then e
  else if e.outQueueFull then e
  else { e with outQueueFull := true }.post .doPublish

/-- What `mqtt_publish` answers. -/
def mqttPublishStatus (e : Engine) : MqttStatus :=
  if e.state ≠ .connectedToBroker then .notConnectedError
  else if e.outQueueFull then .outQueueFull
  else .ok

/-- `mqtt_ready`. -/
def mqttReady (e : Engine) : Bool := !e.outQueueFull && e.state == .connectedToBroker

/-- `tcp_event` for a connection that was closed, timed out or aborted. -/
def tcpEventClosed (free : Bool) (e : Engine) : Engine × List MqttEvent :=
  let e := { e.post .abortNow with keepAlive := e.keepAlive.stop }.abortConnection
  (if e.autoReconnect then e.connectTcp free else e, [.disconnected])

/-- `tcp_event` for a connection that was opened. -/
def tcpEventConnected (e : Engine) : Engine :=
  { e with state := .tcpConnected, outBufferSent := true, socket := .established }.post
    .doConnectMqtt

/-- `tcp_event` for acknowledged data, which may leave nothing to send. -/
def tcpEventDataSent (all : Bool) (e : Engine) : Engine :=
  { e with
    outBufferSent := e.outBufferSent || all
    keepAlive := e.keepAlive.restart }

/-- A protothread has written its packet: `send_out_buffer` and what follows it. -/
def written (e : Engine) : Packet → Engine
  | .connect => { e with outBufferSent := false, state := .connectingToBroker }
  | .pingreq => { e with outBufferSent := false, waitingForPingresp := true }
  | .disconnect | .publish => { e with outBufferSent := false }

/-- A protothread is past its last wait. -/
def ended (e : Engine) (expired : Bool) : Packet → Engine
  | .connect => if expired then e.mqttDisconnect else e
  | .pingreq => { e with waitingForPingresp := false }
  | .publish => { e with outQueueFull := false }
  | .disconnect => e

/-- One run of the protothread. -/
def runPt (e : Engine) (s : Sending) (r : Progress) : Engine :=
  match s.writing, r with
  | true, .blocked => { e with outBufferSent := false }
  | true, .waiting => e.written s.packet
  | true, .finished expired => (e.written s.packet).ended expired s.packet
  | false, .finished expired => e.ended expired s.packet
  | false, _ => e

/-- `PT_MQTT_WAIT_SEND`. -/
def waitSend (e : Engine) (s : Sending) (r : Progress) : Engine :=
  { e with
    sending := some ⟨s.packet, s.writing && decide (r = Progress.blocked)⟩ }.post .continueSend

/-- The process is back in its main loop. -/
def leave (e : Engine) : Engine := { e with sending := none }

/-- A round of the loop around `connect_pt`, which looks for an abort after the run. -/
def connectRound (e : Engine) (s : Sending) (r : Progress) : Engine × List MqttEvent :=
  if r.pending ∧ (e.runPt s r).state ≠ .abortImmediate then ((e.runPt s r).waitSend s r, [])
  else ((e.runPt s r).leave, [])

/-- A round of the loop around `disconnect_pt`, which looks for an abort before the run. -/
def disconnectRound (e : Engine) (s : Sending) (r : Progress) : Engine × List MqttEvent :=
  if e.state = .abortImmediate then (e.leave.abortConnection, [.disconnected])
  else if r.pending then ((e.runPt s r).waitSend s r, [])
  else ((e.runPt s r).leave.abortConnection, [.disconnected])

/-- A round of the loops around `pingreq_pt` and `publish_pt`, which run while the broker is
connected. -/
def connectedRound (e : Engine) (s : Sending) (r : Progress) : Engine × List MqttEvent :=
  if e.state ≠ .connectedToBroker then (e.leave, [])
  else if r.pending then ((e.runPt s r).waitSend s r, [])
  else ((e.runPt s r).leave, [])

/-- One round of the loop around the protothread of a packet. -/
def sendRound (e : Engine) (s : Sending) (r : Progress) : Engine × List MqttEvent :=
  match s.packet with
  | .connect => e.connectRound s r
  | .disconnect => e.disconnectRound s r
  | .pingreq | .publish => e.connectedRound s r

/-- The main loop of `mqtt_process` takes an event. -/
def process (ev : ProcessEvent) (r : Progress) (free : Bool) (e : Engine) :
    Engine × List MqttEvent :=
  match ev with
  | .abortNow => ({ e with state := .abortImmediate }.abortConnection, [])
  | .doConnectTcp => (e.connectTcp free, [])
  | .doConnectMqtt => if e.outBufferSent then e.connectRound ⟨.connect, true⟩ r else (e, [])
  | .doDisconnectMqtt =>
    if e.state = .sendingMqttDisconnect then
      if e.outBufferSent then e.disconnectRound ⟨.disconnect, true⟩ r
      else (e.post .doDisconnectMqtt, [])
    else (e, [])
  | .doPingreq =>
    if e.outBufferSent ∧ e.state = .connectedToBroker then e.connectedRound ⟨.pingreq, true⟩ r
    else (e, [])
  | .doPublish =>
    if e.outBufferSent ∧ e.state = .connectedToBroker then e.connectedRound ⟨.publish, true⟩ r
    else (e, [])
  | .continueSend => (e, [])

/-- `PT_MQTT_WAIT_SEND` takes an event. -/
def processWaiting (s : Sending) (ev : ProcessEvent) (r : Progress) (e : Engine) :
    Engine × List MqttEvent :=
  match ev with
  | .abortNow =>
    ({ e with state := .abortImmediate, sending := some ⟨s.packet, true⟩ }.post .abortNow, [])
  | .continueSend => e.sendRound s r
  | ev => (e.post ev, [])

/-- What reaches the engine from outside the application. -/
inductive Input where
  | dispatch (r : Progress) (free : Bool)
  | connack (code : ℕ)
  | puback
  | tcpConnected
  | tcpClosed (free : Bool)
  | tcpDataSent (all : Bool)
  | keepAlive
deriving DecidableEq

/-- When an input can reach the engine. -/
def Enabled (e : Engine) : Input → Prop
  | .dispatch _ _ => e.queue ≠ []
  | .connack _ | .puback | .tcpDataSent _ => e.socket = .established
  | .tcpConnected => e.socket = .connecting
  | .tcpClosed _ => e.socket ≠ .none
  | .keepAlive => e.keepAlive = .running

instance (e : Engine) : DecidablePred e.Enabled
  | .dispatch _ _ => inferInstanceAs (Decidable (e.queue ≠ []))
  | .connack _ | .puback | .tcpDataSent _ => inferInstanceAs (Decidable (e.socket = .established))
  | .tcpConnected => inferInstanceAs (Decidable (e.socket = .connecting))
  | .tcpClosed _ => inferInstanceAs (Decidable (e.socket ≠ .none))
  | .keepAlive => inferInstanceAs (Decidable (e.keepAlive = .running))

/-- Nothing reaches an engine that was never used. -/
theorem not_enabled_boot (i : Input) : ¬ boot.Enabled i := by
  cases i with
  | dispatch => exact fun h => h rfl
  | tcpClosed => exact fun h => h rfl
  | _ => exact nofun

/-- The effect of an input and the events that it raises in the application. -/
def receive (e : Engine) : Input → Engine × List MqttEvent
  | .dispatch r free =>
    match e.queue with
    | [] => (e, [])
    | ev :: rest =>
      match e.sending with
      | none => { e with queue := rest }.process ev r free
      | some s => { e with queue := rest }.processWaiting s ev r
  | .connack code => e.handleConnack code
  | .puback => (e, [.puback])
  | .tcpConnected => (e.tcpEventConnected, [])
  | .tcpClosed free => e.tcpEventClosed free
  | .tcpDataSent all => (e.tcpEventDataSent all, [])
  | .keepAlive => (e.keepAliveCallback, [])

end Engine

end NoiseLevel.Mqtt
