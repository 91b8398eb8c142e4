import NoiseLevel.Mqtt.Engine
import NoiseLevel.Sensor.Window

/-!
# The state machine of the sensors

`mqtt_event` and `mqtt_state_machine` of both sensor programs over the variables they
share: the state, the counter of attempts, the radio channel, the window and the timer.
What the machine asks of the rest of the mote is an argument of a tick, and its calls to
the MQTT engine are returned in order.
-/

namespace NoiseLevel.Sensor

open Backend Mqtt

/-- The `STATE_` constants. -/
inductive AppState where
  | init
  | registered
  | connecting
  | connected
  | disconnected
  | newconfig
  | sampling
  | configError
  | error
deriving DecidableEq

/-- `NOISE_CHANNEL`. -/
def noiseChannel : ℕ := 5

/-- `RPL_CHANNEL`. -/
def rplChannel : ℕ := 26

/-- `CLOCK_SECOND` of the simulated platform. -/
def clockSecond : ℕ := 1000

/-- `STATE_MACHINE_PERIODIC`. -/
def stateMachinePeriodic : ℕ := clockSecond >>> 1

/-- `NET_CONNECT_PERIODIC`. -/
def netConnectPeriodic : ℕ := clockSecond >>> 2

/-- `RECONNECT_INTERVAL`. -/
def reconnectInterval : ℕ := clockSecond * 2

/-- `DEFAULT_PUBLISH_INTERVAL`, the value of `conf.pub_interval`. -/
def pubInterval : ℕ := 10 * clockSecond

/-- The time on the noise channel before a reading, a tenth of a second. -/
def samplingInterval : ℕ := clockSecond / 10

/-- `RETRY_FOREVER`. -/
def retryForever : ℕ := 0xFF

/-- `RECONNECT_ATTEMPTS`. -/
def reconnectAttempts : ℕ := retryForever

/-- `BUFFER_SIZE`. -/
def bufferSize : ℤ := 64

/-- The variables of a sensor process and the radio it tunes. -/
structure App where
  state : AppState
  /-- `connect_attempt`, an 8-bit counter. -/
  connectAttempt : ℕ
  /-- `simRadioChannel`. -/
  channel : ℕ
  window : Window
  /-- The interval that `mqtt_timer` was last set to. -/
  mqttTimer : Option ℕ
deriving DecidableEq

/-- A call to the MQTT engine, or the assignment to `conn.auto_reconnect`. -/
inductive Call where
  | register
  | setAutoReconnect (b : Bool)
  | connect
  | disconnect
  | publish (message : Json)

/-- What a tick asks of the rest of the mote. -/
structure Answers where
  /-- `uip_ds6_get_global(ADDR_PREFERRED) != NULL`. -/
  globalAddress : Bool
  /-- `mqtt_ready(&conn)`. -/
  ready : Bool
  /-- `conn.out_buffer_sent`. -/
  outBufferSent : Bool
  /-- `timer_expired(&connection_life)`. -/
  lifeExpired : Bool
  /-- The next reading. -/
  sample : Sample
deriving DecidableEq

namespace App

/-- `mqtt_event`. -/
def mqttEvent (a : App) : MqttEvent → App
  | .connected => { a with state := .connected }
  | .disconnected => { a with state := .disconnected }
  | _ => a

/-- `update_config`, where the lengths are the results of the two `snprintf`. -/
def updateConfig (clientIdLen pubTopicLen : ℤ) (a : App) : App :=
  if clientIdLen < 0 ∨ bufferSize ≤ clientIdLen then { a with state := .configError }
  else if pubTopicLen < 0 ∨ bufferSize ≤ pubTopicLen then { a with state := .configError }
  else { a with state := .init, mqttTimer := some 0 }

/-- The process up to its loop. -/
def boot (clientIdLen pubTopicLen : ℤ) : App :=
  updateConfig clientIdLen pubTopicLen
    { state := .init
      connectAttempt := 0
      channel := rplChannel
      window := initNoiseValues
      mqttTimer := none }

variable (p : Program) (ans : Answers) (a : App)

/-- `noise_processing`: only the program with a microphone retunes the radio. -/
def noiseProcessing : App × List Call :=
  ({ a with
    window := (p.noiseProcessing a.window ans.sample).1
    channel := if p = .noiseSensor then rplChannel else a.channel },
    [.publish (p.noiseProcessing a.window ans.sample).2])

/-- `STATE_REGISTERED`: `connect_to_broker` once there is an address. -/
def tickRegistered : App × List Call :=
  ({ a with
    state := if ans.globalAddress then .connecting else a.state
    mqttTimer := some netConnectPeriodic },
    if ans.globalAddress then [.connect] else [])

/-- `STATE_INIT`, which continues with `STATE_REGISTERED`. -/
def tickInit : App × List Call :=
  let r := tickRegistered ans { a with connectAttempt := 1, state := .registered }
  (r.1, [.register, .setAutoReconnect false] ++ r.2)

/-- `STATE_CONNECTED` when the last message is out. -/
def tickReady : App × List Call :=
  match p with
  | .noiseSensor =>
    ({ a with channel := noiseChannel, state := .sampling, mqttTimer := some samplingInterval }, [])
  | .noiseSimulatedSensor =>
    let r := noiseProcessing p ans a
    ({ r.1 with state := .connected, mqttTimer := some pubInterval }, r.2)

/-- `STATE_CONNECTED`. -/
def tickConnected : App × List Call :=
  let b := if ans.lifeExpired then { a with connectAttempt := 0 } else a
  if ans.ready ∧ ans.outBufferSent then tickReady p ans b
  else ({ b with mqttTimer := some stateMachinePeriodic }, [])

/-- `STATE_SAMPLING`, which the other program does not have. -/
def tickSampling : App × List Call :=
  match p with
  | .noiseSensor =>
    let r := noiseProcessing p ans a
    ({ r.1 with state := .connected, mqttTimer := some pubInterval }, r.2)
  | .noiseSimulatedSensor => (a, [])

/-- The backoff after the given number of attempts. -/
def retryInterval (attempt : ℕ) : ℕ :=
  if attempt < 3 then reconnectInterval <<< attempt else reconnectInterval <<< 3

/-- `STATE_DISCONNECTED`. -/
def tickDisconnected : App × List Call :=
  if a.connectAttempt < reconnectAttempts ∨ reconnectAttempts = retryForever then
    let attempt := (a.connectAttempt + 1) % 2 ^ 8
    ({ a with
      connectAttempt := attempt
      mqttTimer := some (retryInterval attempt)
      state := .registered }, [.disconnect])
  else ({ a with state := .error, mqttTimer := some stateMachinePeriodic }, [])

/-- The sensors never give up. -/
theorem tickDisconnected_eq : a.tickDisconnected =
    ({ a with
      connectAttempt := (a.connectAttempt + 1) % 2 ^ 8
      mqttTimer := some (retryInterval ((a.connectAttempt + 1) % 2 ^ 8))
      state := .registered }, [.disconnect]) :=
  if_pos (Or.inr rfl)

/-- `mqtt_state_machine`. -/
def mqttStateMachine : App × List Call :=
  match a.state with
  | .init => tickInit ans a
  | .registered => tickRegistered ans a
  | .connecting => ({ a with mqttTimer := some stateMachinePeriodic }, [])
  | .connected => tickConnected p ans a
  | .sampling => tickSampling p ans a
  | .disconnected => tickDisconnected a
  | .configError | .error | .newconfig => (a, [])

end App

end NoiseLevel.Sensor
