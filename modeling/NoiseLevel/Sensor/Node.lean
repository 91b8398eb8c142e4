import NoiseLevel.Core.Transition
import NoiseLevel.Sensor.App

/-!
# A sensor and its MQTT engine

The state machine of the sensor and the engine of its connection run on one mote: a tick
reads the engine and calls it, an input of the engine may call `mqtt_event`. Ticks and
inputs come in any order.
-/

namespace NoiseLevel.Sensor

open NoiseLevel.Core Mqtt

/-- What a tick asks outside the sensor and its engine. -/
structure Surroundings where
  globalAddress : Bool
  lifeExpired : Bool
  sample : Sample
deriving DecidableEq

/-- The answers a tick gets, those on the connection from the engine. -/
def Surroundings.answers (w : Surroundings) (e : Engine) : Answers where
  globalAddress := w.globalAddress
  ready := e.mqttReady
  outBufferSent := e.outBufferSent
  lifeExpired := w.lifeExpired
  sample := w.sample

/-- The effect of a call on the engine. -/
def Call.run (e : Engine) : Call → Engine
  | register => e.mqttRegister
  | setAutoReconnect b => { e with autoReconnect := b }
  | connect => e.mqttConnect
  | disconnect => e.mqttDisconnect
  | publish _ => e.mqttPublish

/-- A sensor process and its engine. -/
structure Node where
  app : App
  engine : Engine
deriving DecidableEq

/-- The timer of the sensor expires, or something reaches the engine. -/
inductive Occurrence where
  | tick (w : Surroundings)
  | input (i : Engine.Input)
deriving DecidableEq

namespace Node

/-- The mote at the first tick. -/
def boot (clientIdLen pubTopicLen : ℤ) : Node := ⟨App.boot clientIdLen pubTopicLen, Engine.boot⟩

/-- One tick of the sensor. -/
def tick (p : Program) (s : Node) (w : Surroundings) : Node :=
  ⟨(s.app.mqttStateMachine p (w.answers s.engine)).1,
    (s.app.mqttStateMachine p (w.answers s.engine)).2.foldl Call.run s.engine⟩

/-- One input of the engine. -/
def input (s : Node) (i : Engine.Input) : Node :=
  ⟨(s.engine.receive i).2.foldl App.mqttEvent s.app, (s.engine.receive i).1⟩

/-- When something can occur. -/
def Enabled (s : Node) : Occurrence → Prop
  | .tick _ => True
  | .input i => s.engine.Enabled i

instance (s : Node) : DecidablePred s.Enabled
  | .tick _ => inferInstanceAs (Decidable True)
  | .input i => inferInstanceAs (Decidable (s.engine.Enabled i))

/-- What then happens. -/
def next (p : Program) (s : Node) : Occurrence → Node
  | .tick w => s.tick p w
  | .input i => s.input i

/-- Every interleaving of ticks and inputs. -/
def system (p : Program) : System Node Occurrence where
  step s a t := s.Enabled a ∧ t = s.next p a

section Follow

variable (p : Program) (C : Node → Occurrence → Prop)

/-- The node after the given occurrences. -/
def follow : Node → List Occurrence → Node
  | s, [] => s
  | s, a :: rest => follow (s.next p a) rest

/-- Each of the given occurrences can happen and meets a condition. -/
def Allowed : Node → List Occurrence → Prop
  | _, [] => True
  | s, a :: rest => (s.Enabled a ∧ C s a) ∧ Allowed (s.next p a) rest

instance decidableAllowed [∀ s a, Decidable (C s a)] : (s : Node) → (as : List Occurrence) →
    Decidable (Allowed p C s as)
  | _, [] => inferInstanceAs (Decidable True)
  | s, a :: rest =>
    have := decidableAllowed (s.next p a) rest
    inferInstanceAs (Decidable ((s.Enabled a ∧ C s a) ∧ Allowed p C (s.next p a) rest))

variable {p C}

/-- Allowed occurrences make a run. -/
theorem reaches_follow {s : Node} {as : List Occurrence} (h : Allowed p C s as) :
    ((system p).restrict C).Reaches s (follow p s as) := by
  induction as generalizing s with
  | nil => exact System.Reaches.refl _ s
  | cons a rest ih =>
    obtain ⟨⟨ha, hc⟩, hrest⟩ := h
    have hs : ((system p).restrict C).step s a (s.next p a) := ⟨⟨ha, rfl⟩, hc⟩
    exact (System.Reaches.single hs).trans (ih hrest)

end Follow

end Node

end NoiseLevel.Sensor
