import NoiseLevel.Core.Transition
import NoiseLevel.Sensor.App

/-!
# The radio channel of the noise sensor

The sensor leaves the channel of the network for a reading and comes back with it. An
event that takes the state away in between leaves the radio on the noise channel, and
these are the only runs in which the sensor is ever off the network's channel while it
is not sampling.
-/

namespace NoiseLevel.Sensor

open NoiseLevel.Core Mqtt

/-- A sensor process whose engine may raise any event once `connect_to_broker` has run. -/
structure Mote where
  app : App
  /-- Whether `connect_to_broker` has run. -/
  attempted : Bool

/-- The timer expires, or the engine calls `mqtt_event`. -/
inductive Happening where
  | tick (ans : Answers)
  | event (e : MqttEvent)
deriving DecidableEq

/-- Whether a call is one to `mqtt_connect`. -/
def Call.isConnect : Call → Bool
  | connect => true
  | _ => false

namespace Mote

/-- The mote at the first tick. -/
def boot (clientIdLen pubTopicLen : ℤ) : Mote := ⟨App.boot clientIdLen pubTopicLen, false⟩

/-- When something can happen. -/
def Enabled (s : Mote) : Happening → Prop
  | .tick _ => True
  | .event _ => s.attempted = true

/-- What then happens. -/
def next (p : Program) (s : Mote) : Happening → Mote
  | .tick ans =>
    ⟨(s.app.mqttStateMachine p ans).1,
      s.attempted || (s.app.mqttStateMachine p ans).2.any Call.isConnect⟩
  | .event e => { s with app := s.app.mqttEvent e }

/-- Every interleaving of ticks and events. -/
def system (p : Program) : System Mote Happening where
  step s a t := s.Enabled a ∧ t = s.next p a

/-- The radio is on the channel of the network unless the sensor is sampling. -/
def Tuned (s : Mote) : Prop := s.app.state ≠ .sampling → s.app.channel = rplChannel

/-- No connection event finds the sensor sampling. -/
def Undisturbed (s : Mote) (a : Happening) : Prop :=
  s.app.state = .sampling → a ≠ .event .connected ∧ a ≠ .event .disconnected

end Mote

/-- A tick starts a sample on the noise channel, ends one on the channel of the network, or
does not touch the radio. -/
theorem App.mqttStateMachine_channel (a : App) (ans : Answers) {b : App}
    (hb : (a.mqttStateMachine .noiseSensor ans).1 = b) :
    b.state = .sampling ∧ b.channel = noiseChannel ∨
    a.state = .sampling ∧ b.state ≠ .sampling ∧ b.channel = rplChannel ∨
    a.state ≠ .sampling ∧ b.state ≠ .sampling ∧ b.channel = a.channel := by
  subst hb
  cases hs : a.state with
  | init | registered =>
    refine Or.inr (Or.inr ⟨nofun, ?_⟩)
    cases hg : ans.globalAddress <;>
      simp [mqttStateMachine, hs, tickInit, tickRegistered, hg]
  | sampling => exact Or.inr (Or.inl ⟨rfl, by simp [mqttStateMachine, hs, tickSampling,
      App.noiseProcessing]⟩)
  | connected =>
    cases hl : ans.lifeExpired <;> by_cases hr : ans.ready ∧ ans.outBufferSent <;>
      simp [mqttStateMachine, hs, tickConnected, tickReady, hl, hr]
  | disconnected =>
    refine Or.inr (Or.inr ⟨nofun, ?_⟩)
    simp [mqttStateMachine, hs, tickDisconnected, reconnectAttempts]
  | connecting | newconfig | configError | error =>
    exact Or.inr (Or.inr ⟨nofun, by simp [mqttStateMachine, hs]⟩)

namespace Mote

/-- While it samples the sensor is on the noise channel. -/
def OnNoise (s : Mote) : Prop := s.app.state = .sampling → s.app.channel = noiseChannel

theorem onNoise_step {s t : Mote} {a : Happening} (h : s.OnNoise)
    (hs : (system .noiseSensor).step s a t) : t.OnNoise := by
  obtain ⟨-, rfl⟩ := hs
  cases a with
  | tick ans =>
    rcases s.app.mqttStateMachine_channel ans rfl with ⟨-, hc⟩ | ⟨-, hn, -⟩ | ⟨-, hn, -⟩
    · exact fun _ => hc
    · exact fun h => absurd h hn
    · exact fun h => absurd h hn
  | event e =>
    cases e with
    | connected | disconnected => exact nofun
    | _ => exact h

/-- A step that disturbs no sample keeps the radio tuned. -/
theorem tuned_step {s t : Mote} {a : Happening} (h : s.Tuned)
    (hs : (system .noiseSensor).step s a t) (ha : s.Undisturbed a) : t.Tuned := by
  obtain ⟨-, rfl⟩ := hs
  cases a with
  | tick ans =>
    rcases s.app.mqttStateMachine_channel ans rfl with ⟨hn, -⟩ | ⟨-, -, hc⟩ | ⟨hn, -, hc⟩
    · exact fun h => absurd hn h
    · exact fun _ => hc
    · exact fun _ => hc.trans (h hn)
  | event e =>
    cases e with
    | connected => exact fun _ => h fun hn => (ha hn).1 rfl
    | disconnected => exact fun _ => h fun hn => (ha hn).2 rfl
    | _ => exact h

/-- A step that disturbs a sample leaves the radio on the noise channel. -/
theorem not_tuned_step {s t : Mote} {a : Happening} (h : s.OnNoise)
    (hs : (system .noiseSensor).step s a t) (ha : ¬ s.Undisturbed a) : ¬ t.Tuned := by
  obtain ⟨-, rfl⟩ := hs
  rw [Undisturbed, Classical.not_imp, not_and_or, not_not, not_not] at ha
  obtain ⟨hn, rfl | rfl⟩ := ha <;>
    exact fun ht => absurd ((ht nofun).symm.trans (h hn)) (by decide)

theorem boot_state_ne (m n : ℤ) : (boot m n).app.state ≠ .sampling := by
  rw [boot, App.boot, App.updateConfig]
  split_ifs <;> exact nofun

theorem tuned_boot (m n : ℤ) : (boot m n).Tuned := by
  intro _
  rw [boot, App.boot, App.updateConfig]
  split_ifs <;> rfl

theorem onNoise_boot (m n : ℤ) : (boot m n).OnNoise := fun h => absurd h (boot_state_ne m n)

/-- The radio is tuned in every state of a run exactly when no connection event of the run
finds the sensor sampling. -/
theorem tuned_iff (clientIdLen pubTopicLen : ℤ) (as : List Happening) (t : Mote) :
    ((system .noiseSensor).restrict fun s _ => s.Tuned).Run (boot clientIdLen pubTopicLen) as t
      ∧ t.Tuned ↔
    ((system .noiseSensor).restrict Undisturbed).Run (boot clientIdLen pubTopicLen) as t := by
  constructor
  · rintro ⟨hr, ht⟩
    induction hr with
    | nil => exact System.Run.nil _
    | @snoc s u as a hr hs ih =>
      refine (ih hs.2).snoc ⟨hs.1, ?_⟩
      by_contra ha
      have hon : s.OnNoise := hr.of_restrict.invariant (fun _ s => s.OnNoise)
        (onNoise_boot _ _) fun _ _ _ _ _ h hs => onNoise_step h hs
      exact not_tuned_step hon hs.1 ha ht
  · intro hr
    induction hr with
    | nil => exact ⟨System.Run.nil _, tuned_boot _ _⟩
    | snoc hr hs ih => exact ⟨ih.1.snoc ⟨hs.1, ih.2⟩, tuned_step ih.2 hs.1 hs.2⟩

/-- Following one more happening. -/
theorem reaches_next {p : Program} {s t : Mote} (h : (system p).Reaches s t) (a : Happening)
    (ha : t.Enabled a) : (system p).Reaches s (t.next p a) :=
  h.snoc ⟨ha, rfl⟩

/-- The connection is lost a tenth of a second after the radio has left for the noise
channel: the sensor waits on that channel for a network it cannot hear. -/
theorem not_tuned_disconnected :
    ∃ t, (system .noiseSensor).Reaches (boot 31 13) t ∧
      t.app.state = .disconnected ∧ t.app.channel = noiseChannel ∧ ¬ t.Tuned := by
  let ready : Answers := ⟨true, true, true, false, ⟨-45, 0, 0⟩⟩
  have joined := reaches_next (System.Reaches.refl (system .noiseSensor) (boot 31 13))
    (.tick ready) trivial
  have connected := reaches_next joined (.event .connected) rfl
  have sampling := reaches_next connected (.tick ready) trivial
  have disconnected := reaches_next sampling (.event .disconnected) rfl
  refine ⟨_, disconnected, rfl, by decide, fun ht => ?_⟩
  exact absurd (ht nofun) (by decide)

end Mote

end NoiseLevel.Sensor
