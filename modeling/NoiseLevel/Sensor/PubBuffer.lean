import NoiseLevel.Mqtt.OutQueue
import NoiseLevel.Sensor.Node

/-!
# The buffer that the engine reads from

`publish` writes the text of a message to `pub_buffer` and hands its address to the
engine, which keeps the address while the publish is in flight. The sensor with a
microphone looks at the engine one tick before it writes, so what protects the buffer is
an invariant of both machines.
-/

namespace NoiseLevel.Sensor

open NoiseLevel.Core Backend Mqtt

/-- A write to `pub_buffer`. -/
structure Write where
  /-- `out_queue_full` at that time. -/
  outQueueFull : Bool
  /-- The answer of `mqtt_publish`, which is not called when the text does not fit. -/
  answer : Option MqttStatus
deriving DecidableEq

/-- The engine and the buffer that it may read from. -/
structure Outbox where
  engine : Engine
  /-- The message in `pub_buffer`. -/
  pubBuffer : Option Json
  /-- What `pub_buffer` held when the engine last accepted its address. -/
  accepted : Option Json
  /-- All writes to `pub_buffer`, oldest first. -/
  writes : List Write

namespace Outbox

/-- The memory before any call. -/
def boot : Outbox := ⟨Engine.boot, none, none, []⟩

section Calls

variable (fits : Json → Bool)

/-- `publish`, told which messages have a text that fits into `pub_buffer`. -/
def publish (m : Json) (o : Outbox) : Outbox where
  engine := if fits m then o.engine.mqttPublish else o.engine
  pubBuffer := some m
  accepted := if fits m ∧ o.engine.mqttPublishStatus = .ok then some m else o.accepted
  writes := o.writes ++
    [⟨o.engine.outQueueFull, if fits m then some o.engine.mqttPublishStatus else none⟩]

/-- The effect of a call. -/
def call (o : Outbox) : Call → Outbox
  | .publish m => o.publish fits m
  | c => { o with engine := c.run o.engine }

end Calls

/-- What the engine has in flight is what the buffer holds. -/
def InFlight (o : Outbox) : Prop := o.accepted.isSome ∧ o.pubBuffer = o.accepted

/-- No write found a publish in flight, and what is in flight is still in the buffer. -/
structure Safe (o : Outbox) : Prop where
  writes : ∀ w ∈ o.writes, w.outQueueFull = false ∧ w.answer ≠ some .outQueueFull
  inFlight : o.engine.outQueueFull = true → o.InFlight

theorem safe_boot : boot.Safe := ⟨nofun, nofun⟩

end Outbox

/-- A call that neither registers nor publishes. -/
def Call.Quiet : Call → Prop
  | setAutoReconnect _ | connect | disconnect => True
  | register | publish _ => False

theorem Call.Quiet.outQueueFull_run {c : Call} (h : c.Quiet) (e : Engine) :
    (c.run e).outQueueFull = e.outQueueFull := by
  cases c with
  | setAutoReconnect b => rfl
  | connect => exact e.outQueueFull_mqttConnect
  | disconnect => exact e.outQueueFull_mqttDisconnect
  | register | publish => exact absurd h id

namespace Outbox

variable {fits : Json → Bool} {o : Outbox}

theorem call_quiet {c : Call} (h : c.Quiet) :
    o.call fits c = { o with engine := c.run o.engine } := by
  cases c with
  | publish => exact absurd h id
  | _ => rfl

/-- Quiet calls leave the buffer and `out_queue_full` alone. -/
theorem foldl_call_quiet (fits : Json → Bool) (o : Outbox) {calls : List Call}
    (h : ∀ c ∈ calls, c.Quiet) :
    ∃ e : Engine, e.outQueueFull = o.engine.outQueueFull ∧
      calls.foldl (call fits) o = { o with engine := e } := by
  induction calls generalizing o with
  | nil => exact ⟨o.engine, rfl, rfl⟩
  | cons c calls ih =>
    obtain ⟨hc, hcalls⟩ := List.forall_mem_cons.mp h
    obtain ⟨e, he, hfold⟩ := ih (o.call fits c) hcalls
    rw [call_quiet hc] at he hfold
    refine ⟨e, he.trans (hc.outQueueFull_run _), ?_⟩
    rw [List.foldl_cons, call_quiet hc, hfold]

/-- The engine may clear `out_queue_full`. -/
theorem Safe.setEngine (h : o.Safe) {e : Engine}
    (he : e.outQueueFull = true → o.engine.outQueueFull = true) :
    Safe { o with engine := e } := ⟨h.writes, fun hfull => h.inFlight (he hfull)⟩

/-- A write while nothing is in flight. -/
theorem Safe.publish (h : o.Safe) (hfree : o.engine.outQueueFull = false) (m : Json) :
    (o.publish fits m).Safe := by
  have hstatus : o.engine.mqttPublishStatus ≠ .outQueueFull := by
    rw [Engine.mqttPublishStatus, hfree, if_neg Bool.false_ne_true]
    split_ifs <;> exact nofun
  constructor
  · intro w hw
    rcases List.mem_append.mp hw with hw | hw
    · exact h.writes w hw
    · obtain rfl := List.mem_singleton.mp hw
      refine ⟨hfree, ?_⟩
      dsimp only
      split_ifs
      · exact fun he => hstatus (Option.some.inj he)
      · exact nofun
  · unfold Outbox.publish InFlight
    dsimp only
    intro hfull
    by_cases hfit : fits m = true
    · rw [if_pos hfit, Engine.outQueueFull_mqttPublish, hfree, Bool.false_or,
        decide_eq_true_iff] at hfull
      rw [if_pos ⟨hfit, hfull⟩]
      exact ⟨rfl, rfl⟩
    · rw [if_neg hfit, hfree] at hfull
      exact absurd hfull Bool.false_ne_true

/-- Where every text fits, the engine sees the calls that it sees without the buffer. -/
theorem engine_foldl_call (hfits : ∀ m, fits m = true) (calls : List Call) :
    (calls.foldl (call fits) o).engine = calls.foldl Call.run o.engine := by
  induction calls generalizing o with
  | nil => rfl
  | cons c calls ih =>
    rw [List.foldl_cons, List.foldl_cons, ih]
    congr 1
    cases c with
    | publish m => exact if_pos (hfits m)
    | _ => rfl

end Outbox

namespace App

/-- The states in which the sensor relies on an engine with nothing in flight. -/
def Relies (a : App) : Prop := a.state = .init ∨ a.state = .sampling

theorem relies_of_foldl_mqttEvent {evs : List MqttEvent} {a : App}
    (h : (evs.foldl mqttEvent a).Relies) : a.Relies := by
  induction evs generalizing a with
  | nil => exact h
  | cons ev evs ih =>
    have hev := ih h
    cases ev with
    | connected | disconnected => exact absurd hev (by rintro (h | h) <;> cases h)
    | _ => exact hev

theorem not_relies {a : App} {st : AppState} (hs : a.state = st) (hi : st ≠ .init)
    (hm : st ≠ .sampling) : ¬a.Relies :=
  fun h => h.elim (fun he => hi (hs.symm.trans he)) fun he => hm (hs.symm.trans he)

/-- A sensor that finds the engine ready publishes, or tunes to the noise channel. -/
theorem tickReady_calls {p : Program} {ans : Answers} {a b : App} {calls : List Call}
    (h : a.tickReady p ans = (b, calls)) :
    (¬b.Relies ∧ ∃ m, calls = [.publish m]) ∨ calls = [] := by
  cases p with
  | noiseSensor => exact Or.inr (Prod.mk.inj h).2.symm
  | noiseSimulatedSensor =>
    obtain ⟨rfl, rfl⟩ := Prod.mk.inj h
    exact Or.inl ⟨not_relies rfl nofun nofun, _, rfl⟩

/-- A registered sensor relies on nothing and makes quiet calls. -/
theorem tickRegistered_calls (ans : Answers) {a : App} (hs : a.state = .registered) :
    ¬(a.tickRegistered ans).1.Relies ∧ ∀ c ∈ (a.tickRegistered ans).2, c.Quiet := by
  unfold tickRegistered
  constructor
  · by_cases hg : ans.globalAddress = true
    · exact not_relies (if_pos hg) nofun nofun
    · exact not_relies ((if_neg hg).trans hs) nofun nofun
  · dsimp only
    split_ifs <;> simp [Call.Quiet]

/-- What the calls of a tick do: `STATE_INIT` registers, a message is published alone, by a
sensor that was sampling or has just found the engine ready, and all other calls are quiet.
The states that rely on the engine are entered only after it was found ready. -/
theorem mqttStateMachine_calls (p : Program) (ans : Answers) (a : App) {b : App}
    {calls : List Call} (h : a.mqttStateMachine p ans = (b, calls)) :
    (a.state = .init ∧ ¬b.Relies ∧
      ∃ rest, calls = .register :: rest ∧ ∀ c ∈ rest, c.Quiet) ∨
    ((a.state = .sampling ∨ ans.ready = true) ∧ ¬b.Relies ∧ ∃ m, calls = [.publish m]) ∨
    ((b.Relies → a.Relies ∨ ans.ready = true) ∧ ∀ c ∈ calls, c.Quiet) := by
  cases hs : a.state with
  | init =>
    rw [mqttStateMachine, hs] at h
    obtain ⟨hb, hquiet⟩ := tickRegistered_calls ans
      (a := { a with connectAttempt := 1, state := .registered }) rfl
    obtain ⟨rfl, rfl⟩ := Prod.mk.inj h
    exact Or.inl ⟨rfl, hb, _, rfl, List.forall_mem_cons.mpr ⟨trivial, hquiet⟩⟩
  | registered =>
    rw [mqttStateMachine, hs] at h
    obtain ⟨hb, hquiet⟩ := tickRegistered_calls ans hs
    rw [show a.tickRegistered ans = (b, calls) from h] at hb hquiet
    exact Or.inr (Or.inr ⟨fun hr => absurd hr hb, hquiet⟩)
  | connected =>
    rw [mqttStateMachine, hs] at h
    by_cases hready : ans.ready = true ∧ ans.outBufferSent = true
    · rw [tickConnected, if_pos hready] at h
      rcases tickReady_calls h with ⟨hb, hm⟩ | rfl
      · exact Or.inr (Or.inl ⟨Or.inr hready.1, hb, hm⟩)
      · exact Or.inr (Or.inr ⟨fun _ => Or.inr hready.1, nofun⟩)
    · rw [tickConnected, if_neg hready] at h
      obtain ⟨rfl, rfl⟩ := Prod.mk.inj h
      refine Or.inr (Or.inr ⟨fun hb => absurd hb ?_, nofun⟩)
      split_ifs
      · exact not_relies hs nofun nofun
      · exact not_relies hs nofun nofun
  | sampling =>
    rw [mqttStateMachine, hs] at h
    cases p with
    | noiseSensor =>
      obtain ⟨rfl, rfl⟩ := Prod.mk.inj h
      exact Or.inr (Or.inl ⟨Or.inl rfl, not_relies rfl nofun nofun, _, rfl⟩)
    | noiseSimulatedSensor =>
      obtain ⟨rfl, rfl⟩ := Prod.mk.inj h
      exact Or.inr (Or.inr ⟨Or.inl, nofun⟩)
  | disconnected =>
    rw [mqttStateMachine, hs, tickDisconnected_eq] at h
    obtain ⟨rfl, rfl⟩ := Prod.mk.inj h
    exact Or.inr (Or.inr ⟨fun hb => absurd hb (not_relies rfl nofun nofun), by simp [Call.Quiet]⟩)
  | connecting =>
    rw [mqttStateMachine, hs] at h
    obtain ⟨rfl, rfl⟩ := Prod.mk.inj h
    exact Or.inr (Or.inr ⟨fun hb => absurd hb (not_relies rfl nofun nofun), nofun⟩)
  | newconfig | configError | error =>
    rw [mqttStateMachine, hs] at h
    obtain ⟨rfl, rfl⟩ := Prod.mk.inj h
    exact Or.inr (Or.inr ⟨Or.inl, nofun⟩)

end App

/-- A sensor process with its engine and its buffer. -/
structure Publisher where
  app : App
  outbox : Outbox

namespace Publisher

/-- The mote at the first tick. -/
def boot (clientIdLen pubTopicLen : ℤ) : Publisher :=
  ⟨App.boot clientIdLen pubTopicLen, Outbox.boot⟩

/-- The sensor and its engine. -/
def node (s : Publisher) : Node := ⟨s.app, s.outbox.engine⟩

variable (p : Program) (fits : Json → Bool)

/-- One tick of the sensor. -/
def tick (s : Publisher) (w : Surroundings) : Publisher :=
  ⟨(s.app.mqttStateMachine p (w.answers s.outbox.engine)).1,
    (s.app.mqttStateMachine p (w.answers s.outbox.engine)).2.foldl (Outbox.call fits) s.outbox⟩

/-- One input of the engine. -/
def input (s : Publisher) (i : Engine.Input) : Publisher :=
  ⟨(s.outbox.engine.receive i).2.foldl App.mqttEvent s.app,
    { s.outbox with engine := (s.outbox.engine.receive i).1 }⟩

/-- What happens at an occurrence. -/
def next (s : Publisher) : Occurrence → Publisher
  | .tick w => s.tick p fits w
  | .input i => s.input i

/-- Every interleaving of ticks and inputs. -/
def system : System Publisher Occurrence where
  step s a t := s.node.Enabled a ∧ t = s.next p fits a

/-- Where every text fits, a sensor with its buffer is a sensor with its engine. -/
theorem node_next (hfits : ∀ m, fits m = true) (s : Publisher) (a : Occurrence) :
    (s.next p fits a).node = s.node.next p a := by
  cases a with
  | tick w => exact congrArg (Node.mk _) (Outbox.engine_foldl_call hfits _)
  | input i => rfl

theorem reaches_node (hfits : ∀ m, fits m = true) {s t : Publisher}
    (h : (system p fits).Reaches s t) : (Node.system p).Reaches s.node t.node := by
  obtain ⟨as, hr⟩ := h
  induction hr with
  | nil => exact System.Reaches.refl _ _
  | snoc _ hs ih =>
    obtain ⟨ha, rfl⟩ := hs
    exact ih.snoc ⟨ha, node_next p fits hfits _ _⟩

/-- The buffer is safe, and nothing is in flight where the sensor relies on that. -/
structure Guarded (s : Publisher) : Prop where
  safe : s.outbox.Safe
  free : s.app.Relies → s.outbox.engine.outQueueFull = false

theorem guarded_boot (m n : ℤ) : (boot m n).Guarded := ⟨Outbox.safe_boot, fun _ => rfl⟩

variable {p fits} {s t : Publisher}

/-- A tick leaves the buffer and `out_queue_full` alone, or writes the buffer while nothing is
in flight. -/
theorem Guarded.outbox_tick (p : Program) (fits : Json → Bool) (h : s.Guarded)
    (w : Surroundings) :
    (∃ e : Engine, e.outQueueFull = s.outbox.engine.outQueueFull ∧
      ((s.tick p fits w).app.Relies → e.outQueueFull = false) ∧
      (s.tick p fits w).outbox = { s.outbox with engine := e }) ∨
    (s.outbox.engine.outQueueFull = false ∧ ¬(s.tick p fits w).app.Relies ∧
      ∃ m, (s.tick p fits w).outbox = s.outbox.publish fits m) := by
  have hready : (w.answers s.outbox.engine).ready = true →
      s.outbox.engine.outQueueFull = false := by
    intro hr
    have hboth := Bool.and_eq_true_iff.mp hr
    exact (Bool.not_eq_true' _).mp hboth.1
  rcases s.app.mqttStateMachine_calls p (w.answers s.outbox.engine) Prod.mk.eta.symm with
    ⟨hinit, hb, rest, hcalls, hquiet⟩ | ⟨ha, hb, m, hcalls⟩ | ⟨hb, hquiet⟩
  · left
    obtain ⟨e, he, hfold⟩ :=
      Outbox.foldl_call_quiet fits (s.outbox.call fits .register) hquiet
    refine ⟨e, he.trans (h.free (Or.inl hinit)).symm, fun hr => absurd hr hb, ?_⟩
    rw [tick, hcalls, List.foldl_cons, hfold]
    rfl
  · right
    have hfree : s.outbox.engine.outQueueFull = false :=
      ha.elim (fun hs => h.free (Or.inr hs)) hready
    refine ⟨hfree, hb, m, ?_⟩
    rw [tick, hcalls]
    rfl
  · left
    obtain ⟨e, he, hfold⟩ := Outbox.foldl_call_quiet fits s.outbox hquiet
    refine ⟨e, he, fun hr => he.trans ((hb hr).elim h.free hready), ?_⟩
    rw [tick, hfold]

theorem Guarded.tick (h : s.Guarded) (w : Surroundings) : (s.tick p fits w).Guarded := by
  rcases h.outbox_tick p fits w with ⟨e, he, hb, ho⟩ | ⟨hfree, hb, m, ho⟩
  · constructor
    · rw [ho]
      exact h.safe.setEngine fun hf => he.symm.trans hf
    · rw [ho]
      exact hb
  · constructor
    · rw [ho]
      exact h.safe.publish hfree m
    · exact fun hr => absurd hr hb

theorem Guarded.input (h : s.Guarded) (i : Engine.Input) : (s.input i).Guarded := by
  have hfull : (s.outbox.engine.receive i).1.outQueueFull = true →
      s.outbox.engine.outQueueFull = true := by
    intro hf
    rcases s.outbox.engine.clears_receive i with he | ⟨he, -⟩
    · exact he.symm.trans hf
    · exact absurd (he.symm.trans hf) Bool.false_ne_true
  constructor
  · exact h.safe.setEngine hfull
  · intro hr
    rw [← Bool.not_eq_true]
    intro hf
    have hfree := h.free (App.relies_of_foldl_mqttEvent hr)
    exact Bool.false_ne_true (hfree.symm.trans (hfull hf))

theorem Guarded.step (h : s.Guarded) {a : Occurrence} (hs : (system p fits).step s a t) :
    t.Guarded := by
  obtain ⟨-, rfl⟩ := hs
  cases a with
  | tick w => exact h.tick w
  | input i => exact h.input i

theorem guarded_of_reaches {m n : ℤ} (h : (system p fits).Reaches (boot m n) s) : s.Guarded :=
  h.invariant Guarded (guarded_boot m n) fun _ _ _ ht hs => ht.step hs

/-- While a publish is in flight a step leaves the buffer alone, and the publish stays in flight
until the engine ends it or aborts the connection. -/
theorem Guarded.kept (h : s.Guarded) {a : Occurrence} (hs : (system p fits).step s a t)
    (hfull : s.outbox.engine.outQueueFull = true) :
    (∃ e : Engine, t.outbox = { s.outbox with engine := e }) ∧
    (t.outbox.engine.outQueueFull = true ∨
      ∃ i, a = .input i ∧ (s.outbox.engine.EndsPublish i ∨ t.outbox.engine.Aborted)) := by
  obtain ⟨-, rfl⟩ := hs
  cases a with
  | tick w =>
    rcases h.outbox_tick p fits w with ⟨e, he, -, ho⟩ | ⟨hfree, -⟩
    · refine ⟨⟨e, ho⟩, Or.inl ?_⟩
      rw [next, ho]
      exact he.trans hfull
    · exact absurd (hfree.symm.trans hfull) Bool.false_ne_true
  | input i =>
    refine ⟨⟨_, rfl⟩, ?_⟩
    rcases s.outbox.engine.clears_receive i with he | ⟨-, he⟩
    · exact Or.inl (he.trans hfull)
    · exact Or.inr ⟨i, rfl, he⟩

/-- In every interleaving of ticks and inputs `publish` writes the buffer only while nothing is
in flight, the engine never answers that its queue is full, and what it has accepted stays in
the buffer until it has ended or aborted that publish. -/
theorem pubBuffer_safe (p : Program) (fits : Json → Bool) (clientIdLen pubTopicLen : ℤ)
    (s : Publisher) (h : (system p fits).Reaches (boot clientIdLen pubTopicLen) s) :
    (∀ w ∈ s.outbox.writes, w.outQueueFull = false ∧ w.answer ≠ some .outQueueFull) ∧
    (s.outbox.engine.outQueueFull = true → s.outbox.InFlight) ∧
    ∀ a t, (system p fits).step s a t → s.outbox.engine.outQueueFull = true →
      t.outbox.writes = s.outbox.writes ∧ t.outbox.pubBuffer = s.outbox.pubBuffer ∧
      t.outbox.accepted = s.outbox.accepted ∧
      (t.outbox.engine.outQueueFull = true ∨
        ∃ i, a = .input i ∧ (s.outbox.engine.EndsPublish i ∨ t.outbox.engine.Aborted)) := by
  have hg := guarded_of_reaches h
  refine ⟨hg.safe.writes, hg.safe.inFlight, fun a t hs hfull => ?_⟩
  obtain ⟨⟨e, ho⟩, hends⟩ := hg.kept hs hfull
  refine ⟨?_, ?_, ?_, hends⟩ <;> rw [ho]

/-- One more step of the simulated sensor. -/
theorem reaches_next (h : (system .noiseSimulatedSensor fun _ => true).Reaches s t)
    (a : Occurrence) (ha : t.node.Enabled a) :
    (system .noiseSimulatedSensor fun _ => true).Reaches s
      (t.next .noiseSimulatedSensor (fun _ => true) a) :=
  h.snoc ⟨ha, rfl⟩

/-- A reading of 65 dB right after the connection is in flight and in the buffer. -/
theorem pubBuffer_safe_first : ∃ s : Publisher,
    s.outbox.engine.outQueueFull = true ∧ s.outbox.InFlight := by
  have asked := reaches_next (System.Reaches.refl _ (boot 31 13))
    (.tick ⟨true, false, ⟨65, 0, 0⟩⟩) trivial
  have opening := reaches_next asked (.input (.dispatch .waiting true)) nofun
  have opened := reaches_next opening (.input .tcpConnected) rfl
  have greeted := reaches_next opened (.input (.dispatch .waiting true)) nofun
  have accepted := reaches_next greeted (.input (.connack 0)) rfl
  have acknowledged := reaches_next accepted (.input (.tcpDataSent true)) rfl
  have published := reaches_next acknowledged (.tick ⟨true, false, ⟨65, 0, 0⟩⟩) trivial
  exact ⟨_, rfl, (pubBuffer_safe .noiseSimulatedSensor _ 31 13 _ published).2.1 rfl⟩

end Publisher

end NoiseLevel.Sensor
