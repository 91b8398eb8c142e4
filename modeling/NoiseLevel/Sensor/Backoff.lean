import NoiseLevel.Sensor.Node

/-!
# The backoff between attempts

The interval before the next attempt grows with the counter of attempts up to its cap. The
counter has eight bits and the sensor never gives up, so after enough failures in a row
the counter starts again from zero, and the backoff with it.
-/

namespace NoiseLevel.Sensor

open NoiseLevel.Core Mqtt

/-- The interval that the backoff is capped at. -/
def longestInterval : ℕ := reconnectInterval <<< 3

namespace App

theorem retryInterval_eq (attempt : ℕ) :
    retryInterval attempt = reconnectInterval * 2 ^ min attempt 3 := by
  rw [retryInterval, Nat.shiftLeft_eq, Nat.shiftLeft_eq, Nat.min_def]
  split_ifs with hlt hle
  · rfl
  · omega
  · rw [show attempt = 3 by omega]
  · rfl

theorem retryInterval_mono : Monotone retryInterval := by
  intro m n h
  rw [retryInterval_eq, retryInterval_eq]
  gcongr
  decide

theorem retryInterval_le (attempt : ℕ) : retryInterval attempt ≤ longestInterval := by
  rw [retryInterval_eq, longestInterval, Nat.shiftLeft_eq]
  gcongr
  · decide
  · exact min_le_right _ _

/-- Whether a tick resets `connect_attempt`. -/
def Resets (a : App) (ans : Answers) : Prop :=
  a.state = .init ∨ a.state = .connected ∧ ans.lifeExpired = true

instance (a : App) (ans : Answers) : Decidable (a.Resets ans) :=
  inferInstanceAs (Decidable (a.state = .init ∨ a.state = .connected ∧ ans.lifeExpired = true))

variable (p : Program) (ans : Answers) (a : App)

theorem tickReady_connectAttempt : (a.tickReady p ans).1.connectAttempt = a.connectAttempt := by
  cases p <;> rfl

theorem tickConnected_connectAttempt : (a.tickConnected p ans).1.connectAttempt =
    if ans.lifeExpired = true then 0 else a.connectAttempt := by
  unfold tickConnected
  by_cases hready : ans.ready = true ∧ ans.outBufferSent = true <;>
    by_cases hlife : ans.lifeExpired = true <;> simp [hready, hlife, tickReady_connectAttempt]

/-- What a tick does to the counter: a failure is counted, a reset clears it, and every other
tick leaves it alone. -/
theorem mqttStateMachine_connectAttempt {b : App} (hb : (a.mqttStateMachine p ans).1 = b) :
    (a.state = .disconnected ∧ b.connectAttempt = (a.connectAttempt + 1) % 2 ^ 8 ∧
      b.mqttTimer = some (retryInterval ((a.connectAttempt + 1) % 2 ^ 8))) ∨
    (a.Resets ans ∧ b.connectAttempt ≤ 1) ∨
    (a.state ≠ .disconnected ∧ ¬a.Resets ans ∧ b.connectAttempt = a.connectAttempt) := by
  subst hb
  unfold Resets
  cases hs : a.state with
  | disconnected =>
    rw [mqttStateMachine, hs, tickDisconnected_eq]
    exact Or.inl ⟨rfl, rfl, rfl⟩
  | init =>
    rw [mqttStateMachine, hs]
    exact Or.inr (Or.inl ⟨Or.inl rfl, le_rfl⟩)
  | connected =>
    rw [mqttStateMachine, hs, tickConnected_connectAttempt]
    by_cases hlife : ans.lifeExpired = true <;> simp [hlife]
  | sampling =>
    rw [mqttStateMachine, hs]
    cases p <;> exact Or.inr (Or.inr ⟨nofun, by simp, rfl⟩)
  | registered | connecting | newconfig | configError | error =>
    rw [mqttStateMachine, hs]
    exact Or.inr (Or.inr ⟨nofun, by simp, rfl⟩)

/-- The events of the engine leave the counter alone. -/
theorem foldl_mqttEvent_connectAttempt (events : List MqttEvent) (a : App) :
    (events.foldl mqttEvent a).connectAttempt = a.connectAttempt := by
  induction events generalizing a with
  | nil => rfl
  | cons e events ih =>
    rw [List.foldl_cons, ih]
    cases e <;> rfl

end App

/-- A node and the intervals armed in `STATE_DISCONNECTED` since the last reset of
`connect_attempt`. -/
structure Watched where
  node : Node
  armed : List ℕ

namespace Watched

def boot (clientIdLen pubTopicLen : ℤ) : Watched := ⟨Node.boot clientIdLen pubTopicLen, []⟩

/-- The intervals after a tick or an input. -/
def record (p : Program) (s : Watched) : Occurrence → List ℕ
  | .tick w =>
    if s.node.app.Resets (w.answers s.node.engine) then []
    else if s.node.app.state = .disconnected then
      s.armed ++ (s.node.tick p w).app.mqttTimer.toList
    else s.armed
  | .input _ => s.armed

def next (p : Program) (s : Watched) (a : Occurrence) : Watched := ⟨s.node.next p a, s.record p a⟩

/-- Every run of the node, watched. -/
def system (p : Program) : System Watched Occurrence where
  step s a t := s.node.Enabled a ∧ t = s.next p a

/-- The intervals grow up to the cap and stay there. -/
structure Backoff (s : Watched) : Prop where
  nondecreasing : s.armed.Pairwise (· ≤ ·)
  capped : ∀ interval ∈ s.armed, interval ≤ longestInterval
  stays : s.armed.Pairwise fun i j => i = longestInterval → j = longestInterval

/-- A tick that counts a failure does not find the counter at its last value. -/
def Counts (s : Watched) : Occurrence → Prop
  | .tick _ => s.node.app.state = .disconnected → s.node.app.connectAttempt ≠ 255
  | .input _ => True

/-- The intervals are those of the attempts since the last reset, to zero or to one. -/
structure Numbered (base : ℕ) (s : Watched) : Prop where
  base_le : base ≤ 1
  attempt : s.node.app.connectAttempt = base + s.armed.length
  attempt_lt : s.node.app.connectAttempt < 2 ^ 8
  armed : s.armed = (List.range s.armed.length).map fun i => App.retryInterval (base + i + 1)

theorem numbered_boot (m n : ℤ) : (boot m n).Numbered 0 := by
  refine ⟨Nat.zero_le 1, ?_, ?_, rfl⟩ <;> rw [boot, Node.boot, App.boot, App.updateConfig] <;>
    split_ifs <;> simp

variable {p : Program} {base : ℕ} {s t : Watched} {a : Occurrence}

/-- Numbered intervals grow up to the cap. -/
theorem Numbered.backoff (h : s.Numbered base) : s.Backoff := by
  have hsorted : s.armed.Pairwise (· ≤ ·) := by
    rw [h.armed, List.pairwise_map]
    exact List.pairwise_lt_range.imp fun hij => App.retryInterval_mono (by omega)
  have hcapped : ∀ interval ∈ s.armed, interval ≤ longestInterval := by
    intro interval hi
    rw [h.armed] at hi
    obtain ⟨i, -, rfl⟩ := List.mem_map.mp hi
    exact App.retryInterval_le _
  refine ⟨hsorted, hcapped, ?_⟩
  exact hsorted.imp_of_mem fun hi hj hle heq => le_antisymm (hcapped _ hj) (heq ▸ hle)

/-- A failure is counted and adds the interval of its attempt. -/
theorem next_disconnected {w : Surroundings} (hs : s.node.app.state = .disconnected) :
    s.next p (.tick w) =
      { node :=
          { app :=
              { s.node.app with
                connectAttempt := (s.node.app.connectAttempt + 1) % 2 ^ 8
                mqttTimer := some (App.retryInterval ((s.node.app.connectAttempt + 1) % 2 ^ 8))
                state := .registered }
            engine := s.node.engine.mqttDisconnect }
        armed := s.armed ++ [App.retryInterval ((s.node.app.connectAttempt + 1) % 2 ^ 8)] } := by
  have hreset : ¬s.node.app.Resets (w.answers s.node.engine) := by
    rw [App.Resets, hs]
    exact fun h => h.elim nofun fun h => nomatch h.1
  rw [next, record, if_neg hreset, if_pos hs, Node.next, Node.tick, App.mqttStateMachine, hs,
    App.tickDisconnected_eq]
  rfl

/-- A failure below the last attempt adds the next interval. -/
theorem Numbered.failure {w : Surroundings} (h : s.Numbered base)
    (hd : s.node.app.state = .disconnected) (hne : s.node.app.connectAttempt ≠ 255) :
    (s.next p (.tick w)).Numbered base := by
  have hlt := h.attempt_lt
  have hmod : (s.node.app.connectAttempt + 1) % 2 ^ 8 = s.node.app.connectAttempt + 1 :=
    Nat.mod_eq_of_lt (by omega)
  have hnext := next_disconnected (p := p) (w := w) hd
  rw [hmod] at hnext
  have hcount : (s.next p (.tick w)).node.app.connectAttempt = s.node.app.connectAttempt + 1 :=
    congrArg (fun t : Watched => t.node.app.connectAttempt) hnext
  have hrec : (s.next p (.tick w)).armed =
      s.armed ++ [App.retryInterval (base + s.armed.length + 1)] := by
    rw [← h.attempt]
    exact congrArg Watched.armed hnext
  have hlen : (s.next p (.tick w)).armed.length = s.armed.length + 1 := by
    rw [hrec, List.length_append, List.length_singleton]
  refine ⟨h.base_le, ?_, ?_, ?_⟩
  · rw [hcount, hlen, h.attempt, Nat.add_assoc]
  · omega
  · rw [hlen, hrec, List.range_succ, List.map_append, ← h.armed]
    rfl

/-- A step that counts keeps the intervals numbered. -/
theorem Numbered.step (h : s.Numbered base) (hs : (system p).step s a t) (ha : s.Counts a) :
    ∃ base, t.Numbered base := by
  obtain ⟨-, rfl⟩ := hs
  cases a with
  | input i =>
    have hattempt : (s.node.input i).app.connectAttempt = s.node.app.connectAttempt :=
      App.foldl_mqttEvent_connectAttempt _ _
    exact ⟨base, h.base_le, hattempt.trans h.attempt, hattempt.trans_lt h.attempt_lt, h.armed⟩
  | tick w =>
    rcases s.node.app.mqttStateMachine_connectAttempt p (w.answers s.node.engine) rfl with
      ⟨hd, -⟩ | ⟨hr, hattempt⟩ | ⟨hd, hr, hattempt⟩
    · exact ⟨base, h.failure hd (ha hd)⟩
    · have hrec : (s.next p (.tick w)).armed = [] := if_pos hr
      refine ⟨(s.next p (.tick w)).node.app.connectAttempt, hattempt, ?_, ?_, ?_⟩
      · rw [hrec]
        rfl
      · exact hattempt.trans_lt (by decide)
      · rw [hrec]
        rfl
    · have hrec : (s.next p (.tick w)).armed = s.armed := by
        rw [next, record, if_neg hr, if_neg hd]
      have hcount : (s.next p (.tick w)).node.app.connectAttempt = s.node.app.connectAttempt :=
        hattempt
      refine ⟨base, h.base_le, ?_, ?_, ?_⟩
      · rw [hcount, hrec, h.attempt]
      · rw [hcount]
        exact h.attempt_lt
      · rw [hrec]
        exact h.armed

/-- The failure that overflows the counter starts the backoff again. -/
theorem Numbered.not_backoff (h : s.Numbered base) (hs : (system p).step s a t)
    (ha : ¬s.Counts a) : ¬t.Backoff := by
  obtain ⟨-, rfl⟩ := hs
  cases a with
  | input i => exact absurd trivial ha
  | tick w =>
    rw [Counts, Classical.not_imp, not_not] at ha
    obtain ⟨hd, hlast⟩ := ha
    have hrec : (s.next p (.tick w)).armed = s.armed ++ [App.retryInterval 0] := by
      rw [next_disconnected hd, hlast]
      rfl
    have hlen : 3 ≤ s.armed.length := by
      have := h.base_le
      have := h.attempt
      omega
    have hthird : App.retryInterval (base + 2 + 1) ∈ s.armed := by
      rw [h.armed]
      exact List.mem_map.mpr ⟨2, List.mem_range.mpr hlen, rfl⟩
    intro hb
    have hle := hb.nondecreasing
    rw [hrec, List.pairwise_append] at hle
    have hshort := hle.2.2 _ hthird _ (List.mem_singleton.mpr rfl)
    rw [App.retryInterval_eq, App.retryInterval_eq, min_eq_right (by omega)] at hshort
    exact absurd hshort (by decide)

/-- The backoff grows up to its cap and stays there in every state of a run exactly when no
failure of the run overflows the counter. -/
theorem backoff_iff (p : Program) (clientIdLen pubTopicLen : ℤ) (as : List Occurrence)
    (t : Watched) :
    ((system p).restrict fun s _ => s.Backoff).Run (boot clientIdLen pubTopicLen) as t
      ∧ t.Backoff ↔
    ((system p).restrict Counts).Run (boot clientIdLen pubTopicLen) as t := by
  have hnumbered : ∀ {as t}, ((system p).restrict Counts).Run (boot clientIdLen pubTopicLen) as t →
      ∃ base, t.Numbered base := fun hr => hr.invariant (fun _ t => ∃ base, t.Numbered base)
    ⟨0, numbered_boot _ _⟩ fun _ _ _ _ _ h hs => h.elim fun _ h => h.step hs.1 hs.2
  constructor
  · rintro ⟨hr, ht⟩
    induction hr with
    | nil => exact System.Run.nil _
    | @snoc s u as a hr hs ih =>
      have hrun := ih hs.2
      obtain ⟨base, hn⟩ := hnumbered hrun
      refine hrun.snoc ⟨hs.1, ?_⟩
      by_contra ha
      exact hn.not_backoff hs.1 ha ht
  · intro hr
    induction hr with
    | nil => exact ⟨System.Run.nil _, (numbered_boot _ _).backoff⟩
    | snoc hr hs ih =>
      obtain ⟨base, hn⟩ := hnumbered (hr.snoc hs)
      exact ⟨ih.1.snoc ⟨hs.1, ih.2⟩, hn.backoff⟩

/-- A tick of a node that has an address. -/
def joinedTick : Occurrence := .tick ⟨true, false, ⟨-45, 0, 0⟩⟩

/-- A node that has asked for a connection, with its counter and the intervals so far. -/
def asking (attempt : ℕ) (armed : List ℕ) : Watched where
  node :=
    { app :=
        { state := .connecting
          connectAttempt := attempt
          channel := rplChannel
          window := initNoiseValues
          mqttTimer := some netConnectPeriodic }
      engine := { Engine.boot with state := .notConnected, queue := [.doConnectTcp] } }
  armed := armed

/-- One more step of the sensor with a microphone. -/
theorem reaches_next (h : (system .noiseSensor).Reaches s t) (a : Occurrence)
    (ha : t.node.Enabled a) : (system .noiseSensor).Reaches s (t.next .noiseSensor a) :=
  h.snoc ⟨ha, rfl⟩

/-- The broker does not answer: the engine loses the connection it was opening, the sensor
counts a failure and asks again. -/
theorem reaches_failure (attempt : ℕ) (armed : List ℕ) :
    (system .noiseSensor).Reaches (asking attempt armed)
      (asking ((attempt + 1) % 2 ^ 8)
        (armed ++ [App.retryInterval ((attempt + 1) % 2 ^ 8)])) := by
  have opening := reaches_next (System.Reaches.refl _ (asking attempt armed))
    (.input (.dispatch .waiting true)) nofun
  have lost := reaches_next opening (.input (.tcpClosed true)) nofun
  have aborted := reaches_next lost (.input (.dispatch .waiting true)) nofun
  have counted := reaches_next aborted joinedTick trivial
  rw [joinedTick, next_disconnected rfl] at counted
  exact reaches_next counted joinedTick trivial

/-- The first failure after `STATE_INIT`. -/
theorem reaches_first_failure : (system .noiseSensor).Reaches (boot 31 13)
    (asking 2 [App.retryInterval 2]) := by
  have connecting := reaches_next (System.Reaches.refl _ (boot 31 13)) joinedTick trivial
  have opening := reaches_next connecting (.input (.dispatch .waiting true)) nofun
  have lost := reaches_next opening (.input (.tcpClosed true)) nofun
  have aborted := reaches_next lost (.input (.dispatch .waiting true)) nofun
  have counted := reaches_next aborted joinedTick trivial
  exact reaches_next counted joinedTick trivial

/-- The counter goes up to its last value. -/
theorem reaches_asking {n : ℕ} (hn : n < 254) : (system .noiseSensor).Reaches (boot 31 13)
    (asking (n + 2) ((List.range (n + 1)).map fun i => App.retryInterval (i + 2))) := by
  induction n with
  | zero => exact reaches_first_failure
  | succ n ih =>
    have hmod : (n + 2 + 1) % 2 ^ 8 = n + 1 + 2 := Nat.mod_eq_of_lt (by omega)
    have h := (ih (by omega)).trans (reaches_failure _ _)
    rw [hmod] at h
    rwa [List.range_succ, List.map_append]

/-- After 255 failures in a row the sensor waits two seconds instead of sixteen. -/
theorem not_backoff_overflow :
    ¬∀ t, (system .noiseSensor).Reaches (boot 31 13) t → t.Backoff := by
  intro hall
  have hrun := (reaches_asking (show 253 < 254 by decide)).trans (reaches_failure _ _)
  have hsorted := (hall _ hrun).nondecreasing
  rw [asking, List.pairwise_append] at hsorted
  have hthird :
      App.retryInterval 3 ∈ (List.range (253 + 1)).map fun i => App.retryInterval (i + 2) :=
    List.mem_map.mpr ⟨1, List.mem_range.mpr (by decide), rfl⟩
  exact absurd (hsorted.2.2 _ hthird _ (List.mem_singleton.mpr rfl)) (by decide)

end Watched

end NoiseLevel.Sensor
