import NoiseLevel.Mqtt.Engine

/-!
# Who sets and clears `out_queue_full`

Only an accepted publish sets it. The engine clears it when the protothread of the
publish ends, acknowledged or timed out, and when it aborts the connection.
-/

namespace NoiseLevel.Mqtt

namespace Engine

/-- The state in which `abort_connection` leaves the connection, or in which the automatic
reconnection after it does. -/
def Aborted (e : Engine) : Prop := e.state = .notConnected ∨ e.state = .tcpConnecting

/-- An input runs the protothread of a publish to its end. -/
def EndsPublish (e : Engine) : Input → Prop
  | .dispatch r _ => r.pending = false ∧
      (e.queue.head? = some .doPublish ∨ ∃ writing, e.sending = some ⟨.publish, writing⟩)
  | _ => False

variable (e : Engine)

/-- Posting an event does not touch the queue. -/
@[simp] theorem outQueueFull_post (ev : ProcessEvent) :
    (e.post ev).outQueueFull = e.outQueueFull := rfl

/-- `mqtt_connect` does not touch the queue. -/
@[simp] theorem outQueueFull_mqttConnect : e.mqttConnect.outQueueFull = e.outQueueFull := by
  unfold mqttConnect
  split_ifs <;> rfl

/-- `mqtt_disconnect` does not touch the queue. -/
@[simp] theorem outQueueFull_mqttDisconnect : e.mqttDisconnect.outQueueFull = e.outQueueFull := by
  unfold mqttDisconnect
  split_ifs <;> rfl

/-- The keep-alive timer does not touch the queue. -/
@[simp] theorem outQueueFull_keepAliveCallback :
    e.keepAliveCallback.outQueueFull = e.outQueueFull := by
  unfold keepAliveCallback
  split_ifs <;> rfl

/-- A publish is accepted exactly when it finds the connection open and nothing in flight,
and then it is in flight itself. -/
theorem mqttPublishStatus_eq_ok_iff : e.mqttPublishStatus = .ok ↔
    e.state = .connectedToBroker ∧ e.outQueueFull = false := by
  unfold mqttPublishStatus
  split_ifs with hstate hfull
  · exact iff_of_false nofun fun h => hstate h.1
  · exact iff_of_false nofun fun h => Bool.false_ne_true (h.2.symm.trans hfull)
  · exact iff_of_true rfl ⟨not_not.mp hstate, Bool.eq_false_iff.mpr hfull⟩

/-- An accepted publish fills the queue. -/
theorem outQueueFull_mqttPublish : e.mqttPublish.outQueueFull =
    (e.outQueueFull || decide (e.mqttPublishStatus = .ok)) := by
  unfold mqttPublish mqttPublishStatus
  split_ifs with hstate hfull <;> simp_all

/-- What `mqtt_publish` does not accept leaves the engine alone. -/
theorem mqttPublish_of_ne_ok (h : e.mqttPublishStatus ≠ .ok) : e.mqttPublish = e := by
  unfold mqttPublish
  unfold mqttPublishStatus at h
  split_ifs at h ⊢ <;> trivial

/-- Writing a packet does not touch the queue. -/
@[simp] theorem outQueueFull_written (k : Packet) :
    (e.written k).outQueueFull = e.outQueueFull := by
  cases k <;> rfl

/-- Only the end of a publish clears it in a protothread. -/
theorem outQueueFull_ended (expired : Bool) {k : Packet} (hk : k ≠ .publish) :
    (e.ended expired k).outQueueFull = e.outQueueFull := by
  cases k with
  | publish => exact absurd rfl hk
  | connect =>
    unfold ended
    split_ifs <;> simp
  | disconnect | pingreq => rfl

/-- A protothread leaves the queue alone unless it is that of a PUBLISH and ends. -/
theorem outQueueFull_runPt (s : Sending) {r : Progress}
    (h : ¬(s.packet = .publish ∧ r.pending = false)) :
    (e.runPt s r).outQueueFull = e.outQueueFull := by
  obtain ⟨k, w⟩ := s
  cases r with
  | blocked => cases w <;> rfl
  | waiting => cases w <;> simp [runPt]
  | finished expired =>
    have hk : k ≠ .publish := fun hk => h ⟨hk, rfl⟩
    cases w <;> simp [runPt, outQueueFull_ended _ _ hk]

/-- A publish that ends clears it. -/
theorem outQueueFull_runPt_publish (w : Bool) {r : Progress} (hr : r.pending = false) :
    (e.runPt ⟨.publish, w⟩ r).outQueueFull = false := by
  cases r with
  | finished expired => cases w <;> rfl
  | blocked | waiting => exact absurd hr nofun

/-- How a handler may treat `out_queue_full`: it leaves it, or clears it because a publish
ended or the connection was aborted. -/
def Clears (ends : Prop) (e f : Engine) : Prop :=
  f.outQueueFull = e.outQueueFull ∨ f.outQueueFull = false ∧ (ends ∨ f.Aborted)

variable {e} {ends : Prop} {f : Engine}

/-- A step that does not touch the queue clears nothing. -/
theorem Clears.of_eq (h : f.outQueueFull = e.outQueueFull) : Clears ends e f := Or.inl h

/-- Tearing the connection down clears the queue. -/
theorem clears_abortConnection : Clears ends e f.abortConnection :=
  Or.inr ⟨rfl, Or.inr (Or.inl rfl)⟩

/-- The end of the PUBLISH clears the queue. -/
theorem clears_runPt (s : Sending) (r : Progress) :
    Clears (s.packet = .publish ∧ r.pending = false) e (e.runPt s r) := by
  by_cases h : s.packet = .publish ∧ r.pending = false
  · obtain ⟨k, w⟩ := s
    obtain ⟨rfl, hr⟩ := h
    exact Or.inr ⟨e.outQueueFull_runPt_publish w hr, Or.inl ⟨rfl, hr⟩⟩
  · exact Clears.of_eq (e.outQueueFull_runPt s h)

/-- What follows a handler and touches neither the flag nor the state. -/
theorem Clears.of_same {g : Engine} (h : Clears ends e f)
    (hfull : g.outQueueFull = f.outQueueFull) (hstate : g.state = f.state) : Clears ends e g := by
  unfold Clears Aborted at *
  rwa [hfull, hstate]

/-- The reason for clearing may be weakened. -/
theorem Clears.imp {ends' : Prop} (h : Clears ends e f) (himp : ends → ends') :
    Clears ends' e f := Or.imp_right (And.imp_right (Or.imp_left himp)) h

section Rounds

variable {s : Sending} {r : Progress} (h : Clears ends e (e.runPt s r))
include h

/-- A round of the connecting loop clears the queue only when it aborts. -/
theorem Clears.connectRound : Clears ends e (e.connectRound s r).1 := by
  unfold Engine.connectRound
  split_ifs
  · exact h.of_same rfl rfl
  · exact h.of_same rfl rfl

/-- A round of the disconnecting loop clears the queue only when it aborts. -/
theorem Clears.disconnectRound : Clears ends e (e.disconnectRound s r).1 := by
  unfold Engine.disconnectRound
  split_ifs
  · exact clears_abortConnection
  · exact h.of_same rfl rfl
  · exact clears_abortConnection

/-- A round of the connected loop clears the queue only where a publish ends. -/
theorem Clears.connectedRound : Clears ends e (e.connectedRound s r).1 := by
  unfold Engine.connectedRound
  split_ifs
  · exact Clears.of_eq rfl
  · exact h.of_same rfl rfl
  · exact h.of_same rfl rfl

end Rounds

/-- One round of a loop around a protothread. -/
theorem clears_sendRound (s : Sending) (r : Progress) :
    Clears (s.packet = .publish ∧ r.pending = false) e (e.sendRound s r).1 := by
  have hrun := clears_runPt (e := e) s r
  obtain ⟨k, w⟩ := s
  cases k with
  | connect => exact hrun.connectRound
  | disconnect => exact hrun.disconnectRound
  | pingreq | publish => exact hrun.connectedRound

/-- The main loop of `mqtt_process`. -/
theorem clears_process (ev : ProcessEvent) (r : Progress) (free : Bool) :
    Clears (r.pending = false ∧ ev = .doPublish) e (e.process ev r free).1 := by
  cases ev with
  | abortNow => exact clears_abortConnection
  | doConnectTcp | continueSend => exact Clears.of_eq rfl
  | doConnectMqtt =>
    rw [process]
    split_ifs
    · exact (clears_sendRound ⟨.connect, true⟩ r).imp nofun
    · exact Clears.of_eq rfl
  | doDisconnectMqtt =>
    rw [process]
    split_ifs
    · exact (clears_sendRound ⟨.disconnect, true⟩ r).imp nofun
    · exact Clears.of_eq rfl
    · exact Clears.of_eq rfl
  | doPingreq =>
    rw [process]
    split_ifs
    · exact (clears_sendRound ⟨.pingreq, true⟩ r).imp nofun
    · exact Clears.of_eq rfl
  | doPublish =>
    rw [process]
    split_ifs
    · exact (clears_sendRound ⟨.publish, true⟩ r).imp fun h => ⟨h.2, rfl⟩
    · exact Clears.of_eq rfl

/-- A loop around a protothread that waits. -/
theorem clears_processWaiting (s : Sending) (ev : ProcessEvent) (r : Progress) :
    Clears (r.pending = false ∧ s.packet = .publish) e (e.processWaiting s ev r).1 := by
  cases ev with
  | continueSend => exact (clears_sendRound s r).imp And.symm
  | _ => exact Clears.of_eq rfl

/-- No input sets `out_queue_full`, and one that clears it ends a publish or aborts the
connection. -/
theorem clears_receive (i : Input) : Clears (e.EndsPublish i) e (e.receive i).1 := by
  cases i with
  | dispatch r free =>
    rw [receive]
    cases hq : e.queue with
    | nil => exact Clears.of_eq rfl
    | cons ev rest =>
      cases hs : e.sending with
      | none =>
        refine Clears.imp (clears_process ev r free) fun h => ⟨h.1, Or.inl ?_⟩
        rw [hq, h.2]
        rfl
      | some s =>
        refine Clears.imp (clears_processWaiting s ev r) fun h => ⟨h.1, Or.inr ⟨s.writing, ?_⟩⟩
        rw [hs, ← h.2]
  | connack code =>
    rw [receive, handleConnack]
    split_ifs
    · exact clears_abortConnection
    · exact Clears.of_eq rfl
  | puback | tcpConnected | tcpDataSent => exact Clears.of_eq rfl
  | tcpClosed free =>
    rw [receive, tcpEventClosed]
    dsimp only
    split_ifs
    · exact Or.inr ⟨rfl, Or.inr (Or.inr rfl)⟩
    · exact clears_abortConnection
  | keepAlive => exact Clears.of_eq e.outQueueFull_keepAliveCallback

end Engine

end NoiseLevel.Mqtt
