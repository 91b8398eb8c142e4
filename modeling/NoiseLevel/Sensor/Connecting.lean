import NoiseLevel.Sensor.Node

/-!
# The sensor waits only for an attempt in progress

Between two connections the engine has no socket, so an attempt starts with a queued event
and is in progress from then on. The sensor misses its end when the broker refuses it, or
when it starts before the abort event of the last connection has been taken.
-/

namespace NoiseLevel.Sensor

open NoiseLevel.Core Mqtt

/-- What the sensor expects of its engine: nothing, a connection, or service. -/
inductive Phase where
  | idle
  | connecting
  | active
deriving DecidableEq

/-- The phase of a state. -/
def AppState.phase : AppState → Phase
  | .connecting => .connecting
  | .connected | .sampling => .active
  | _ => .idle

/-- The states of a connection that the broker has accepted. -/
def Up (s : ConnState) : Prop := s = .connectedToBroker ∨ s = .sendingMqttDisconnect

/-- The phase after an event. -/
def Phase.after (ph : Phase) : MqttEvent → Phase
  | .connected => .active
  | .disconnected => .idle
  | _ => ph

/-- The packet whose protothread the process drives. -/
def sendingPacket (e : Engine) : Option Packet := e.sending.map Sending.packet

/-- What holds of the engine in a phase of the sensor. -/
structure Sound (ph : Phase) (e : Engine) : Prop where
  /-- Between two connections there is no socket. -/
  idle_socket : ph = .idle → e.socket = .none
  /-- Only a waiting sensor has a connection queued. -/
  queued_phase : .doConnectTcp ∈ e.queue → ph = .connecting
  /-- A queued connection has no socket yet. -/
  queued_socket : .doConnectTcp ∈ e.queue → e.socket = .none
  /-- A connection is queued once. -/
  queued_once : e.queue.count .doConnectTcp ≤ 1
  /-- The abort event of a lost connection is taken before the next attempt. -/
  abort_idle : .abortNow ∈ e.queue → ph = .idle
  /-- An accepted connection has a socket. -/
  up_socket : Up e.state → e.socket = .established
  /-- An accepted connection serves the sensor. -/
  up_phase : Up e.state → ph = .active
  /-- A DISCONNECT that a lost connection interrupts is about to be aborted. -/
  leaving_idle : sendingPacket e = some .disconnect → ph = .idle → .abortNow ∈ e.queue
  /-- A DISCONNECT is over before the next attempt. -/
  leaving_connecting : sendingPacket e = some .disconnect → ph ≠ .connecting
  /-- A DISCONNECT is not sent while an answer to a PINGREQ is awaited. -/
  leaving_ping : sendingPacket e = some .disconnect → e.waitingForPingresp = false
  /-- Only the protothread of a PINGREQ awaits its answer. -/
  ping_sending : e.waitingForPingresp = true →
    sendingPacket e = some .pingreq ∨ e.socket = .none
  /-- A PINGREQ is sent as long as the broker is connected. -/
  ping_state : sendingPacket e = some .pingreq →
    e.state = .connectedToBroker ∨ e.socket = .none
  /-- The keep-alive timer does not hit a sensor that is not served. -/
  ping_keepAlive : ph ≠ .active → e.waitingForPingresp = true → e.keepAlive ≠ .running
  /-- A waiting sensor has an attempt in progress. -/
  attempt : ph = .connecting → .doConnectTcp ∈ e.queue ∨ e.state.InProgress
  /-- The engine never reconnects by itself. -/
  manual : e.autoReconnect = false

/-- What holds once the events of a step have reached the sensor. -/
def SoundAfter (ph : Phase) (r : Engine × List MqttEvent) : Prop :=
  Sound (r.2.foldl Phase.after ph) r.1

namespace Sound

variable {ph : Phase} {e : Engine} {ev : ProcessEvent}

/-- Only the events that open and abort a connection matter in the queue. -/
theorem setQueue (h : Sound ph e) {q : List ProcessEvent}
    (hd : q.count .doConnectTcp = e.queue.count .doConnectTcp)
    (ha : .abortNow ∈ q ↔ .abortNow ∈ e.queue) : Sound ph { e with queue := q } := by
  have hm : .doConnectTcp ∈ q ↔ .doConnectTcp ∈ e.queue := by
    rw [← List.count_pos_iff, hd, List.count_pos_iff]
  exact { h with
    queued_phase := fun hq => h.queued_phase (hm.mp hq)
    queued_socket := fun hq => h.queued_socket (hm.mp hq)
    queued_once := hd.trans_le h.queued_once
    abort_idle := fun hq => h.abort_idle (ha.mp hq)
    leaving_idle := fun hs hp => ha.mpr (h.leaving_idle hs hp)
    attempt := fun hp => (h.attempt hp).imp_left hm.mpr }

/-- Other events may be posted. -/
theorem post (h : Sound ph e) (hd : ev ≠ .doConnectTcp) (ha : ev ≠ .abortNow) :
    Sound ph (e.post ev) := by
  apply h.setQueue
  · rw [List.count_append, List.count_singleton, if_neg (by simpa using hd), add_zero]
  · rw [List.mem_append, List.mem_singleton, or_iff_left ha.symm]

/-- Other events may be taken. -/
theorem drop (h : Sound ph e) {rest : List ProcessEvent} (hq : e.queue = ev :: rest)
    (hd : ev ≠ .doConnectTcp) (ha : ev ≠ .abortNow) : Sound ph { e with queue := rest } := by
  apply h.setQueue
  · rw [hq, List.count_cons_of_ne hd]
  · rw [hq, List.mem_cons, or_iff_right ha.symm]

/-- Any event may go to the end. -/
theorem rotate (h : Sound ph e) {rest : List ProcessEvent} (hq : e.queue = ev :: rest) :
    Sound ph ({ e with queue := rest }.post ev) := by
  apply h.setQueue
  · rw [hq, List.count_append, List.count_singleton, List.count_cons]
  · rw [hq, List.mem_append, List.mem_singleton, List.mem_cons, or_comm]

theorem abort_not_mem (h : Sound ph e) (hp : ph ≠ .idle) : .abortNow ∉ e.queue :=
  fun ha => hp (h.abort_idle ha)

theorem not_idle (h : Sound ph e) (hs : e.socket ≠ .none) : ph ≠ .idle :=
  fun hp => hs (h.idle_socket hp)

theorem not_queued (h : Sound ph e) (hs : e.socket ≠ .none) : .doConnectTcp ∉ e.queue :=
  fun hd => hs (h.queued_socket hd)

/-- A protothread that awaits an answer has a connection that is up. -/
theorem up_of_waiting (h : Sound ph e) (hs : e.socket ≠ .none)
    (hw : e.waitingForPingresp = true) : Up e.state :=
  Or.inl ((h.ping_state ((h.ping_sending hw).resolve_right hs)).resolve_right hs)

/-- `abort_connection` for a sensor that does not wait for a connection. -/
theorem abortConnection (h : Sound ph e) (hp : ph ≠ .connecting) :
    Sound ph e.abortConnection := { h with
  idle_socket := fun _ => rfl
  queued_socket := fun _ => rfl
  up_socket := nofun
  up_phase := nofun
  ping_sending := fun _ => Or.inr rfl
  ping_state := fun _ => Or.inr rfl
  attempt := fun hc => absurd hc hp }

/-- An attempt that starts from an engine without sockets and abort events. -/
theorem start (h : Sound .idle e) (ha : .abortNow ∉ e.queue) {q : List ProcessEvent}
    (hq : q = e.queue ∨ q = e.queue ++ [.doConnectTcp])
    (hatt : .doConnectTcp ∈ q ∨ e.state.InProgress) : Sound .connecting { e with queue := q } := by
  have hnone : e.socket = .none := h.idle_socket rfl
  have hdown : ¬ Up e.state := fun hu => absurd (h.up_phase hu) nofun
  have hnot : .doConnectTcp ∉ e.queue := fun hd => absurd (h.queued_phase hd) nofun
  exact { h with
    idle_socket := nofun
    queued_phase := fun _ => rfl
    queued_socket := fun _ => hnone
    queued_once := by
      rcases hq with rfl | rfl
      · exact h.queued_once
      · rw [List.count_append, List.count_eq_zero.mpr hnot, List.count_singleton_self]
    abort_idle := fun hm => by
      rcases hq with rfl | rfl
      · exact absurd hm ha
      · exact absurd (List.mem_append.mp hm) (not_or.mpr ⟨ha, by decide⟩)
    up_phase := fun hu => absurd hu hdown
    leaving_idle := nofun
    leaving_connecting := fun hs _ => ha (h.leaving_idle hs rfl)
    ping_keepAlive := fun _ => h.ping_keepAlive nofun
    attempt := fun _ => hatt }

/-- `mqtt_connect` when the events of the last connection have been taken. -/
theorem mqttConnect (h : Sound .idle e) (ha : .abortNow ∉ e.queue) :
    Sound .connecting e.mqttConnect := by
  rw [Engine.mqttConnect]
  split_ifs with hs
  · exact h.start ha (Or.inl rfl) (Or.inr hs)
  · exact h.start ha (Or.inr rfl)
      (Or.inl (List.mem_append_right _ (List.mem_singleton_self _)))

/-- `connect_tcp` for a queued event. -/
theorem connectTcp (h : Sound ph e) {rest : List ProcessEvent}
    (hq : e.queue = .doConnectTcp :: rest) (hs : e.sending = none) (free : Bool) :
    Sound ph ({ e with queue := rest }.connectTcp free) := by
  have hmem : .doConnectTcp ∈ e.queue := hq ▸ List.mem_cons_self ..
  obtain rfl : ph = .connecting := h.queued_phase hmem
  have hnot : .doConnectTcp ∉ rest := by
    have := h.queued_once
    rw [hq, List.count_cons_self] at this
    exact List.count_eq_zero.mp (Nat.le_zero.mp (Nat.le_of_succ_le_succ this))
  have hsend : sendingPacket ({ e with queue := rest }.connectTcp free) = none := by
    rw [sendingPacket, Engine.connectTcp, hs, Option.map_none]
  exact {
    idle_socket := nofun
    queued_phase := fun hd => absurd hd hnot
    queued_socket := fun hd => absurd hd hnot
    queued_once := (List.count_eq_zero.mpr hnot).trans_le zero_le_one
    abort_idle := fun ha => absurd (hq ▸ List.mem_cons_of_mem _ ha) (h.abort_not_mem nofun)
    up_socket := nofun
    up_phase := nofun
    leaving_idle := nofun
    leaving_connecting := fun hd => by rw [hsend] at hd; cases hd
    leaving_ping := fun _ => rfl
    ping_sending := nofun
    ping_state := fun hd => by rw [hsend] at hd; cases hd
    ping_keepAlive := fun _ => nofun
    attempt := fun _ => Or.inr ConnState.inProgress_tcpConnecting
    manual := h.manual }

/-- `mqtt_disconnect`, except from the protothread of a PINGREQ. -/
theorem mqttDisconnect (h : Sound ph e) (hp : sendingPacket e ≠ some .pingreq) :
    Sound ph e.mqttDisconnect := by
  rw [Engine.mqttDisconnect]
  split_ifs with hs
  · exact h
  · rw [not_not] at hs
    have hup : Up e.state := Or.inl hs
    have hcalm : Sound ph { e with state := .sendingMqttDisconnect } := { h with
      up_socket := fun _ => h.up_socket hup
      up_phase := fun _ => h.up_phase hup
      ping_state := fun hd => absurd hd hp
      attempt := fun hc => absurd (hc.symm.trans (h.up_phase hup)) nofun }
    exact hcalm.post nofun nofun

/-- A sensor that is not served cannot send DISCONNECT. -/
theorem mqttDisconnect_eq (h : Sound ph e) (hp : ph ≠ .active) : e.mqttDisconnect = e := by
  rw [Engine.mqttDisconnect, if_pos fun hs => hp (h.up_phase (Or.inl hs))]

/-- `mqtt_publish`. -/
theorem mqttPublish (h : Sound ph e) : Sound ph e.mqttPublish := by
  rw [Engine.mqttPublish]
  split_ifs
  · exact h
  · exact h
  · have hfull : Sound ph { e with outQueueFull := true } := { h with }
    exact hfull.post nofun nofun

/-- The broker accepts the connection. -/
theorem accepted (h : Sound ph e) (hs : e.socket = .established) :
    Sound .active { e with keepAlive := .running, state := .connectedToBroker } := by
  have hsock : e.socket ≠ .none := hs ▸ nofun
  have hnot : .doConnectTcp ∉ e.queue := h.not_queued hsock
  exact { h with
    idle_socket := nofun
    queued_phase := fun hd => absurd hd hnot
    abort_idle := fun ha => absurd ha (h.abort_not_mem (h.not_idle hsock))
    up_socket := fun _ => hs
    up_phase := fun _ => rfl
    leaving_idle := nofun
    leaving_connecting := nofun
    ping_state := fun _ => Or.inl rfl
    ping_keepAlive := fun hp => absurd rfl hp
    attempt := nofun }

/-- The TCP connection is open. -/
theorem tcpConnected (h : Sound ph e) (hs : e.socket = .connecting) :
    Sound ph e.tcpEventConnected := by
  have hsock : e.socket ≠ .none := hs ▸ nofun
  have hdown : ¬ Up e.state := fun hu => absurd (hs.symm.trans (h.up_socket hu)) nofun
  have hcalm : Sound ph
      { e with state := .tcpConnected, outBufferSent := true, socket := .established } := { h with
    idle_socket := fun hp => absurd hp (h.not_idle hsock)
    queued_socket := fun hd => absurd hd (h.not_queued hsock)
    up_socket := nofun
    up_phase := nofun
    ping_sending := fun hw => absurd (h.up_of_waiting hsock hw) hdown
    ping_state := fun hp => absurd (Or.inl ((h.ping_state hp).resolve_right hsock)) hdown
    attempt := fun _ => Or.inr ConnState.inProgress_tcpConnected }
  exact hcalm.post nofun nofun

/-- The TCP connection is lost. -/
theorem tcpClosed (h : Sound ph e) (hs : e.socket ≠ .none) (free : Bool) :
    Sound .idle (e.tcpEventClosed free).1 := by
  have hnot : .doConnectTcp ∉ e.queue := h.not_queued hs
  have habort : ProcessEvent.abortNow ∈ e.queue ++ [.abortNow] :=
    List.mem_append_right _ (List.mem_singleton_self _)
  have hcount : (e.queue ++ [ProcessEvent.abortNow]).count .doConnectTcp = 0 := by
    rw [List.count_append, List.count_eq_zero.mpr hnot]
    rfl
  rw [Engine.tcpEventClosed, if_neg (h.manual ▸ nofun)]
  exact { h with
    idle_socket := fun _ => rfl
    queued_phase := fun hd => absurd hd (List.count_eq_zero.mp hcount)
    queued_socket := fun _ => rfl
    queued_once := hcount.trans_le zero_le_one
    abort_idle := fun _ => rfl
    up_socket := nofun
    up_phase := nofun
    leaving_idle := fun _ _ => habort
    leaving_connecting := nofun
    ping_sending := fun _ => Or.inr rfl
    ping_state := fun _ => Or.inr rfl
    ping_keepAlive := fun _ _ => KeepAlive.stop_ne_running _
    attempt := nofun }

/-- Data is acknowledged. -/
theorem tcpDataSent (h : Sound ph e) (hs : e.socket = .established) (all : Bool) :
    Sound ph (e.tcpEventDataSent all) := { h with
  ping_keepAlive := fun hp hw =>
    absurd (h.up_phase (h.up_of_waiting (hs ▸ nofun) hw)) hp }

/-- The keep-alive timer fires. -/
theorem keepAliveCallback (h : Sound ph e) (hk : e.keepAlive = .running) :
    Sound ph e.keepAliveCallback := by
  have hcalm : Sound ph { e with keepAlive := .stopped } := { h with
    ping_keepAlive := fun _ _ => nofun }
  rw [Engine.keepAliveCallback]
  split_ifs with hw
  · have hactive : ph = .active := by
      by_contra hp
      exact h.ping_keepAlive hp hw hk
    exact { hcalm with
      idle_socket := fun _ => rfl
      queued_socket := fun _ => rfl
      up_socket := nofun
      up_phase := nofun
      ping_sending := fun _ => Or.inr rfl
      ping_state := fun _ => Or.inr rfl
      attempt := fun hc => absurd (hc.symm.trans hactive) nofun }
  · exact hcalm.post nofun nofun

/-- A protothread that is neither that of PINGREQ nor that of DISCONNECT comes or goes. -/
theorem setSending (h : Sound ph e) (hs : sendingPacket e ≠ some .pingreq) {x : Option Sending}
    (hx : ∀ s ∈ x, s.packet = .connect ∨ s.packet = .publish) :
    Sound ph { e with sending := x } := by
  have hp : sendingPacket { e with sending := x } ≠ some .pingreq ∧
      sendingPacket { e with sending := x } ≠ some .disconnect := by
    cases x with
    | none => exact ⟨nofun, nofun⟩
    | some s => rcases hx s rfl with hs | hs <;> simp [sendingPacket, hs]
  exact { h with
    leaving_idle := fun hd => absurd hd hp.2
    leaving_connecting := fun hd => absurd hd hp.2
    leaving_ping := fun hd => absurd hd hp.2
    ping_sending := fun hw => Or.inr ((h.ping_sending hw).resolve_left hs)
    ping_state := fun hd => absurd hd hp.1 }

/-- The loop around such a protothread goes on. -/
theorem waitSend (h : Sound ph e) (hs : sendingPacket e ≠ some .pingreq) {s : Sending}
    (hp : s.packet = .connect ∨ s.packet = .publish) (r : Progress) :
    Sound ph (e.waitSend s r) := by
  have hset : Sound ph
      { e with sending := some ⟨s.packet, s.writing && decide (r = Progress.blocked)⟩ } := by
    apply h.setSending hs
    rintro _ ⟨⟩
    exact hp
  exact hset.post nofun nofun

/-- The loop around such a protothread ends. -/
theorem leave (h : Sound ph e) (hs : sendingPacket e ≠ some .pingreq) : Sound ph e.leave := by
  apply h.setSending hs
  rintro _ ⟨⟩

/-- A run of the protothread of CONNECT. -/
theorem runConnect (h : Sound ph e) (hs : sendingPacket e ≠ some .pingreq) (w : Bool)
    (r : Progress) : Sound ph (e.runPt ⟨.connect, w⟩ r) ∧
      sendingPacket (e.runPt ⟨.connect, w⟩ r) ≠ some .pingreq := by
  have hdisc : sendingPacket e.mqttDisconnect = sendingPacket e := by
    rw [Engine.mqttDisconnect]
    split_ifs <;> rfl
  have hwritten : Sound ph (e.written .connect) := { h with
    up_socket := nofun
    up_phase := nofun
    ping_state := fun hp => absurd hp hs
    attempt := fun _ => Or.inr ConnState.inProgress_connectingToBroker }
  cases w with
  | true =>
    cases r with
    | blocked => exact ⟨{ h with }, hs⟩
    | waiting => exact ⟨hwritten, hs⟩
    | finished expired =>
      cases expired with
      | false => exact ⟨hwritten, hs⟩
      | true => exact ⟨hwritten.mqttDisconnect hs, hs⟩
  | false =>
    cases r with
    | finished expired =>
      cases expired with
      | false => exact ⟨h, hs⟩
      | true => exact ⟨h.mqttDisconnect hs, hdisc ▸ hs⟩
    | _ => exact ⟨h, hs⟩

/-- A round of the loop around CONNECT. -/
theorem connectRound (h : Sound ph e) (hs : sendingPacket e ≠ some .pingreq) (w : Bool)
    (r : Progress) : SoundAfter ph (e.connectRound ⟨.connect, w⟩ r) := by
  obtain ⟨hr, hp⟩ := h.runConnect hs w r
  rw [Engine.connectRound]
  split_ifs
  · exact hr.waitSend hp (Or.inl rfl) r
  · exact hr.leave hp

/-- A round of the loop around PUBLISH. -/
theorem publishRound (h : Sound ph e) (hs : sendingPacket e ≠ some .pingreq) (w : Bool)
    (r : Progress) : SoundAfter ph (e.connectedRound ⟨.publish, w⟩ r) := by
  have hr : Sound ph (e.runPt ⟨.publish, w⟩ r) := by
    cases w <;> cases r <;> exact { h with }
  have hp : sendingPacket (e.runPt ⟨.publish, w⟩ r) ≠ some .pingreq := by
    cases w <;> cases r <;> exact hs
  rw [Engine.connectedRound]
  split_ifs
  · exact h.leave hs
  · exact hr.waitSend hp (Or.inr rfl) r
  · exact hr.leave hp

/-- A round of the loop around PINGREQ. -/
theorem pingreqRound (h : Sound ph e) (w : Bool) (r : Progress) :
    SoundAfter ph (e.connectedRound ⟨.pingreq, w⟩ r) := by
  rw [Engine.connectedRound]
  split_ifs with hstate hr
  · exact { h with
      leaving_idle := nofun
      leaving_connecting := nofun
      leaving_ping := nofun
      ping_sending := fun hw => Or.inr <|
        (h.ping_sending hw).elim (fun hp => (h.ping_state hp).resolve_left hstate) id
      ping_state := nofun }
  · rw [not_not] at hstate
    have hwait : ∀ sent waiting x, Sound ph { e with
        outBufferSent := sent
        waitingForPingresp := waiting
        sending := some ⟨.pingreq, x⟩ } := fun _ _ _ => { h with
      leaving_idle := nofun
      leaving_connecting := nofun
      leaving_ping := nofun
      ping_sending := fun _ => Or.inl rfl
      ping_state := fun _ => Or.inl hstate
      ping_keepAlive := fun hp => absurd (h.up_phase (Or.inl hstate)) hp }
    cases w <;> cases r <;> exact (hwait _ _ _).post nofun nofun
  · have hleave : ∀ sent, Sound ph { e with
        outBufferSent := sent
        waitingForPingresp := false
        sending := none } := fun _ => { h with
      leaving_idle := nofun
      leaving_connecting := nofun
      leaving_ping := nofun
      ping_sending := nofun
      ping_state := nofun
      ping_keepAlive := fun _ => nofun }
    cases r with
    | finished => cases w <;> exact hleave _
    | _ => exact absurd rfl hr

/-- The end of a connection that the sensor closed. -/
theorem closed (h : Sound ph e) (hc : ph ≠ .connecting) (hw : e.waitingForPingresp = false) :
    Sound .idle e.leave.abortConnection := { h with
  idle_socket := fun _ => rfl
  queued_phase := fun hd => absurd (h.queued_phase hd) hc
  queued_socket := fun _ => rfl
  abort_idle := fun _ => rfl
  up_socket := nofun
  up_phase := nofun
  leaving_idle := nofun
  leaving_connecting := nofun
  leaving_ping := nofun
  ping_sending := fun _ => Or.inr rfl
  ping_state := nofun
  ping_keepAlive := fun _ hp => absurd (hw.symm.trans hp) nofun
  attempt := nofun }

/-- A round of the loop around DISCONNECT. -/
theorem disconnectRound (h : Sound ph e) (hc : ph ≠ .connecting)
    (hw : e.waitingForPingresp = false) (ha : ph = .idle → .abortNow ∈ e.queue) (w : Bool)
    (r : Progress) : SoundAfter ph (e.disconnectRound ⟨.disconnect, w⟩ r) := by
  have hrun : ∃ sent, e.runPt ⟨.disconnect, w⟩ r = { e with outBufferSent := sent } := by
    cases w <;> cases r <;> exact ⟨_, rfl⟩
  obtain ⟨sent, hrun⟩ := hrun
  have hsent : Sound ph { e with outBufferSent := sent } := { h with }
  rw [Engine.disconnectRound, hrun]
  split_ifs
  · exact h.closed hc hw
  · have hwait : ∀ x, Sound ph { e with
        outBufferSent := sent
        sending := some ⟨.disconnect, x⟩ } := fun _ => { h with
      leaving_idle := fun _ => ha
      leaving_connecting := fun _ => hc
      leaving_ping := fun _ => hw
      ping_sending := fun hp => absurd (hw.symm.trans hp) nofun
      ping_state := nofun }
    exact (hwait _).post nofun nofun
  · exact hsent.closed hc hw

/-- A round of the loop around the packet that is being sent. -/
theorem sendRound (h : Sound ph e) {s : Sending} (hs : sendingPacket e = some s.packet)
    (r : Progress) : SoundAfter ph (e.sendRound s r) := by
  obtain ⟨packet, w⟩ := s
  cases packet with
  | connect => exact h.connectRound (hs ▸ nofun) w r
  | disconnect =>
    exact h.disconnectRound (h.leaving_connecting hs) (h.leaving_ping hs) (h.leaving_idle hs) w r
  | pingreq => exact h.pingreqRound w r
  | publish => exact h.publishRound (hs ▸ nofun) w r

/-- The main loop starts to send DISCONNECT. -/
theorem startDisconnect (h : Sound ph e) (hs : sendingPacket e ≠ some .pingreq)
    (hstate : e.state = .sendingMqttDisconnect) (r : Progress) :
    SoundAfter ph (e.disconnectRound ⟨.disconnect, true⟩ r) := by
  have hup : Up e.state := Or.inr hstate
  have hactive : ph = .active := h.up_phase hup
  have hw : e.waitingForPingresp = false := by
    rw [← Bool.not_eq_true]
    intro hw
    have hnone := (h.ping_sending hw).resolve_left hs
    exact absurd ((h.up_socket hup).symm.trans hnone) nofun
  exact h.disconnectRound (hactive ▸ nofun) hw (fun hi => absurd (hi.symm.trans hactive) nofun)
    true r

/-- The main loop takes the abort event of a lost connection. -/
theorem takeAbort (h : Sound .idle e) (hs : e.sending = none) {rest : List ProcessEvent}
    (hq : e.queue = .abortNow :: rest) :
    Sound .idle { e with queue := rest, state := .abortImmediate }.abortConnection := by
  have hsub : rest.Sublist e.queue := hq ▸ List.sublist_cons_self _ _
  have hsend : ∀ packet, sendingPacket e ≠ some packet := fun _ => by
    rw [sendingPacket, hs]
    exact nofun
  exact { h with
    idle_socket := fun _ => rfl
    queued_phase := fun hd => h.queued_phase (hsub.subset hd)
    queued_socket := fun _ => rfl
    queued_once := (hsub.count_le _).trans h.queued_once
    abort_idle := fun _ => rfl
    up_socket := nofun
    up_phase := nofun
    leaving_idle := fun hd => absurd hd (hsend _)
    ping_sending := fun _ => Or.inr rfl
    ping_state := fun _ => Or.inr rfl
    attempt := nofun }

/-- The main loop takes an event. -/
theorem process (h : Sound ph e) (hs : e.sending = none) {rest : List ProcessEvent}
    (hq : e.queue = ev :: rest) (r : Progress) (free : Bool) :
    SoundAfter ph ({ e with queue := rest }.process ev r free) := by
  have hnone : sendingPacket { e with queue := rest } ≠ some .pingreq := by
    rw [sendingPacket, hs]
    exact nofun
  cases ev with
  | doConnectTcp => exact h.connectTcp hq hs free
  | abortNow =>
    obtain rfl : ph = .idle := h.abort_idle (hq ▸ List.mem_cons_self ..)
    exact h.takeAbort hs hq
  | doConnectMqtt =>
    have hd := h.drop hq nofun nofun
    rw [Engine.process]
    split_ifs
    · exact hd.connectRound hnone true r
    · exact hd
  | doDisconnectMqtt =>
    have hd := h.drop hq nofun nofun
    rw [Engine.process]
    split_ifs with hstate
    · exact hd.startDisconnect hnone hstate r
    · exact hd.post nofun nofun
    · exact hd
  | doPublish =>
    have hd := h.drop hq nofun nofun
    rw [Engine.process]
    split_ifs
    · exact hd.publishRound hnone true r
    · exact hd
  | doPingreq =>
    have hd := h.drop hq nofun nofun
    rw [Engine.process]
    split_ifs
    · exact hd.pingreqRound true r
    · exact hd
  | continueSend => exact h.drop hq nofun nofun

/-- `PT_MQTT_WAIT_SEND` takes an event. -/
theorem processWaiting (h : Sound ph e) {s : Sending} (hs : e.sending = some s)
    {rest : List ProcessEvent} (hq : e.queue = ev :: rest) (r : Progress) :
    SoundAfter ph ({ e with queue := rest }.processWaiting s ev r) := by
  have hp : sendingPacket e = some s.packet := congrArg (Option.map Sending.packet) hs
  cases ev with
  | abortNow =>
    obtain rfl : ph = .idle := h.abort_idle (hq ▸ List.mem_cons_self ..)
    have hr := h.rotate hq
    exact { hr with
      up_socket := nofun
      up_phase := nofun
      leaving_idle := fun hd => hr.leaving_idle (hp.trans hd)
      leaving_connecting := nofun
      leaving_ping := fun hd => hr.leaving_ping (hp.trans hd)
      ping_sending := fun _ => Or.inr (h.idle_socket rfl)
      ping_state := fun _ => Or.inr (h.idle_socket rfl)
      attempt := nofun }
  | continueSend => exact (h.drop hq nofun nofun).sendRound hp r
  | doConnectTcp | doConnectMqtt | doDisconnectMqtt | doPublish | doPingreq =>
    exact h.rotate hq

/-- Any input of the engine, except a refusal that the sensor waits for. -/
theorem receive (h : Sound ph e) {i : Engine.Input} (hi : e.Enabled i)
    (hr : ∀ code, i = .connack code → ph = .connecting → code = 0) :
    SoundAfter ph (e.receive i) := by
  cases i with
  | dispatch r free =>
    cases hq : e.queue with
    | nil => exact absurd hq hi
    | cons ev rest =>
      cases hs : e.sending with
      | none =>
        have := h.process hs hq r free
        simpa only [Engine.receive, hq, hs] using this
      | some s =>
        have := h.processWaiting hs hq r
        simpa only [Engine.receive, hq, hs] using this
  | connack code =>
    rw [Engine.receive, Engine.handleConnack]
    split_ifs with hcode
    · exact h.abortConnection fun hc => hcode (hr code rfl hc)
    · exact h.accepted hi
  | puback => exact h
  | tcpConnected => exact h.tcpConnected hi
  | tcpClosed free => exact h.tcpClosed hi free
  | tcpDataSent all => exact h.tcpDataSent hi all
  | keepAlive => exact h.keepAliveCallback hi

/-- Before the first tick nothing has happened to the engine. -/
theorem boot : Sound .idle Engine.boot where
  idle_socket _ := rfl
  queued_phase := nofun
  queued_socket := nofun
  queued_once := zero_le_one
  abort_idle := nofun
  up_socket := nofun
  up_phase := nofun
  leaving_idle := nofun
  leaving_connecting := nofun
  leaving_ping := nofun
  ping_sending := nofun
  ping_state := nofun
  ping_keepAlive _ := nofun
  attempt := nofun
  manual := rfl

end Sound

/-- An event changes the phase of the sensor. -/
theorem phase_mqttEvent (a : App) (ev : MqttEvent) :
    (a.mqttEvent ev).state.phase = a.state.phase.after ev := by
  cases ev <;> rfl

theorem phase_foldl_mqttEvent (evs : List MqttEvent) (a : App) :
    (evs.foldl App.mqttEvent a).state.phase = evs.foldl Phase.after a.state.phase := by
  induction evs generalizing a with
  | nil => rfl
  | cons ev evs ih => rw [List.foldl_cons, List.foldl_cons, ih, phase_mqttEvent]

/-- Events never send the sensor back to `STATE_INIT`. -/
theorem init_of_foldl_mqttEvent {evs : List MqttEvent} {a : App}
    (h : (evs.foldl App.mqttEvent a).state = .init) : a.state = .init := by
  induction evs generalizing a with
  | nil => exact h
  | cons ev evs ih =>
    have := ih h
    cases ev <;> first | exact this | cases this

namespace Node

/-- What holds of a node between two steps. -/
structure Settled (s : Node) : Prop where
  sound : Sound s.app.state.phase s.engine
  fresh : s.app.state = .init → s.engine = Engine.boot

/-- No refusal reaches a sensor that waits for a connection, and the abort event of the last
connection has been taken when the next attempt starts. -/
def Orderly (s : Node) : Occurrence → Prop
  | .input (.connack code) => s.app.state = .connecting → code = 0
  | .tick w => s.app.state = .registered → w.globalAddress = true → .abortNow ∉ s.engine.queue
  | _ => True

instance (s : Node) : DecidablePred s.Orderly
  | .input (.connack code) => inferInstanceAs (Decidable (s.app.state = .connecting → code = 0))
  | .tick w => inferInstanceAs (Decidable (s.app.state = .registered →
      w.globalAddress = true → ProcessEvent.abortNow ∉ s.engine.queue))
  | .input (.dispatch _ _) | .input .puback | .input .tcpConnected | .input (.tcpClosed _)
  | .input (.tcpDataSent _) | .input .keepAlive => inferInstanceAs (Decidable True)

/-- An attempt to connect is queued or under way. -/
def Attempting (s : Node) : Prop :=
  .doConnectTcp ∈ s.engine.queue ∨ s.engine.state.InProgress

theorem Settled.input {s : Node} (h : s.Settled) {i : Engine.Input} (hi : s.engine.Enabled i)
    (ho : s.Orderly (.input i)) : (s.input i).Settled := by
  constructor
  · have := h.sound.receive hi fun code hc hp => by
      subst hc
      apply ho
      cases hs : s.app.state <;> rw [hs] at hp <;> first | rfl | cases hp
    rwa [SoundAfter, ← phase_foldl_mqttEvent] at this
  · intro hs
    have hb := h.fresh (init_of_foldl_mqttEvent hs)
    exact absurd (hb ▸ hi) (Engine.not_enabled_boot i)

/-- `STATE_REGISTERED` with an engine between two connections. -/
theorem settled_registered {a : App} {e : Engine} (h : Sound .idle e)
    (ha : a.state = .registered) (ans : Answers)
    (ho : ans.globalAddress = true → .abortNow ∉ e.queue) :
    Settled ⟨(a.tickRegistered ans).1, (a.tickRegistered ans).2.foldl Call.run e⟩ := by
  rw [App.tickRegistered]
  cases hg : ans.globalAddress with
  | true =>
    exact ⟨h.mqttConnect (ho hg), nofun⟩
  | false =>
    refine ⟨?_, ?_⟩
    · simpa [ha, AppState.phase] using h
    · simp [ha]

/-- `STATE_CONNECTED` with an engine that serves the sensor. -/
theorem settled_connected {a : App} {e : Engine} (h : Sound .active e)
    (ha : a.state = .connected) (p : Program) (ans : Answers) :
    Settled ⟨(a.tickConnected p ans).1, (a.tickConnected p ans).2.foldl Call.run e⟩ := by
  have hready : ∀ b : App,
      Settled ⟨(b.tickReady p ans).1, (b.tickReady p ans).2.foldl Call.run e⟩ := by
    intro b
    cases p with
    | noiseSensor => exact ⟨h, nofun⟩
    | noiseSimulatedSensor => exact ⟨h.mqttPublish, nofun⟩
  have hwait : ∀ b : App, b.state = .connected → Settled ⟨b, e⟩ := fun b hb =>
    ⟨by rw [hb]; exact h, fun hi => absurd (hb.symm.trans hi) nofun⟩
  rw [App.tickConnected]
  split_ifs
  · exact hready _
  · exact hready _
  · exact hwait _ ha
  · exact hwait _ ha

/-- `STATE_DISCONNECTED` with an engine between two connections. -/
theorem settled_disconnected {e : Engine} (h : Sound .idle e) (a : App) :
    Settled ⟨a.tickDisconnected.1, a.tickDisconnected.2.foldl Call.run e⟩ := by
  rw [App.tickDisconnected_eq]
  refine ⟨?_, nofun⟩
  change Sound .idle e.mqttDisconnect
  rwa [h.mqttDisconnect_eq nofun]

theorem Settled.tick {s : Node} (h : s.Settled) (p : Program) (w : Surroundings)
    (ho : s.Orderly (.tick w)) : (s.tick p w).Settled := by
  have hsound := h.sound
  rw [Node.tick, App.mqttStateMachine]
  cases hs : s.app.state with
  | init =>
    rw [h.fresh hs]
    exact settled_registered Sound.boot rfl _ nofun
  | registered =>
    rw [hs] at hsound
    exact settled_registered hsound hs _ (ho hs)
  | connecting =>
    rw [hs] at hsound
    exact ⟨hsound, nofun⟩
  | connected =>
    rw [hs] at hsound
    exact settled_connected hsound hs p _
  | sampling =>
    rw [hs] at hsound
    cases p with
    | noiseSensor => exact ⟨hsound.mqttPublish, nofun⟩
    | noiseSimulatedSensor => exact ⟨h.sound, fun hi => absurd (hs.symm.trans hi) nofun⟩
  | disconnected =>
    rw [hs] at hsound
    exact settled_disconnected hsound s.app
  | configError | error | newconfig =>
    exact ⟨h.sound, fun hi => absurd (hs.symm.trans hi) nofun⟩

theorem settled_boot (m n : ℤ) : (boot m n).Settled := by
  refine ⟨?_, fun _ => rfl⟩
  rw [boot, App.boot, App.updateConfig]
  split_ifs <;> exact Sound.boot

theorem Settled.next {p : Program} {s t : Node} {a : Occurrence} (h : s.Settled)
    (hs : ((system p).restrict Orderly).step s a t) : t.Settled := by
  obtain ⟨⟨ha, rfl⟩, ho⟩ := hs
  cases a with
  | tick w => exact h.tick p w ho
  | input i => exact h.input ha ho

instance (s : Node) : Decidable s.Attempting :=
  inferInstanceAs (Decidable (_ ∨ _))

/-- In every orderly run a sensor that waits for a connection has an attempt in progress. -/
theorem attempting_of_connecting (p : Program) (clientIdLen pubTopicLen : ℤ) (s : Node)
    (hr : ((system p).restrict Orderly).Reaches (boot clientIdLen pubTopicLen) s)
    (hs : s.app.state = .connecting) : s.Attempting := by
  have h : s.Settled := hr.invariant Settled (settled_boot _ _) fun _ _ _ h hs => h.next hs
  exact h.sound.attempt (congrArg AppState.phase hs)

/-- A tick of a mote that has joined the network. -/
def joined : Occurrence := .tick ⟨true, false, ⟨-45, 0, 0⟩⟩

/-- The engine takes an event, and the protothread it drives comes this far. -/
def taken (r : Progress) : Occurrence := .input (.dispatch r true)

/-- The first attempt up to the moment when CONNECT has been sent. -/
def firstAttempt : List Occurrence :=
  [joined, taken .waiting, .input .tcpConnected, taken .waiting]

/-- A lost connection is tried again. -/
def secondAttempt : List Occurrence :=
  firstAttempt ++ [.input (.connack 0), taken (.finished false), .input (.tcpClosed true), joined,
    taken .waiting, joined]

theorem attempting_secondAttempt :
    (follow .noiseSensor (boot 31 13) secondAttempt).app.state = .connecting ∧
      (follow .noiseSensor (boot 31 13) secondAttempt).Attempting :=
  ⟨by decide, attempting_of_connecting .noiseSensor 31 13 _ (reaches_follow (by decide))
    (by decide)⟩

/-- The broker refuses the first attempt and the engine comes to rest. -/
def refusedAttempt : List Occurrence :=
  firstAttempt ++ [.input (.connack 5), taken (.finished true)]

/-- After a refusal the sensor waits for a connection that nobody makes. -/
theorem not_attempting_refused :
    ∃ s, (system .noiseSensor).Reaches (boot 31 13) s ∧ s.app.state = .connecting ∧
      s.engine.queue = [] ∧ ¬ s.Attempting := by
  have hrun : Allowed .noiseSensor (fun _ _ => True) (boot 31 13) refusedAttempt := by decide
  exact ⟨_, (reaches_follow hrun).of_restrict, by decide, by decide, by decide⟩

/-- The broker refuses no connection. -/
def Unrefused (_ : Node) : Occurrence → Prop
  | .input (.connack code) => code = 0
  | _ => True

instance (s : Node) : DecidablePred s.Unrefused
  | .input (.connack code) => inferInstanceAs (Decidable (code = 0))
  | .tick _ | .input (.dispatch _ _) | .input .puback | .input .tcpConnected
  | .input (.tcpClosed _) | .input (.tcpDataSent _) | .input .keepAlive =>
    inferInstanceAs (Decidable True)

/-- The connection is lost before an answer. Each time the abort event comes by, `connect_pt`
writes its packet again, until the eighth does not fit and the event is taken. By then the
sensor has called `mqtt_connect`, which saw the state that `connect_pt` had left. -/
def overtakenAttempt : List Occurrence :=
  firstAttempt ++ [.input (.tcpClosed true), joined, taken .waiting]
    ++ (List.replicate 7 [taken .waiting, taken .waiting]).flatten
    ++ [joined, taken .waiting, taken .blocked, taken .waiting]

/-- The sensor may wait for a connection that nobody makes without any refusal. -/
theorem not_attempting_overtaken :
    ∃ s, ((system .noiseSensor).restrict Unrefused).Reaches (boot 31 13) s ∧
      s.app.state = .connecting ∧ s.engine.queue = [] ∧ ¬ s.Attempting := by
  have hrun : Allowed .noiseSensor Unrefused (boot 31 13) overtakenAttempt := by decide
  exact ⟨_, reaches_follow hrun, by decide, by decide, by decide⟩

end Node

end NoiseLevel.Sensor
