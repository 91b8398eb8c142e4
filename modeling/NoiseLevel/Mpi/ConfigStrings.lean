import NoiseLevel.Mpi.ConfigParser

/-!
# The configured strings on all ranks

The root copies the strings of the broker into arrays of fixed size and broadcasts the
structure as the data type of `init_struct_mqtt_conf` describes it. Every rank reads the
arrays as strings. Nothing keeps a place for the terminator of a long one.
-/

namespace NoiseLevel.Mpi

open NoiseLevel.Core

/-- The members of `mqtt_config`. -/
inductive MqttMember where
  | ip
  | port
  | keepAlive
  | username
  | password
  | topic

/-- `MPI_CHAR` blocks of an array: the first characters are sent over. -/
def ConfStr.receive (n : ℕ) (sent received : ConfStr) : ConfStr where
  chars := sent.chars.take n ++ received.chars.drop n
  length_eq := by
    have := sent.length_eq
    have := received.length_eq
    rw [List.length_append, List.length_take, List.length_drop]
    omega

/-- The blocks of the data type: a member and the number of its elements. -/
def mpiMqttConf : List (MqttMember × ℕ) :=
  [(.ip, sizeConfStr), (.port, 1), (.keepAlive, 1), (.username, sizeConfStr),
    (.password, sizeConfStr), (.topic, sizeConfStr)]

/-- What a receiver holds after one block has been sent over. -/
def receiveBlock (sent received : MqttConfig) (block : MqttMember × ℕ) : MqttConfig :=
  match block.1 with
  | .ip => { received with ip := .receive block.2 sent.ip received.ip }
  | .port => { received with port := if block.2 = 0 then received.port else sent.port }
  | .keepAlive =>
    { received with keepAlive := if block.2 = 0 then received.keepAlive else sent.keepAlive }
  | .username => { received with username := .receive block.2 sent.username received.username }
  | .password => { received with password := .receive block.2 sent.password received.password }
  | .topic => { received with topic := .receive block.2 sent.topic received.topic }

/-- `MPI_Bcast` of the structure, at one rank. -/
def bcast (sent received : MqttConfig) : MqttConfig :=
  mpiMqttConf.foldl (receiveBlock sent) received

theorem receive_all (sent received : ConfStr) :
    ConfStr.receive sizeConfStr sent received = sent := by
  obtain ⟨s, hs⟩ := sent
  obtain ⟨r, hr⟩ := received
  simp only [ConfStr.receive, ConfStr.mk.injEq]
  rw [List.take_of_length_le hs.le, List.drop_of_length_le hr.le, List.append_nil]

/-- Every rank receives the whole structure. -/
theorem bcast_eq (sent received : MqttConfig) : bcast sent received = sent := by
  simp [bcast, mpiMqttConf, receiveBlock, receive_all]

/-- Every configured string is read back from its own array. -/
def StringsSurvive (ip username password topic : CStr) (mqttConf : MqttConfig) : Prop :=
  mqttConf.ip.read = some ip.chars ∧ mqttConf.username.read = some username.chars ∧
    mqttConf.password.read = some password.chars ∧ mqttConf.topic.read = some topic.chars

/-- The configured strings reach every rank exactly when each of them is shorter than its
array. -/
theorem stringsSurvive_iff {file : Option ConfigFile} {ip username password topic : CStr}
    {port keepAlive : ℤ} (h : MqttFound file ip username password topic port keepAlive)
    (before received : MqttConfig) :
    (readMqttConfig file before).1 = .success ∧
      (StringsSurvive ip username password topic (bcast (readMqttConfig file before).2 received) ↔
        ∀ s ∈ [ip, username, password, topic], s.chars.length < sizeConfStr) := by
  rw [h.read, bcast_eq]
  refine ⟨rfl, ?_⟩
  simp only [StringsSurvive, ConfStr.read_copy_iff, List.forall_mem_cons, List.not_mem_nil,
    false_implies, implies_true, and_true]

/-- A file with a complete group for the broker. -/
def brokerFile (ip username password topic : CStr) (port keepAlive : ℤ) : ConfigFile := fun name =>
  if name = "mqtt" then some fun key =>
    if key = "ip" then some (.string ip)
    else if key = "port" then some (.int port)
    else if key = "keep_alive" then some (.int keepAlive)
    else if key = "username" then some (.string username)
    else if key = "password" then some (.string password)
    else if key = "topic" then some (.string topic)
    else none
  else none

theorem mqttFound_brokerFile (ip username password topic : CStr) (port keepAlive : ℤ) :
    MqttFound (some (brokerFile ip username password topic port keepAlive)) ip username password
      topic port keepAlive :=
  ⟨_, _, rfl, if_pos rfl, by simp [lookupString, lookupInt]⟩

/-- Arrays that hold no string. -/
def clearedMqttConf : MqttConfig :=
  let cleared : ConfStr := ⟨List.replicate sizeConfStr nulChar, List.length_replicate⟩
  ⟨cleared, 0, 0, cleared, cleared, cleared⟩

/-- A name of the given length. -/
def longName (n : ℕ) : CStr where
  chars := List.replicate n 'x'
  nul_free h := absurd (List.eq_of_mem_replicate h) (by decide)

/-- Names of twelve characters survive. -/
theorem stringsSurvive_short :
    (readMqttConfig (some (brokerFile (longName 12) (longName 12) (longName 12) (longName 12)
        1883 60)) clearedMqttConf).1 = .success ∧
      (StringsSurvive (longName 12) (longName 12) (longName 12) (longName 12)
        (bcast (readMqttConfig (some (brokerFile (longName 12) (longName 12) (longName 12)
          (longName 12) 1883 60)) clearedMqttConf).2 clearedMqttConf) ↔
        ∀ s ∈ [longName 12, longName 12, longName 12, longName 12],
          s.chars.length < sizeConfStr) :=
  stringsSurvive_iff (mqttFound_brokerFile _ _ _ _ _ _) _ _

/-- A name that fills its array is not terminated in it. -/
theorem not_stringsSurvive_full : ¬∀ (file : Option ConfigFile) (ip username password topic : CStr)
    (port keepAlive : ℤ) (before received : MqttConfig),
    MqttFound file ip username password topic port keepAlive →
    StringsSurvive ip username password topic
      (bcast (readMqttConfig file before).2 received) := by
  intro hall
  have hfound := mqttFound_brokerFile (longName 9) (longName 8) (longName 30) (longName 13) 1883 60
  obtain ⟨-, -, hpassword, -⟩ := hall _ _ _ _ _ _ _ clearedMqttConf clearedMqttConf hfound
  rw [hfound.read, bcast_eq, ConfStr.read_copy_iff] at hpassword
  exact absurd hpassword (by decide)

/-- What is read from the array of such a password runs on into the topic. -/
theorem read_password_topic {password topic : CStr} (hlong : sizeConfStr ≤ password.chars.length)
    (hshort : topic.chars.length < sizeConfStr) :
    cString nulChar ((ConfStr.copy password).chars ++ (ConfStr.copy topic).chars) =
      some (password.chars.take sizeConfStr ++ topic.chars) := by
  obtain ⟨k, hk⟩ : ∃ k, sizeConfStr - topic.chars.length = k + 1 :=
    ⟨sizeConfStr - topic.chars.length - 1, by omega⟩
  have htopic : (ConfStr.copy topic).chars =
      topic.chars ++ nulChar :: List.replicate k nulChar := by
    change strncpy nulChar sizeConfStr topic.chars = _
    rw [strncpy, List.take_of_length_le hshort.le, hk, List.replicate_succ]
  rw [htopic]
  exact cString_strncpy_append password.nul_free hlong topic.nul_free _

end NoiseLevel.Mpi
