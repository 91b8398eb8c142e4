import NoiseLevel.Core.CString
import NoiseLevel.Mpi.NoiseSim

/-!
# Reading the configuration

`read_simulation_config` and `read_mqtt_config` over what libconfig finds in the file.
The lookups of a chain of conditions store their values one by one and the chain ends at
the first that fails; whether it has failed is not reported.
-/

namespace NoiseLevel.Mpi

open NoiseLevel.Core

/-- A string without terminator inside, as libconfig returns it. -/
structure CStr where
  chars : List Char
  nul_free : nulChar ∉ chars

/-- A value of the file, as far as the lookups tell values apart. -/
inductive Setting where
  | int (value : ℤ)
  | string (value : CStr)
  | other

/-- The settings of a group by their names. -/
abbrev Group := String → Option Setting

/-- The groups of a file that could be read. -/
abbrev ConfigFile := String → Option Group

/-- What `config_setting_lookup_int` finds. -/
def lookupInt (group : Group) (key : String) : Option ℤ :=
  match group key with
  | some (.int value) => some value
  | _ => none

/-- What `config_setting_lookup_string` finds. -/
def lookupString (group : Group) (key : String) : Option CStr :=
  match group key with
  | some (.string value) => some value
  | _ => none

/-- `EXIT_SUCCESS` and `EXIT_FAILURE`. -/
inductive ExitStatus where
  | success
  | failure
  deriving DecidableEq

section Lookup

variable {σ : Type*}

/-- A lookup that stores the value it finds, and whether it has found one. -/
def storeFound {α : Type*} (found : Option α) (put : α → σ → σ) (s : σ) : Bool × σ :=
  match found with
  | some value => (true, put value s)
  | none => (false, s)

/-- Lookups joined by `&&`: none is made after one that failed. -/
def storeAll : List (σ → Bool × σ) → σ → Bool × σ
  | [], s => (true, s)
  | f :: rest, s => if (f s).1 then storeAll rest (f s).2 else f s

end Lookup

/-- `read_simulation_config`, where no file stands for one that cannot be read. -/
def readSimulationConfig (file : Option ConfigFile) (simConf : SimulationConfig) :
    ExitStatus × SimulationConfig :=
  match file with
  | none => (.failure, simConf)
  | some cfg =>
    match cfg "simulation" with
    | none => (.success, simConf)
    | some sim => (.success, (storeAll [
        storeFound (lookupInt sim "P") fun n c => { c with p := n },
        storeFound (lookupInt sim "V") fun n c => { c with v := n },
        storeFound (lookupInt sim "MAX_Y") fun n c => { c with maxY := n },
        storeFound (lookupInt sim "MAX_X") fun n c => { c with maxX := n },
        storeFound (lookupInt sim "Np") fun n c => { c with np := n },
        storeFound (lookupInt sim "Nv") fun n c => { c with nv := n },
        storeFound (lookupInt sim "Dp") fun n c => { c with dp := n },
        storeFound (lookupInt sim "Dv") fun n c => { c with dv := n },
        storeFound (lookupInt sim "Vp") fun n c => { c with vp := n },
        storeFound (lookupInt sim "Vv") fun n c => { c with vv := n },
        storeFound (lookupInt sim "t") fun n c => { c with t := n }] simConf).2)

/-- `SIZE_CONF_STR`. -/
def sizeConfStr : ℕ := 30

/-- A character array of the configuration. -/
structure ConfStr where
  chars : List Char
  length_eq : chars.length = sizeConfStr

namespace ConfStr

/-- The array after `strncpy` of a string. -/
def copy (s : CStr) : ConfStr := ⟨strncpy nulChar sizeConfStr s.chars, length_strncpy _ _⟩

/-- The string in the array, if it ends there. -/
def read (a : ConfStr) : Option (List Char) := cString nulChar a.chars

/-- A copied string is read back exactly when it is shorter than the array. -/
theorem read_copy_iff (s : CStr) : (copy s).read = some s.chars ↔ s.chars.length < sizeConfStr :=
  cString_strncpy_iff s.nul_free

theorem length_lt_of_read {a : ConfStr} {s : List Char} (h : a.read = some s) :
    s.length < sizeConfStr := by
  have := length_lt_of_cString h
  rwa [a.length_eq] at this

end ConfStr

/-- `mqtt_config`. -/
structure MqttConfig where
  ip : ConfStr
  port : ℤ
  keepAlive : ℤ
  username : ConfStr
  password : ConfStr
  topic : ConfStr

/-- The structure that `read_mqtt_config` fills and its four local pointers, which start
unset. -/
structure MqttLookups where
  mqttConf : MqttConfig
  ip : Option CStr
  username : Option CStr
  password : Option CStr
  topic : Option CStr

/-- The four calls of `strncpy`. -/
def MqttLookups.copyStrings (s : MqttLookups) : MqttConfig :=
  { s.mqttConf with
    ip := s.ip.elim s.mqttConf.ip ConfStr.copy
    username := s.username.elim s.mqttConf.username ConfStr.copy
    password := s.password.elim s.mqttConf.password ConfStr.copy
    topic := s.topic.elim s.mqttConf.topic ConfStr.copy }

/-- `read_mqtt_config`. -/
def readMqttConfig (file : Option ConfigFile) (mqttConf : MqttConfig) : ExitStatus × MqttConfig :=
  match file with
  | none => (.failure, mqttConf)
  | some cfg =>
    match cfg "mqtt" with
    | none => (.success, mqttConf)
    | some mqtt =>
      let r := storeAll [
        storeFound (lookupString mqtt "ip") fun t s => { s with ip := some t },
        storeFound (lookupInt mqtt "port") fun n s => { s with mqttConf.port := n },
        storeFound (lookupInt mqtt "keep_alive") fun n s => { s with mqttConf.keepAlive := n },
        storeFound (lookupString mqtt "username") fun t s => { s with username := some t },
        storeFound (lookupString mqtt "password") fun t s => { s with password := some t },
        storeFound (lookupString mqtt "topic") fun t s => { s with topic := some t }]
        (⟨mqttConf, none, none, none, none⟩ : MqttLookups)
      (.success, if r.1 then r.2.copyStrings else r.2.mqttConf)

/-- The keys of the simulation and the fields they belong to. -/
def simulationFields : List (String × (SimulationConfig → ℤ)) :=
  [("P", (·.p)), ("V", (·.v)), ("MAX_Y", (·.maxY)), ("MAX_X", (·.maxX)), ("Np", (·.np)),
    ("Nv", (·.nv)), ("Dp", (·.dp)), ("Dv", (·.dv)), ("Vp", (·.vp)), ("Vv", (·.vv)), ("t", (·.t))]

/-- The keys of the broker's numbers and the fields they belong to. -/
def mqttNumbers : List (String × (MqttConfig → ℤ)) :=
  [("port", (·.port)), ("keep_alive", (·.keepAlive))]

/-- The keys of the broker's strings and the fields they belong to. -/
def mqttStrings : List (String × (MqttConfig → ConfStr)) :=
  [("ip", (·.ip)), ("username", (·.username)), ("password", (·.password)), ("topic", (·.topic))]

/-- The named group of a readable file has a property. -/
def InGroup (file : Option ConfigFile) (name : String) (P : Group → Prop) : Prop :=
  ∃ cfg group, file = some cfg ∧ cfg name = some group ∧ P group

/-- Every field of the simulation holds the value of the file. -/
def SimulationStored (file : Option ConfigFile) (simConf : SimulationConfig) : Prop :=
  InGroup file "simulation" fun group =>
    ∀ e ∈ simulationFields, lookupInt group e.1 = some (e.2 simConf)

/-- Every field of the broker holds the value of the file. -/
def MqttStored (file : Option ConfigFile) (mqttConf : MqttConfig) : Prop :=
  InGroup file "mqtt" fun group =>
    (∀ e ∈ mqttNumbers, lookupInt group e.1 = some (e.2 mqttConf)) ∧
    ∀ e ∈ mqttStrings, ∃ s, lookupString group e.1 = some s ∧ (e.2 mqttConf).read = some s.chars

/-- Success with everything stored, or failure with nothing changed. -/
def AllOrNothing {σ : Type*} (stored : σ → Prop) (before : σ) (r : ExitStatus × σ) : Prop :=
  (r.1 = .success ∧ stored r.2) ∨ (r.1 = .failure ∧ r.2 = before)

/-- Every expected key of the simulation is there with an integer. -/
def SimulationComplete (file : Option ConfigFile) : Prop :=
  InGroup file "simulation" fun group => ∀ e ∈ simulationFields, ∃ n, lookupInt group e.1 = some n

/-- Every expected key of the broker is there, with integers and with strings that are
shorter than their arrays. -/
def MqttComplete (file : Option ConfigFile) : Prop :=
  InGroup file "mqtt" fun group =>
    (∀ e ∈ mqttNumbers, ∃ n, lookupInt group e.1 = some n) ∧
    ∀ e ∈ mqttStrings, ∃ s, lookupString group e.1 = some s ∧ s.chars.length < sizeConfStr

theorem InGroup.mono {file : Option ConfigFile} {name : String} {P Q : Group → Prop}
    (h : InGroup file name P) (hPQ : ∀ group, P group → Q group) : InGroup file name Q := by
  obtain ⟨cfg, group, hfile, hgroup, hP⟩ := h
  exact ⟨cfg, group, hfile, hgroup, hPQ group hP⟩

section Result

variable {file : Option ConfigFile}

/-- A complete group is stored as a whole. -/
theorem SimulationComplete.stored (h : SimulationComplete file) (simConf : SimulationConfig) :
    (readSimulationConfig file simConf).1 = .success ∧
      SimulationStored file (readSimulationConfig file simConf).2 := by
  obtain ⟨cfg, sim, rfl, hsim, hkeys⟩ := h
  simp only [simulationFields, List.forall_mem_cons] at hkeys
  obtain ⟨⟨p, hp⟩, ⟨v, hv⟩, ⟨maxY, hY⟩, ⟨maxX, hX⟩, ⟨np, hnp⟩, ⟨nv, hnv⟩, ⟨dp, hdp⟩, ⟨dv, hdv⟩,
    ⟨vp, hvp⟩, ⟨vv, hvv⟩, ⟨t, ht⟩, -⟩ := hkeys
  have hread : readSimulationConfig (some cfg) simConf =
      (.success, ⟨p, v, maxY, maxX, np, nv, dp, dv, vp, vv, t⟩) := by
    simp only [readSimulationConfig, hsim, storeAll, storeFound, hp, hv, hY, hX, hnp, hnv, hdp,
      hdv, hvp, hvv, ht, if_true]
  rw [hread]
  refine ⟨rfl, cfg, sim, rfl, hsim, ?_⟩
  simp [simulationFields, *]

/-- Stored numbers were found, and stored strings are shorter than their arrays. -/
theorem MqttStored.complete {mqttConf : MqttConfig} (h : MqttStored file mqttConf) :
    MqttComplete file := by
  refine h.mono fun group hg => ⟨fun e he => ⟨_, hg.1 e he⟩, fun e he => ?_⟩
  obtain ⟨s, hs, hread⟩ := hg.2 e he
  exact ⟨s, hs, ConfStr.length_lt_of_read hread⟩

/-- The group of the broker with all six values found. -/
def MqttFound (file : Option ConfigFile) (ip username password topic : CStr)
    (port keepAlive : ℤ) : Prop :=
  InGroup file "mqtt" fun mqtt =>
    lookupString mqtt "ip" = some ip ∧ lookupInt mqtt "port" = some port ∧
    lookupInt mqtt "keep_alive" = some keepAlive ∧
    lookupString mqtt "username" = some username ∧
    lookupString mqtt "password" = some password ∧ lookupString mqtt "topic" = some topic

/-- All six values are taken over, the strings as `strncpy` copies them. -/
theorem MqttFound.read {ip username password topic : CStr} {port keepAlive : ℤ}
    (h : MqttFound file ip username password topic port keepAlive) (mqttConf : MqttConfig) :
    readMqttConfig file mqttConf = (.success, ⟨.copy ip, port, keepAlive, .copy username,
      .copy password, .copy topic⟩) := by
  obtain ⟨cfg, mqtt, rfl, hmqtt, hip, hport, halive, huser, hpass, htopic⟩ := h
  simp only [readMqttConfig, hmqtt, storeAll, storeFound, hip, hport, halive, huser, hpass, htopic,
    if_true]
  rfl

/-- A complete group is stored as a whole. -/
theorem MqttComplete.stored (h : MqttComplete file) (mqttConf : MqttConfig) :
    (readMqttConfig file mqttConf).1 = .success ∧
      MqttStored file (readMqttConfig file mqttConf).2 := by
  obtain ⟨cfg, mqtt, rfl, hmqtt, hnumbers, hstrings⟩ := h
  simp only [mqttNumbers, mqttStrings, List.forall_mem_cons] at hnumbers hstrings
  obtain ⟨⟨port, hport⟩, ⟨keepAlive, halive⟩, -⟩ := hnumbers
  obtain ⟨⟨ip, hip, hipLen⟩, ⟨username, huser, huserLen⟩, ⟨password, hpass, hpassLen⟩,
    ⟨topic, htopic, htopicLen⟩, -⟩ := hstrings
  have hfound : MqttFound (some cfg) ip username password topic port keepAlive :=
    ⟨cfg, mqtt, rfl, hmqtt, hip, hport, halive, huser, hpass, htopic⟩
  rw [hfound.read]
  refine ⟨rfl, cfg, mqtt, rfl, hmqtt, ?_, ?_⟩
  · simp [mqttNumbers, *]
  · simp only [mqttStrings, List.forall_mem_cons]
    exact ⟨⟨ip, hip, (ConfStr.read_copy_iff ip).mpr hipLen⟩,
      ⟨username, huser, (ConfStr.read_copy_iff username).mpr huserLen⟩,
      ⟨password, hpass, (ConfStr.read_copy_iff password).mpr hpassLen⟩,
      ⟨topic, htopic, (ConfStr.read_copy_iff topic).mpr htopicLen⟩, nofun⟩

/-- A reader that reports every readable file as success is all or nothing exactly when it
stores everything or cannot read the file. -/
theorem allOrNothing_iff {σ : Type*} {stored : σ → Prop} {complete : Prop} {before : σ}
    {r : ExitStatus × σ} (hnone : file = none → r = (.failure, before))
    (hsome : file ≠ none → r.1 = .success) (hstored : stored r.2 → complete)
    (hcomplete : complete → r.1 = .success ∧ stored r.2) :
    AllOrNothing stored before r ↔ file = none ∨ complete := by
  constructor
  · rintro (⟨-, hs⟩ | ⟨hfail, -⟩)
    · exact Or.inr (hstored hs)
    · left
      by_contra hfile
      rw [hsome hfile] at hfail
      cases hfail
  · rintro (hfile | hc)
    · rw [hnone hfile]
      exact Or.inr ⟨rfl, rfl⟩
    · exact Or.inl (hcomplete hc)

/-- Both readers are all or nothing exactly when the file cannot be read or their group is
complete. -/
theorem configAllOrNothing_iff (file : Option ConfigFile) (simConf : SimulationConfig)
    (mqttConf : MqttConfig) :
    (AllOrNothing (SimulationStored file) simConf (readSimulationConfig file simConf) ↔
      file = none ∨ SimulationComplete file) ∧
    (AllOrNothing (MqttStored file) mqttConf (readMqttConfig file mqttConf) ↔
      file = none ∨ MqttComplete file) := by
  constructor
  · refine allOrNothing_iff (fun h => by rw [h]; rfl) (fun h => ?_)
      (fun h => h.mono fun group hg e he => ⟨_, hg e he⟩) fun h => h.stored simConf
    obtain ⟨cfg, rfl⟩ := Option.ne_none_iff_exists'.mp h
    dsimp only [readSimulationConfig]
    split <;> rfl
  · refine allOrNothing_iff (fun h => by rw [h]; rfl) (fun h => ?_) MqttStored.complete
      fun h => h.stored mqttConf
    obtain ⟨cfg, rfl⟩ := Option.ne_none_iff_exists'.mp h
    dsimp only [readMqttConfig]
    split <;> rfl

/-- A file that names the number of people and nothing else. -/
def peopleOnly : ConfigFile := fun name =>
  if name = "simulation" then some fun key => if key = "P" then some (.int 10) else none else none

/-- The readers report success after storing one field of eleven, and none of six. -/
theorem not_allOrNothing : ¬∀ (file : Option ConfigFile) (simConf : SimulationConfig)
    (mqttConf : MqttConfig),
    AllOrNothing (SimulationStored file) simConf (readSimulationConfig file simConf) ∧
    AllOrNothing (MqttStored file) mqttConf (readMqttConfig file mqttConf) := by
  intro hall
  let empty : ConfStr := ⟨List.replicate sizeConfStr nulChar, List.length_replicate⟩
  obtain ⟨⟨-, cfg, group, hfile, hgroup, hstored⟩ | ⟨hfail, -⟩, -⟩ := hall (some peopleOnly)
    ⟨0, 0, 0, 0, 0, 0, 0, 0, 0, 0, 0⟩ ⟨empty, 0, 0, empty, empty, empty⟩
  · obtain rfl := Option.some.inj hfile
    obtain rfl := Option.some.inj hgroup
    have hv := hstored ("V", (·.v)) (by simp [simulationFields])
    cases hv
  · cases hfail

end Result

end NoiseLevel.Mpi
