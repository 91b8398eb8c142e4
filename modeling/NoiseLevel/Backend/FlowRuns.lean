import NoiseLevel.Backend.StoredMeasures
import NoiseLevel.Core.Dataflow

/-!
# Runs of the flow

The nodes of the flow work on many messages at a time: a message waits at the next node while
others are handled. A run lets messages arrive from the broker and nodes handle them in any
order. Every run stores the rows that the messages have when they are handled one by one.
-/

namespace NoiseLevel.Backend

open NoiseLevel.Core

/-- The types of the nodes, with the functions that they are configured with. -/
inductive FlowNode where
  | change (rewrite : Msg → Msg)
  | function (check : Msg → Except String Msg)
  | split
  | mysql
  | debug

/-- The nodes behind the one that subscribes to the broker, in the order of their wires. -/
def flow : List FlowNode :=
  [.change setRegion, .function checkRegion, .function checkJsonSchema,
    .change settingMessageProperties, .change preparingRegionBoundariesQuery, .mysql,
    .function checkRegionBoundaries, .change preparingDistanceQuery, .mysql,
    .change prepareForNoiseArraySplit, .split, .change preparingForInsert, .mysql, .debug]

/-- A message on its way: the node where it waits and the nodes behind that one. -/
structure Flying where
  node : FlowNode
  rest : List FlowNode
  msg : Msg

/-- A message from the broker. -/
def Flying.received (topic : String) (payload : Json) : Flying :=
  ⟨.change setRegion, flow.tail, .received topic payload⟩

/-- The messages that a node sends wait at the next one. -/
def ahead : List FlowNode → List Msg → List Flying
  | [], _ => []
  | node :: rest, msgs => msgs.map fun msg => ⟨node, rest, msg⟩

/-- The tables, the messages on their way and the errors that were reported. -/
structure FlowState where
  db : Database
  inFlight : List Flying
  errors : List String

/-- An event of a run. -/
inductive FlowEvent where
  | arrive (topic : String) (payload : Json)
  | handle (t : Flying)

/-- The message that an event brings. -/
def FlowEvent.message : FlowEvent → Option (String × Json)
  | arrive topic payload => some (topic, payload)
  | handle _ => none

/-- The messages that arrive in a run. -/
def messages (as : List FlowEvent) : List (String × Json) := as.filterMap FlowEvent.message

section Flow

variable (server : Server)

/-- The tables and the messages that a node sends, or the error that it reports. -/
def FlowNode.handle (db : Database) : FlowNode → Msg → Except String (Database × List Msg)
  | change rewrite, msg => .ok (db, [rewrite msg])
  | function check, msg => (check msg).map fun msg => (db, [msg])
  | split, msg => .ok (db, noiseSplit msg)
  | mysql, msg => (Backend.mysql server db msg).map fun r => (r.1, [r.2])
  | debug, _ => .ok (db, [])

/-- The state after a message was handled, with the other messages on their way. -/
def FlowState.handled (s : FlowState) (others : List Flying) (t : Flying) : FlowState :=
  match t.node.handle server s.db t.msg with
  | .ok (db, msgs) => { s with db, inFlight := others ++ ahead t.rest msgs }
  | .error text => { s with inFlight := others, errors := s.errors ++ [text] }

/-- The flow as a system in which any waiting message may be handled next. -/
def flowSystem : System FlowState FlowEvent where
  step s a s' := match a with
    | .arrive topic payload =>
      s' = { s with inFlight := s.inFlight ++ [.received topic payload] }
    | .handle t => ∃ before after, s.inFlight = before ++ t :: after ∧
      s' = s.handled server (before ++ after) t

/-- A message is passed through some nodes before the next one is touched. -/
def passThrough : List FlowNode → Database × List String → Msg → Database × List String
  | [], s, _ => s
  | node :: rest, s, msg =>
    match node.handle server s.1 msg with
    | .ok (db, msgs) => msgs.foldl (passThrough rest) (db, s.2)
    | .error text => (s.1, s.2 ++ [text])

end Flow

section Tables

variable (server : Server) (db : Database)

/-- The tables that no message changes, with an empty table of measures. -/
def Database.reference : Database := { db with noiseMeasure := [] }

/-- The tables that are only read have no measures. -/
@[simp] theorem reference_reference : db.reference.reference = db.reference := rfl

/-- New measures do not change the other tables. -/
@[simp] theorem reference_withMeasures (rows : List NoiseMeasure) :
    (db.withMeasures rows).reference = db.reference := rfl

/-- Adding no measure changes nothing. -/
@[simp] theorem withMeasures_nil : db.withMeasures [] = db := by
  simp [Database.withMeasures]

/-- Measures are added one group after the other. -/
@[simp] theorem withMeasures_withMeasures (rows rows' : List NoiseMeasure) :
    (db.withMeasures rows).withMeasures rows' = db.withMeasures (rows ++ rows') := by
  simp [Database.withMeasures]

/-- New measures come last. -/
@[simp] theorem noiseMeasure_withMeasures (rows : List NoiseMeasure) :
    (db.withMeasures rows).noiseMeasure = db.noiseMeasure ++ rows := rfl

/-- An insert depends on the other tables only. -/
theorem insert_eq (m : NoiseMeasure) :
    db.insert m = (db.reference.insert m).map fun next => db.withMeasures next.noiseMeasure := by
  have hrefers : db.reference.refersTo m = db.refersTo m := rfl
  unfold Database.insert
  rw [hrefers]
  split <;> rfl

/-- A statement reads the reference tables only, and appends to the measures. -/
theorem query_eq (sql : String) (values : List Json) : db.query server sql values =
    (db.reference.query server sql values).map fun r =>
      (db.withMeasures r.1.noiseMeasure, r.2) := by
  have hempty : db.withMeasures db.reference.noiseMeasure = db := withMeasures_nil db
  unfold Database.query
  split_ifs with hregion hnearest hinsert
  · split
    · exact congrArg (fun next => Except.ok (next, _)) hempty.symm
    · rfl
  · split
    · exact congrArg (fun next => Except.ok (next, _)) hempty.symm
    · rfl
  · split
    · split
      · rw [insert_eq]
        cases db.reference.insert _ <;> rfl
      · rfl
    · rfl
  · rfl

/-- Asking for rows changes no table. -/
theorem query_select {sql : String} (hsql : sql = selectRegion ∨ sql = selectNearest)
    {values : List Json} {r : Database × List Json} (h : db.query server sql values = .ok r) :
    r.1 = db := by
  unfold Database.query at h
  rcases hsql with rfl | rfl
  · rw [if_pos (Eq.refl selectRegion)] at h
    split at h
    · exact (congrArg Prod.fst (Except.ok.inj h)).symm
    · cases h
  · rw [if_neg selectNearest_ne_selectRegion, if_pos (Eq.refl selectNearest)] at h
    split at h
    · exact (congrArg Prod.fst (Except.ok.inj h)).symm
    · cases h

/-- A statement depends on the other tables only. -/
theorem mysql_reference (msg : Msg) : mysql server db msg =
    (mysql server db.reference msg).map fun r =>
      (db.withMeasures r.1.noiseMeasure, r.2) := by
  unfold mysql
  cases msg.topic with
  | none => rfl
  | some sql =>
    dsimp only
    rw [query_eq]
    cases db.reference.query server sql _ <;> rfl

/-- A query changes nothing. -/
theorem mysql_select {msg : Msg} {sql : String} {r : Database × Msg}
    (hsql : sql = selectRegion ∨ sql = selectNearest) (htopic : msg.topic = some sql)
    (h : mysql server db msg = .ok r) : r.1 = db := by
  simp only [mysql, htopic, bind, Except.bind] at h
  cases hq : db.query server sql (msg.payload.toList.flatMap Json.elements) with
  | error text =>
    rw [hq] at h
    cases h
  | ok r' =>
    rw [hq] at h
    rw [← Except.ok.inj h]
    exact query_select server db hsql hq

/-- What a node does depends on the reference tables only. -/
theorem handle_reference (node : FlowNode) (msg : Msg) : node.handle server db msg =
    (node.handle server db.reference msg).map fun r =>
      (db.withMeasures r.1.noiseMeasure, r.2) := by
  have hempty : db.withMeasures db.reference.noiseMeasure = db := withMeasures_nil db
  cases node with
  | change rewrite => exact congrArg (fun next => Except.ok (next, _)) hempty.symm
  | function check =>
    simp only [FlowNode.handle]
    cases check msg with
    | error text => rfl
    | ok msg => exact congrArg (fun next => Except.ok (next, _)) hempty.symm
  | split => exact congrArg (fun next => Except.ok (next, _)) hempty.symm
  | mysql =>
    simp only [FlowNode.handle]
    rw [mysql_reference]
    cases mysql server db.reference msg <;> rfl
  | debug => exact congrArg (fun next => Except.ok (next, _)) hempty.symm

end Tables

section OneByOne

variable {server : Server} {db db' : Database} {node : FlowNode} {rest : List FlowNode}
variable {errors : List String} {msg msg' : Msg} {msgs : List Msg} {text : String}

/-- A node that succeeds passes its messages on. -/
theorem passThrough_ok (h : node.handle server db msg = .ok (db', msgs)) :
    passThrough server (node :: rest) (db, errors) msg =
      msgs.foldl (passThrough server rest) (db', errors) := by
  rw [passThrough, h]

/-- A node with one message passes it on. -/
theorem passThrough_single (h : node.handle server db msg = .ok (db', [msg'])) :
    passThrough server (node :: rest) (db, errors) msg =
      passThrough server rest (db', errors) msg' :=
  passThrough_ok h

/-- A node that fails reports its text. -/
theorem passThrough_error (h : node.handle server db msg = .error text) :
    passThrough server (node :: rest) (db, errors) msg = (db, errors ++ [text]) := by
  rw [passThrough, h]

/-- A change node has one message. -/
theorem handle_change (rewrite : Msg → Msg) :
    (FlowNode.change rewrite).handle server db msg = .ok (db, [rewrite msg]) := rfl

/-- A check that succeeds has one message. -/
theorem handle_function {check : Msg → Except String Msg} (h : check msg = .ok msg') :
    (FlowNode.function check).handle server db msg = .ok (db, [msg']) := by
  rw [FlowNode.handle, h, Except.map]

/-- A check that fails has its text. -/
theorem handle_function_error {check : Msg → Except String Msg} (h : check msg = .error text) :
    (FlowNode.function check).handle server db msg = .error text := by
  rw [FlowNode.handle, h, Except.map]

/-- A statement that succeeds has one message. -/
theorem handle_mysql {r : Database × Msg} (h : mysql server db msg = .ok r) :
    FlowNode.mysql.handle server db msg = .ok (r.1, [r.2]) := by
  rw [FlowNode.handle, h, Except.map]

/-- A statement that fails has its text. -/
theorem handle_mysql_error (h : mysql server db msg = .error text) :
    FlowNode.mysql.handle server db msg = .error text := by
  rw [FlowNode.handle, h, Except.map]

/-- Storing one noise is the last part of the flow. -/
theorem store_eq_passThrough :
    store server = passThrough server [.change preparingForInsert, .mysql, .debug] := by
  ext s msg : 2
  obtain ⟨db, errors⟩ := s
  rw [passThrough_single (handle_change preparingForInsert)]
  unfold store
  cases h : mysql server db (preparingForInsert msg) with
  | error text => rw [passThrough_error (handle_mysql_error h)]
  | ok r =>
    rw [passThrough_single (handle_mysql h)]
    rfl

/-- The nodes one after the other are what the flow does with a single message. -/
theorem receive_eq_passThrough (db : Database) (topic : String) (payload : Json) :
    receive server db topic payload =
      passThrough server flow (db, []) (.received topic payload) := by
  rw [flow, passThrough_single (handle_change setRegion)]
  unfold receive prepare
  simp only [bind, Except.bind]
  cases hregion : checkRegion (setRegion (.received topic payload)) with
  | error text => rw [passThrough_error (handle_function_error hregion)]; rfl
  | ok msg₁ =>
    rw [passThrough_single (handle_function hregion)]
    dsimp only
    cases hschema : checkJsonSchema msg₁ with
    | error text => rw [passThrough_error (handle_function_error hschema)]; rfl
    | ok msg₂ =>
      rw [passThrough_single (handle_function hschema),
        passThrough_single (handle_change settingMessageProperties),
        passThrough_single (handle_change preparingRegionBoundariesQuery)]
      dsimp only
      cases hquery : mysql server db
          (preparingRegionBoundariesQuery (settingMessageProperties msg₂)) with
      | error text => rw [passThrough_error (handle_mysql_error hquery)]; rfl
      | ok r =>
        obtain ⟨db₁, msg₃⟩ := r
        obtain rfl : db₁ = db := mysql_select server db (.inl rfl) rfl hquery
        rw [passThrough_single (handle_mysql hquery)]
        dsimp only
        cases hbound : checkRegionBoundaries msg₃ with
        | error text => rw [passThrough_error (handle_function_error hbound)]; rfl
        | ok msg₄ =>
          rw [passThrough_single (handle_function hbound),
            passThrough_single (handle_change preparingDistanceQuery)]
          dsimp only
          cases hdistance : mysql server db₁ (preparingDistanceQuery msg₄) with
          | error text => rw [passThrough_error (handle_mysql_error hdistance)]; rfl
          | ok r =>
            rw [passThrough_single (handle_mysql hdistance),
              passThrough_single (handle_change prepareForNoiseArraySplit), passThrough_ok rfl,
              ← store_eq_passThrough]

end OneByOne

section Accounts

variable (server : Server) (db : Database)

/-- The messages that a node sends. -/
def Flying.sent (t : Flying) : List Msg :=
  match t.node.handle server db t.msg with
  | .ok (_, msgs) => msgs
  | .error _ => []

/-- The rows that a node stores and the errors that it reports. -/
def Flying.left (t : Flying) : Multiset NoiseMeasure × Multiset String :=
  match t.node.handle server db t.msg with
  | .ok (next, _) => (next.noiseMeasure, 0)
  | .error text => (0, {text})

/-- The messages that a message is replaced by. -/
def Flying.next (t : Flying) : Multiset Flying := ahead t.rest (t.sent server db)

variable {M : Type*} [AddCommMonoid M] (gain : Flying → M)

/-- What a message and all that is sent on its behalf gain. -/
def gather : List FlowNode → Msg → M
  | [], _ => 0
  | node :: rest, msg =>
    gain ⟨node, rest, msg⟩ + (((⟨node, rest, msg⟩ : Flying).sent server db).map (gather rest)).sum

/-- What the tokens on their way will still add. -/
def flowAccount : Account (Flying.next server db) gain where
  worth t := gather server db gain (t.node :: t.rest) t.msg
  worth_eq t := by
    obtain ⟨node, rest, msg⟩ := t
    rw [gather]
    cases rest with
    | nil => simp [Flying.next, ahead, gather]
    | cons node' rest => simp [Flying.next, ahead, Function.comp_def]

/-- Passing a message through some nodes leaves the rows and the errors of its account. -/
def PassesBalanced (rest : List FlowNode) : Prop :=
  ∀ (msg : Msg) (rows : List NoiseMeasure) (errors : List String), ∃ rows' errors',
    passThrough server rest (db.withMeasures rows, errors) msg =
      (db.withMeasures (rows ++ rows'), errors ++ errors') ∧
    ((rows' : Multiset NoiseMeasure), (errors' : Multiset String)) =
      gather server db.reference (Flying.left server db.reference) rest msg

variable {server db}

/-- Messages that are passed on one after the other add up. -/
theorem PassesBalanced.foldl {rest : List FlowNode} (h : PassesBalanced server db rest)
    (msgs : List Msg) (rows : List NoiseMeasure) (errors : List String) : ∃ rows' errors',
      msgs.foldl (passThrough server rest) (db.withMeasures rows, errors) =
        (db.withMeasures (rows ++ rows'), errors ++ errors') ∧
      ((rows' : Multiset NoiseMeasure), (errors' : Multiset String)) =
        (msgs.map (gather server db.reference (Flying.left server db.reference) rest)).sum := by
  induction msgs generalizing rows errors with
  | nil => exact ⟨[], [], by simp, rfl⟩
  | cons msg msgs ih =>
    obtain ⟨rows₁, errors₁, hpass, hleft⟩ := h msg rows errors
    obtain ⟨rows₂, errors₂, hrest, hsum⟩ := ih (rows ++ rows₁) (errors ++ errors₁)
    refine ⟨rows₁ ++ rows₂, errors₁ ++ errors₂, ?_, ?_⟩
    · rw [List.foldl_cons, hpass, hrest, List.append_assoc, List.append_assoc]
    · rw [List.map_cons, List.sum_cons, ← hleft, ← hsum, Prod.mk_add_mk, Multiset.coe_add,
        Multiset.coe_add]

variable (server db)

/-- Whatever nodes follow, a message adds what it is worth. -/
theorem passesBalanced (rest : List FlowNode) : PassesBalanced server db rest := by
  induction rest with
  | nil => exact fun msg rows errors => ⟨[], [], by simp [passThrough], rfl⟩
  | cons node rest ih =>
    intro msg rows errors
    have hnode := handle_reference server (db.withMeasures rows) node msg
    rw [reference_withMeasures] at hnode
    rw [gather, Flying.left, Flying.sent]
    dsimp only
    cases hr : node.handle server db.reference msg with
    | error text =>
      rw [hr] at hnode
      exact ⟨[], [text], by rw [passThrough_error hnode, List.append_nil], by simp⟩
    | ok r =>
      rw [hr] at hnode
      obtain ⟨rows', errors', hfold, hsum⟩ := ih.foldl r.2 (rows ++ r.1.noiseMeasure) errors
      refine ⟨r.1.noiseMeasure ++ rows', errors', ?_, ?_⟩
      · rw [passThrough_ok hnode, withMeasures_withMeasures, hfold, List.append_assoc]
      · dsimp only
        rw [← hsum, Prod.mk_add_mk, Multiset.coe_add, zero_add]

/-- The rows that a message adds when it is handled alone. -/
def storedRows (m : String × Json) : List NoiseMeasure :=
  (receive server db.reference m.1 m.2).1.noiseMeasure

/-- The errors that a message causes when it is handled alone. -/
def reportedErrors (m : String × Json) : List String := (receive server db.reference m.1 m.2).2

variable {db}

instance (R : ℕ) (x y : ℚ) : Decidable (HoldsPlace db R x y) :=
  inferInstanceAs (Decidable (∃ r ∈ db.region, _))

/-- The topic and the coordinates of a payload determine where its measures are stored. -/
theorem Accepted.place_eq {R R' : ℕ} {x y x' y' : ℚ} {topic : String} {payload : Json}
    {noises : List ℚ} (h : Accepted db R' x' y' topic payload noises)
    (htopic : NamesRegion R topic) (hx : payload.field "coordX" = some (.num x))
    (hy : payload.field "coordY" = some (.num y)) : R' = R ∧ x' = x ∧ y' = y := by
  obtain ⟨digits, hdigits, rfl⟩ := regionDigits_of_namesRegion htopic
  obtain ⟨digits', hdigits', rfl⟩ := regionDigits_of_namesRegion h.topic
  obtain rfl : digits = digits' := Option.some.inj (hdigits.symm.trans hdigits')
  exact ⟨rfl, Json.num.inj (Option.some.inj (h.measure.coordX.symm.trans hx)),
    Json.num.inj (Option.some.inj (h.measure.coordY.symm.trans hy))⟩

/-- Whether a message is valid depends on the other tables only. -/
theorem accepted_reference {R : ℕ} {x y : ℚ} {topic : String} {payload : Json} {noises : List ℚ} :
    Accepted db.reference R x y topic payload noises ↔ Accepted db R x y topic payload noises :=
  ⟨fun h => ⟨h.topic, h.measure, h.region⟩, fun h => ⟨h.topic, h.measure, h.region⟩⟩

/-- A valid message adds one row for each of its noises. -/
theorem storedRows_accepted {R : ℕ} {x y : ℚ} {topic : String} {payload : Json} {noises : List ℚ}
    (h : Accepted db R x y topic payload noises) :
    storedRows server db (topic, payload) = measureRows R x y
        ((nearestPoint server db R x y).map PointOfInterest.id) noises ∧
      reportedErrors server db (topic, payload) = [] := by
  have hreceive := receive_accepted server db.reference (accepted_reference.mpr h)
  rw [storedRows, reportedErrors, hreceive]
  exact ⟨List.nil_append _, rfl⟩

/-- Any other message adds nothing and causes one error. -/
theorem storedRows_discarded {topic : String} {payload : Json}
    (h : ∀ R x y noises, ¬Accepted db R x y topic payload noises) :
    storedRows server db (topic, payload) = [] ∧
      ∃ text ∈ discardTexts, reportedErrors server db (topic, payload) = [text] := by
  obtain ⟨text, htext, hreceive⟩ := receive_discarded server db.reference
    fun R x y noises ha => h R x y noises (accepted_reference.mp ha)
  rw [storedRows, reportedErrors, hreceive]
  exact ⟨rfl, text, htext, rfl⟩

variable (db)

/-- A message that arrives is worth what it adds when it is handled alone. -/
theorem worth_received (m : String × Json) :
    (flowAccount server db.reference (Flying.left server db.reference)).worth (.received m.1 m.2) =
      ((storedRows server db m : Multiset NoiseMeasure),
        (reportedErrors server db m : Multiset String)) := by
  obtain ⟨rows, errors, hpass, hleft⟩ :=
    passesBalanced server db.reference flow (.received m.1 m.2) [] []
  rw [withMeasures_nil, ← receive_eq_passThrough, List.nil_append, List.nil_append] at hpass
  rw [reference_reference] at hleft
  rw [storedRows, reportedErrors, hpass]
  exact hleft.symm

end Accounts

section Runs

variable {server : Server} {db : Database} {s s' : FlowState} {as : List FlowEvent}

/-- An event as the network sees it. -/
def FlowEvent.traffic : FlowEvent → Traffic Flying
  | arrive topic payload => .arrive (.received topic payload)
  | handle t => .handle t

/-- No message, nothing to do. -/
theorem ahead_nil (rest : List FlowNode) : ahead rest [] = [] := by
  cases rest <;> rfl

/-- A node appends its rows and errors, and its messages are on their way. -/
theorem handled_eq (hs : s.db.reference = db.reference) (others : List Flying) (t : Flying) :
    ∃ rows errors, s.handled server others t =
        ⟨s.db.withMeasures rows, others ++ ahead t.rest (t.sent server db.reference),
          s.errors ++ errors⟩ ∧
      ((rows : Multiset NoiseMeasure), (errors : Multiset String)) =
        t.left server db.reference := by
  have hnode := handle_reference server s.db t.node t.msg
  rw [hs] at hnode
  unfold FlowState.handled Flying.sent Flying.left
  cases hr : t.node.handle server db.reference t.msg with
  | error text =>
    rw [hr] at hnode
    rw [hnode]
    exact ⟨[], [text], by simp [ahead_nil, Except.map], rfl⟩
  | ok r =>
    rw [hr] at hnode
    rw [hnode]
    exact ⟨r.1.noiseMeasure, [], by simp [Except.map], rfl⟩

/-- The flow is a network of tokens. -/
theorem flow_refines : (flowSystem server).Refines (network (Flying.next server db.reference))
    (fun s => s.db.reference = db.reference) (fun s => (s.inFlight : Multiset Flying))
    fun a => some a.traffic where
  inv_step s a s' hs hstep := by
    cases a with
    | arrive topic payload =>
      rw [show s' = _ from hstep]
      exact hs
    | handle t =>
      obtain ⟨before, after, -, rfl⟩ := hstep
      obtain ⟨rows, errors, heq, -⟩ := handled_eq hs (before ++ after) t
      rw [heq, reference_withMeasures]
      exact hs
  visible s a s' b hs hstep hb := by
    obtain rfl := Option.some.inj hb
    cases a with
    | arrive topic payload =>
      rw [show s' = _ from hstep]
      exact Multiset.coe_eq_coe.mpr (List.perm_append_singleton _ _)
    | handle t =>
      obtain ⟨before, after, hflight, rfl⟩ := hstep
      obtain ⟨rows, errors, heq, -⟩ := handled_eq hs (before ++ after) t
      refine ⟨(before ++ after : List Flying), ?_, ?_⟩
      · rw [hflight]
        exact Multiset.coe_eq_coe.mpr List.perm_middle
      · rw [heq, ← Multiset.coe_add, add_comm]
        rfl
  silent _ _ _ _ _ h := nomatch h

/-- The books of a run: the tables hold what the handled messages have left. -/
theorem ledger_of_run (hr : (flowSystem server).Run ⟨db, [], []⟩ as s) :
    s.db.reference = db.reference ∧ ∃ rows, s.db.noiseMeasure = db.noiseMeasure ++ rows ∧
      ((rows : Multiset NoiseMeasure), (s.errors : Multiset String)) =
        ((Traffic.visits (as.map FlowEvent.traffic)).map
          (Flying.left server db.reference)).sum := by
  refine hr.invariant (fun as s => s.db.reference = db.reference ∧ ∃ rows,
    s.db.noiseMeasure = db.noiseMeasure ++ rows ∧
      ((rows : Multiset NoiseMeasure), (s.errors : Multiset String)) =
        ((Traffic.visits (as.map FlowEvent.traffic)).map (Flying.left server db.reference)).sum)
    ⟨rfl, [], by simp, rfl⟩ fun as s a s' _ ih hstep => ?_
  obtain ⟨href, rows, hrows, hsum⟩ := ih
  cases a with
  | arrive topic payload =>
    rw [show s' = _ from hstep]
    refine ⟨href, rows, hrows, ?_⟩
    simpa [FlowEvent.traffic, Traffic.handled] using hsum
  | handle t =>
    obtain ⟨before, after, -, rfl⟩ := hstep
    obtain ⟨rows', errors', heq, hleft⟩ := handled_eq href (before ++ after) t
    rw [heq]
    refine ⟨href, rows ++ rows', ?_, ?_⟩
    · simp [hrows]
    · rw [List.map_append, Traffic.visits_append, Multiset.map_add, Multiset.sum_add, ← hsum,
        ← Multiset.coe_add, ← Multiset.coe_add, ← Prod.mk_add_mk, hleft]
      simp [FlowEvent.traffic, Traffic.handled]

/-- What has arrived is worth what its messages are worth. -/
theorem total_arrivals {M : Type*} [AddCommMonoid M] {gain : Flying → M}
    (A : Account (Flying.next server db.reference) gain) (as : List FlowEvent) :
    A.total (Traffic.arrivals (as.map FlowEvent.traffic)) =
      ((messages as).map fun m => A.worth (.received m.1 m.2)).sum := by
  induction as with
  | nil => rfl
  | cons a as ih =>
    have hsplit : Traffic.arrivals ((a :: as).map FlowEvent.traffic) =
        a.traffic.arrived + Traffic.arrivals (as.map FlowEvent.traffic) := by
      rw [List.map_cons, ← List.singleton_append, Traffic.arrivals_append,
        Traffic.arrivals_singleton]
    rw [hsplit, A.total_add, ih]
    cases a with
    | arrive topic payload =>
      simp [messages, FlowEvent.message, FlowEvent.traffic, Traffic.arrived, Account.total]
    | handle t =>
      have hsame : messages (.handle t :: as) = messages as := rfl
      rw [hsame]
      exact zero_add _

variable (server db) in
/-- The messages that arrive are worth the rows and errors that they cause when handled alone. -/
theorem sum_worth_received (ms : List (String × Json)) : (ms.map fun m =>
      (flowAccount server db.reference (Flying.left server db.reference)).worth
        (.received m.1 m.2)).sum =
    ((ms.flatMap (storedRows server db) : Multiset NoiseMeasure),
      (ms.flatMap (reportedErrors server db) : Multiset String)) := by
  induction ms with
  | nil => rfl
  | cons m ms ih =>
    rw [List.map_cons, List.sum_cons, ih, worth_received, List.flatMap_cons, List.flatMap_cons,
      Prod.mk_add_mk, Multiset.coe_add, Multiset.coe_add]

/-- The number of times that nodes handle a message and what is sent on its behalf. -/
def nodeVisits (server : Server) (db : Database) (m : String × Json) : ℕ :=
  gather server db.reference (fun _ => 1) flow (.received m.1 m.2)

/-- Where a run of the flow stands. -/
structure FlowBalanced (server : Server) (db : Database) (as : List FlowEvent) (s : FlowState) :
    Prop where
  /-- Only rows of messages that have arrived are stored, each at most once. -/
  stored : ∃ rows, s.db = db.withMeasures rows ∧
    rows.Subperm ((messages as).flatMap (storedRows server db))
  reported : s.errors.Subperm ((messages as).flatMap (reportedErrors server db))
  /-- When no message is on its way, all rows are stored and all errors are reported. -/
  drained : s.inFlight = [] → ∃ rows, s.db = db.withMeasures rows ∧
    rows.Perm ((messages as).flatMap (storedRows server db)) ∧
    s.errors.Perm ((messages as).flatMap (reportedErrors server db))
  /-- The nodes can finish what has arrived. -/
  finishes : ∃ s', ((flowSystem server).restrict fun _ a => a.message = none).Reaches s s' ∧
    s'.inFlight = []
  /-- They do so whatever they handle first. -/
  bounded : as.length ≤ ((messages as).map fun m => nodeVisits server db m + 1).sum

/-- The messages on their way and their traffic. -/
theorem network_run (hr : (flowSystem server).Run ⟨db, [], []⟩ as s) :
    (network (Flying.next server db.reference)).Run 0 (as.map FlowEvent.traffic)
      (s.inFlight : Multiset Flying) := by
  have habs := (flow_refines.run hr rfl).2
  have hmap : as.filterMap (fun a => some a.traffic) = as.map FlowEvent.traffic :=
    congrFun List.filterMap_eq_map as
  rwa [hmap] at habs

/-- Every event is an arrival or a visit. -/
theorem length_eq_arrivals_add_visits (as : List FlowEvent) : as.length =
    (messages as).length + (Traffic.visits (as.map FlowEvent.traffic)).card := by
  induction as using List.reverseRecOn with
  | nil => rfl
  | append_singleton as a ih =>
    have hmessages : messages (as ++ [a]) = messages as ++ messages [a] := List.filterMap_append
    have hone : (messages [a]).length + a.traffic.handled.card = 1 := by
      cases a <;> rfl
    rw [List.length_append, ih, hmessages, List.length_append, List.map_append,
      Traffic.visits_append, Multiset.card_add, List.map_singleton, Traffic.visits_singleton,
      List.length_singleton]
    omega

/-- Every message on its way can be handled next. -/
theorem exists_handled (hs : s.db.reference = db.reference) {a : Traffic Flying}
    {flight : Multiset Flying}
    (hstep : ((network (Flying.next server db.reference)).restrict fun _ a => a.arrived = 0).step
      s.inFlight a flight) :
    ∃ s', ((flowSystem server).restrict fun _ a => a.message = none).Reaches s s' ∧
      s'.db.reference = db.reference ∧ (s'.inFlight : Multiset Flying) = flight := by
  cases a with
  | arrive t => exact absurd hstep.2 (Multiset.singleton_ne_zero t)
  | handle t =>
    obtain ⟨rest, hflight, rfl⟩ := hstep.1
    have hmem : t ∈ s.inFlight := Multiset.mem_coe.mp (hflight ▸ Multiset.mem_cons_self t rest)
    obtain ⟨before, after, hsplit⟩ := List.append_of_mem hmem
    have hothers : ((before ++ after : List Flying) : Multiset Flying) = rest := by
      rw [hsplit] at hflight
      have hmiddle : ((before ++ t :: after : List Flying) : Multiset Flying) =
          t ::ₘ (before ++ after : List Flying) := Multiset.coe_eq_coe.mpr List.perm_middle
      rw [hmiddle] at hflight
      exact (Multiset.cons_inj_right t).mp hflight
    obtain ⟨rows, errors, heq, -⟩ := handled_eq hs (before ++ after) t
    refine ⟨s.handled server (before ++ after) t,
      System.Reaches.single (a := .handle t) ⟨⟨before, after, hsplit, rfl⟩, rfl⟩, ?_, ?_⟩
    · rw [heq]
      exact hs
    · rw [heq, ← Multiset.coe_add, hothers, add_comm]
      rfl

/-- Nothing but the measures is new in tables with the same reference. -/
theorem eq_withMeasures {db' : Database} {rows : List NoiseMeasure}
    (href : db'.reference = db.reference) (hrows : db'.noiseMeasure = db.noiseMeasure ++ rows) :
    db' = db.withMeasures rows := by
  obtain ⟨region, point, measures⟩ := db'
  obtain rfl : measures = db.noiseMeasure ++ rows := hrows
  obtain rfl : region = db.region := congrArg Database.region href
  obtain rfl : point = db.pointOfInterest := congrArg Database.pointOfInterest href
  rfl

/-- In every run of the flow the books are in order. -/
theorem flowBalanced (hr : (flowSystem server).Run ⟨db, [], []⟩ as s) :
    FlowBalanced server db as s := by
  obtain ⟨href, rows, hrows, hsum⟩ := ledger_of_run hr
  have hdb := eq_withMeasures href hrows
  have hnet := network_run hr
  -- what is stored and what is still to come
  have hbooks := (flowAccount server db.reference
    (Flying.left server db.reference)).balance hnet
  rw [total_arrivals, sum_worth_received, ← hsum, Account.total_zero, zero_add] at hbooks
  obtain ⟨hstored, hreported⟩ := Prod.ext_iff.mp hbooks
  rw [Prod.fst_add] at hstored
  rw [Prod.snd_add] at hreported
  dsimp only at hstored hreported
  refine ⟨⟨rows, hdb, ?_⟩, ?_, fun hempty => ⟨rows, hdb, ?_, ?_⟩, ?_, ?_⟩
  · exact Multiset.coe_le.mp (Multiset.le_iff_exists_add.mpr ⟨_, hstored.symm⟩)
  · exact Multiset.coe_le.mp (Multiset.le_iff_exists_add.mpr ⟨_, hreported.symm⟩)
  · rw [hempty] at hstored
    exact Multiset.coe_eq_coe.mp ((add_zero _).symm.trans hstored)
  · rw [hempty] at hreported
    exact Multiset.coe_eq_coe.mp ((add_zero _).symm.trans hreported)
  · obtain ⟨as', hrun⟩ :=
      reaches_zero _ (flowAccount server db.reference fun _ => 1) s.inFlight
    obtain ⟨s', hreach, -, hflight⟩ := @System.Run.lift _ _ _ _
      ((flowSystem server).restrict fun _ a => a.message = none) _
      (fun s => s.db.reference = db.reference) (fun s => (s.inFlight : Multiset Flying))
      (fun s _ _ hs hstep => exists_handled hs hstep) s href as' 0 hrun
    exact ⟨s', hreach, (Multiset.coe_eq_zero _).mp hflight⟩
  · have hvisits := (flowAccount server db.reference fun _ => 1).balance hnet
    rw [total_arrivals, Account.total_zero, zero_add, Multiset.map_const', Multiset.sum_replicate,
      smul_eq_mul, mul_one] at hvisits
    have hsum : ((messages as).map fun m => nodeVisits server db m + 1).sum =
        ((messages as).map (nodeVisits server db)).sum + (messages as).length := by
      simp [List.sum_map_add]
    rw [length_eq_arrivals_add_visits as, hsum]
    have hworth : ((messages as).map (nodeVisits server db)).sum =
        ((messages as).map fun m => (flowAccount server db.reference fun _ => 1).worth
          (.received m.1 m.2)).sum := rfl
    omega

/-- A message may arrive at any time. -/
theorem run_arrive (hr : (flowSystem server).Run ⟨db, [], []⟩ as s) (topic : String)
    (payload : Json) : (flowSystem server).Run ⟨db, [], []⟩ (as ++ [.arrive topic payload])
      { s with inFlight := s.inFlight ++ [.received topic payload] } :=
  hr.snoc (show (flowSystem server).step s (.arrive topic payload) _ from rfl)

/-- What is on its way can be handled while no message arrives. -/
theorem exists_finish (hr : (flowSystem server).Run ⟨db, [], []⟩ as s) :
    ∃ as' s', (flowSystem server).Run ⟨db, [], []⟩ (as ++ as') s' ∧
      messages (as ++ as') = messages as ∧ s'.inFlight = [] := by
  obtain ⟨s', ⟨as', hr'⟩, hempty⟩ := (flowBalanced hr).finishes
  refine ⟨as', s', hr.append hr'.of_restrict, ?_, hempty⟩
  have hsilent : messages as' = [] := by
    refine hr'.invariant (fun as _ => messages as = []) rfl fun as _ a _ _ ih hs => ?_
    have hsplit : messages (as ++ [a]) = messages as ++ messages [a] := List.filterMap_append
    rw [hsplit, ih, messages, List.filterMap_cons_none hs.2]
    rfl
  have hsplit : messages (as ++ as') = messages as ++ messages as' := List.filterMap_append
  rw [hsplit, hsilent, List.append_nil]

/-- Any messages can be delivered and handled. -/
theorem exists_drained (server : Server) (db : Database) (ms : List (String × Json)) :
    ∃ as s, (flowSystem server).Run ⟨db, [], []⟩ as s ∧ messages as = ms ∧ s.inFlight = [] := by
  have hdeliver : ∃ as s, (flowSystem server).Run ⟨db, [], []⟩ as s ∧ messages as = ms := by
    induction ms using List.reverseRecOn with
    | nil => exact ⟨[], _, System.Run.nil _, rfl⟩
    | append_singleton ms m ih =>
      obtain ⟨as, s, hr, rfl⟩ := ih
      exact ⟨_, _, run_arrive hr m.1 m.2, List.filterMap_append⟩
  obtain ⟨as, s, hr, rfl⟩ := hdeliver
  obtain ⟨as', s', hr', hmessages, hempty⟩ := exists_finish hr
  exact ⟨as ++ as', s', hr', hmessages, hempty⟩

/-- Whenever messages arrive and whatever the nodes handle next, the tables and the errors are
those of the messages handled one by one, and two runs with the same messages end with the same
rows, up to their order. -/
theorem flow_serializes (hr : (flowSystem server).Run ⟨db, [], []⟩ as s) :
    FlowBalanced server db as s ∧
      ∀ as' s', (flowSystem server).Run ⟨db, [], []⟩ as' s' →
        (messages as').Perm (messages as) → s.inFlight = [] → s'.inFlight = [] →
        s'.db.reference = s.db.reference ∧ s'.db.noiseMeasure.Perm s.db.noiseMeasure ∧
          s'.errors.Perm s.errors := by
  refine ⟨flowBalanced hr, fun as' s' hr' hperm hempty hempty' => ?_⟩
  obtain ⟨rows, hdb, hrows, herrors⟩ := (flowBalanced hr).drained hempty
  obtain ⟨rows', hdb', hrows', herrors'⟩ := (flowBalanced hr').drained hempty'
  rw [hdb, hdb']
  refine ⟨rfl, List.Perm.append_left _ ?_, ?_⟩
  · exact hrows'.trans ((hperm.flatMap_right _).trans hrows.symm)
  · exact herrors'.trans ((hperm.flatMap_right _).trans herrors.symm)

/-- An average of the centre of the first region arrives before a message without a region, which
is handled first. -/
def overtaking : List FlowEvent :=
  [.arrive "noise/region1" (centreMeasure "avg" (.num 60)), .arrive "noise" .null,
    .handle (.received "noise" .null)]

/-- Whether the message without a region overtakes the average or arrives before it, one row and
one error are left. -/
theorem flow_serializes_overtaking : ∃ as s as' s' nearest,
    ((flowSystem .stable).Run ⟨dumpedDatabase, [], []⟩ (overtaking ++ as) s ∧ s.inFlight = []) ∧
    ((flowSystem .stable).Run ⟨dumpedDatabase, [], []⟩ as' s' ∧ s'.inFlight = [] ∧
      messages as' = [("noise", .null), ("noise/region1", centreMeasure "avg" (.num 60))]) ∧
    s.db.noiseMeasure = measureRows 1 50 50 nearest [60] ∧
    s'.db.noiseMeasure.Perm s.db.noiseMeasure ∧ s'.errors.Perm s.errors ∧ s.errors.length = 1 := by
  have h0 : (flowSystem .stable).Run ⟨dumpedDatabase, [], []⟩ [] ⟨dumpedDatabase, [], []⟩ :=
    System.Run.nil _
  have h1 := run_arrive h0 "noise/region1" (centreMeasure "avg" (.num 60))
  have h2 := run_arrive h1 "noise" .null
  have h3 : (flowSystem .stable).Run ⟨dumpedDatabase, [], []⟩ overtaking _ :=
    h2.snoc ⟨[.received "noise/region1" (centreMeasure "avg" (.num 60))], [], rfl, rfl⟩
  obtain ⟨as, s, hr, hmessages, hdrained⟩ := exists_finish h3
  obtain ⟨as', s', hr', hmessages', hdrained'⟩ := exists_drained .stable dumpedDatabase
    [("noise", .null), ("noise/region1", centreMeasure "avg" (.num 60))]
  have hsame : (messages as').Perm (messages (overtaking ++ as)) := by
    rw [hmessages', hmessages]
    exact List.Perm.swap _ _ _
  obtain ⟨hbalanced, hcompare⟩ := flow_serializes hr
  obtain ⟨-, hmeasures, herrors⟩ := hcompare as' s' hr' hsame hdrained hdrained'
  obtain ⟨rows, hdb, hrows, hreported⟩ := hbalanced.drained hdrained
  have haccepted : Accepted dumpedDatabase 1 50 50 "noise/region1" (centreMeasure "avg" (.num 60))
      [60] := ⟨namesRegion_one, ⟨rfl, rfl, .inl ⟨rfl, 60, rfl, rfl⟩, by simp; norm_num⟩,
        holdsPlace_dumpedDatabase⟩
  obtain ⟨hstored, hnone⟩ := storedRows_accepted .stable haccepted
  obtain ⟨hnothing, text, -, herror⟩ := @storedRows_discarded .stable dumpedDatabase "noise" .null
    fun R x y noises h => absurd h.measure.coordX (by simp [Json.field])
  have hboth : messages overtaking =
      [("noise/region1", centreMeasure "avg" (.num 60)), ("noise", .null)] := rfl
  rw [hmessages, hboth] at hrows hreported
  simp only [List.flatMap_cons, List.flatMap_nil, hstored, hnone, hnothing, herror,
    List.append_nil, List.nil_append] at hrows hreported
  have hone : s.db.noiseMeasure = measureRows 1 50 50
      ((nearestPoint .stable dumpedDatabase 1 50 50).map PointOfInterest.id) [60] := by
    rw [hdb]
    exact List.perm_singleton.mp hrows
  exact ⟨as, s, as', s', _, ⟨hr, hdrained⟩, ⟨hr', hdrained', hmessages'⟩, hone, hmeasures, herrors,
    hreported.length_eq⟩

end Runs

end NoiseLevel.Backend
