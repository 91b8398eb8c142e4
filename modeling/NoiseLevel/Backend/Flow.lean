import NoiseLevel.Backend.Database
import NoiseLevel.Backend.RegionTopic

/-!
# The flow

The nodes of `flows.json` between the broker and the table of measures, each as a function of
the message that it rewrites, checks or sends on. The text of an error is what the node reports
when it drops the message.
-/

namespace NoiseLevel.Backend

open NoiseLevel.Core

/-- A message of the flow. A property that is not set is `none`. -/
structure Msg where
  topic : Option String
  payload : Option Json
  region : Option Json
  noise : Option Json
  coordX : Option Json
  coordY : Option Json
  nearestPoint : Option Json

/-- A message as it arrives from the broker. -/
def Msg.received (topic : String) (payload : Json) : Msg :=
  { topic := some topic, payload := some payload, region := none, noise := none, coordX := none,
    coordY := none, nearestPoint := none }

namespace Jsonata

/-- What an array constructor takes from one of its expressions: nothing from an undefined value
and the elements of an array. -/
def items : Option Json → List Json
  | none => []
  | some (.arr l) => l
  | some v => [v]

/-- The array constructor. -/
def array (values : List (Option Json)) : Json := .arr (values.flatMap items)

/-- A name behind a path that leads to an object. -/
def path (name : String) (v : Option Json) : Option Json := v.bind (Json.field name)

end Jsonata

open Jsonata

/-- Whether a property is undefined or null. -/
def isNullish : Option Json → Bool
  | none => true
  | some .null => true
  | some _ => false

/-- `Set region`: the region is the number that `$number` makes of the digits at the end of the
topic. The function is JSONata's; that it reads digits with leading zeros, as in `noise/region07`,
as a decimal number is an assumption. -/
def setRegion (msg : Msg) : Msg :=
  { msg with region := (msg.topic.bind regionDigits).map fun digits => .num (digitsValue digits) }

/-- `Check region`: a message needs a topic and a region. -/
def checkRegion (msg : Msg) : Except String Msg :=
  if msg.topic.isNone || isNullish msg.region then
    .error "Discarded measure: invalid MQTT Topic"
  else .ok msg

/-- `Check JSON schema`: the payload meets the schema. -/
def checkJsonSchema (msg : Msg) : Except String Msg :=
  if msg.payload.any globalSchema.validate then .ok msg
  else .error "Discarded measure: invalid JSON"

/-- `Setting message properties`: the noises as an array, and the place. -/
def settingMessageProperties (msg : Msg) : Msg :=
  { msg with
    noise :=
      if (path "mode" msg.payload).bind Json.string? = some "raw" then path "noise" msg.payload
      else some (array [path "noise" msg.payload])
    coordY := path "coordY" msg.payload
    coordX := path "coordX" msg.payload }

/-- `Preparing region boundaries query`: the regions around the place. -/
def preparingRegionBoundariesQuery (msg : Msg) : Msg :=
  { msg with
    payload := some (array [msg.region, msg.coordX, msg.coordY])
    topic := some selectRegion }

/-- `Check region boundaries`: there is such a region. -/
def checkRegionBoundaries (msg : Msg) : Except String Msg :=
  match msg.payload with
  | some (.arr []) => .error "Discarded measure: invalid region boundaries"
  | _ => .ok msg

/-- `Preparing Distance Query`: the nearest point of interest of the region. -/
def preparingDistanceQuery (msg : Msg) : Msg :=
  { msg with
    payload := some (array [msg.coordX, msg.coordY, msg.region])
    topic := some selectNearest }

/-- The first row's id, or null. -/
def prepareForNoiseArraySplit (msg : Msg) : Msg :=
  { msg with
    nearestPoint :=
      match msg.payload.bind fun v => v.elements.head? with
      | none => some .null
      | some .null => some .null
      | some row => row.field "id"
    payload := msg.noise
    noise := none }

/-- One message for each element of an array. -/
def noiseSplit (msg : Msg) : List Msg :=
  (msg.payload.toList.flatMap Json.elements).map fun v => { msg with payload := some v }

/-- `Preparing for insert`: a row with one noise. -/
def preparingForInsert (msg : Msg) : Msg :=
  { msg with
    payload := some (array [msg.payload, msg.region, msg.coordX, msg.coordY, msg.nearestPoint])
    topic := some insertMeasure }

section Nodes

variable (server : Server)

/-- The node that sends a statement: the text is the topic and the parameters are the payload. -/
def mysql (db : Database) (msg : Msg) : Except String (Database × Msg) :=
  match msg.topic with
  | none => .error "msg.topic : the query is not defined as a string"
  | some sql => do
    let (db, rows) ← db.query server sql (msg.payload.toList.flatMap Json.elements)
    .ok (db, { msg with payload := some (.arr rows) })

/-- The nodes up to the split. -/
def prepare (db : Database) (msg : Msg) : Except String (Database × List Msg) := do
  let msg ← checkRegion (setRegion msg)
  let msg ← checkJsonSchema msg
  let (db, msg) ← mysql server db (preparingRegionBoundariesQuery (settingMessageProperties msg))
  let msg ← checkRegionBoundaries msg
  let (db, msg) ← mysql server db (preparingDistanceQuery msg)
  .ok (db, noiseSplit (prepareForNoiseArraySplit msg))

/-- The nodes behind the split, with the errors reported so far. -/
def store (s : Database × List String) (msg : Msg) : Database × List String :=
  match mysql server s.1 (preparingForInsert msg) with
  | .ok (db, _) => (db, s.2)
  | .error text => (s.1, s.2 ++ [text])

/-- What a message from the broker leaves in the tables, and the errors that are reported. -/
def receive (db : Database) (topic : String) (payload : Json) : Database × List String :=
  match prepare server db (.received topic payload) with
  | .ok (db, msgs) => msgs.foldl (store server) (db, [])
  | .error text => (db, [text])

end Nodes

end NoiseLevel.Backend
