import NoiseLevel.Backend.Schema
import NoiseLevel.Core.FirstRow
import NoiseLevel.Core.RoundedRoot

/-!
# The tables of the backend

The tables of `db-dump.sql` and the three statements that the flow sends to them. The columns
that no statement of the flow reads or that the database fills by itself are left out.
-/

namespace NoiseLevel.Backend

open NoiseLevel.Core

/-- A row of the table `region`. -/
structure Region where
  id : ℤ
  minX : ℤ
  minY : ℤ
  maxX : ℤ
  maxY : ℤ

/-- A row of the table `point_of_interest`. -/
structure PointOfInterest where
  id : ℤ
  region : ℤ
  coordX : ℚ
  coordY : ℚ

/-- A row of the table `noise_measure`. -/
structure NoiseMeasure where
  noise : ℚ
  region : Option ℤ
  coordX : ℚ
  coordY : ℚ
  nearestPointInterest : Option ℤ

/-- The tables and their rows. -/
structure Database where
  region : List Region
  pointOfInterest : List PointOfInterest
  noiseMeasure : List NoiseMeasure

/-- What the database server leaves open: which rows come first among those with equal keys,
and how `ROUND(SQRT(q), 4)` ends when the root is halfway. -/
structure Server where
  order : RowOrder ℚ
  root : ℚ → ℚ
  root_near : ∀ q : ℚ, 0 ≤ q → |(root q : ℝ) - √(q : ℝ)| ≤ ((1 / 20000 : ℚ) : ℝ)

/-- A server that keeps rows as they stood and rounds a half up. -/
def Server.stable : Server where
  order := RowOrder.stable
  root := rootTo 4
  root_near q hq := by
    have h := abs_rootTo_sub_sqrt 4 hq
    norm_num at h ⊢
    exact h

section Statements

/-- The statement of the region boundaries. -/
def selectRegion : String :=
  "SELECT * FROM region WHERE id = ? AND ? BETWEEN min_x AND max_x AND ? BETWEEN min_y AND max_y;"

/-- The statement of the nearest point of interest. -/
def selectNearest : String :=
  "SELECT id, ROUND(SQRT(POW(coord_x - ?, 2) + POW(coord_y - ?, 2)), 4) AS distance  FROM point_of_interest  WHERE region = ? ORDER BY distance LIMIT 1;"

/-- The statement that stores a measure. -/
def insertMeasure : String :=
  "INSERT INTO noise_measure VALUES (NULL, ?, ?, ?, ?, ?, CURRENT_TIMESTAMP);"

theorem selectNearest_ne_selectRegion : selectNearest ≠ selectRegion := by decide +kernel

theorem insertMeasure_ne_selectRegion : insertMeasure ≠ selectRegion := by decide +kernel

theorem insertMeasure_ne_selectNearest : insertMeasure ≠ selectNearest := by decide +kernel

end Statements

/-- A row as the driver returns it. -/
def Region.json (r : Region) : Json :=
  .obj [("id", .num r.id), ("min_x", .num r.minX), ("min_y", .num r.minY),
    ("max_x", .num r.maxX), ("max_y", .num r.maxY)]

/-- What an integer column keeps of a number: a half is rounded away from zero. -/
def intColumn (q : ℚ) : ℤ := if 0 ≤ q then ⌊q + 1 / 2⌋ else ⌈q - 1 / 2⌉

@[simp] theorem intColumn_intCast (n : ℤ) : intColumn n = n := by
  rw [intColumn]
  split
  · rw [Int.floor_eq_iff]
    constructor <;> norm_num
  · rw [Int.ceil_eq_iff]
    constructor <;> norm_num

/-- What an integer column that may be null keeps of a value. -/
def nullableColumn : Json → Option (Option ℤ)
  | .null => some none
  | .num q => some (some (intColumn q))
  | _ => none

namespace Database

variable (db : Database)

/-- The rows of the region boundaries. -/
def regionsAround (id x y : ℚ) : List Region :=
  db.region.filter fun r =>
    decide (r.id = id ∧ (r.minX ≤ x ∧ x ≤ r.maxX) ∧ r.minY ≤ y ∧ y ≤ r.maxY)

/-- The points of interest of a region. -/
def pointsOf (region : ℚ) : List PointOfInterest :=
  db.pointOfInterest.filter fun p => decide ((p.region : ℚ) = region)

/-- The column `distance` of a point of interest. -/
def distance (server : Server) (x y : ℚ) (p : PointOfInterest) : ℚ :=
  server.root ((p.coordX - x) ^ 2 + (p.coordY - y) ^ 2)

/-- The rows of the nearest point of interest: the first one in the order of the distance. -/
def nearestPoints (server : Server) (x y region : ℚ) : List Json :=
  (server.order.first (distance server x y) (db.pointsOf region)).toList.map fun p =>
    .obj [("id", .num p.id), ("distance", .num (distance server x y p))]

/-- Whether the rows that a measure refers to exist. -/
def refersTo (m : NoiseMeasure) : Bool :=
  (m.region.all fun id => db.region.any fun r => r.id = id) &&
    m.nearestPointInterest.all fun id => db.pointOfInterest.any fun p => p.id = id

/-- Storing a measure whose foreign keys exist. -/
def insert (m : NoiseMeasure) : Except String Database :=
  if db.refersTo m then .ok { db with noiseMeasure := db.noiseMeasure ++ [m] }
  else .error "ER_NO_REFERENCED_ROW_2"

/-- A statement with the values of its parameters. The flow sends numbers, and a null for the
nearest point of interest: other values are an error here. -/
def query (server : Server) (sql : String) (values : List Json) :
    Except String (Database × List Json) :=
  if sql = selectRegion then
    match values with
    | [.num id, .num x, .num y] => .ok (db, (db.regionsAround id x y).map Region.json)
    | _ => .error "ER_WRONG_ARGUMENTS"
  else if sql = selectNearest then
    match values with
    | [.num x, .num y, .num region] => .ok (db, db.nearestPoints server x y region)
    | _ => .error "ER_WRONG_ARGUMENTS"
  else if sql = insertMeasure then
    match values with
    | [.num noise, region, .num x, .num y, nearest] =>
      match nullableColumn region, nullableColumn nearest with
      | some region, some nearest => do
        let db ← db.insert ⟨noise, region, x, y, nearest⟩
        .ok (db, [])
      | _, _ => .error "ER_WRONG_ARGUMENTS"
    | _ => .error "ER_WRONG_ARGUMENTS"
  else .error "ER_PARSE_ERROR"

section Query

variable (server : Server)

theorem query_selectRegion (id x y : ℚ) :
    db.query server selectRegion [.num id, .num x, .num y] =
      .ok (db, (db.regionsAround id x y).map Region.json) := by
  unfold query
  rw [if_pos (Eq.refl selectRegion)]

theorem query_selectNearest (x y region : ℚ) :
    db.query server selectNearest [.num x, .num y, .num region] =
      .ok (db, db.nearestPoints server x y region) := by
  unfold query
  rw [if_neg selectNearest_ne_selectRegion, if_pos (Eq.refl selectNearest)]

/-- A measure whose foreign keys exist is stored behind the others. -/
theorem query_insertMeasure {noise x y : ℚ} {region nearest : Json} {m n : Option ℤ}
    (hm : nullableColumn region = some m) (hn : nullableColumn nearest = some n)
    (h : db.refersTo ⟨noise, m, x, y, n⟩ = true) :
    db.query server insertMeasure [.num noise, region, .num x, .num y, nearest] =
      .ok ({ db with noiseMeasure := db.noiseMeasure ++ [⟨noise, m, x, y, n⟩] }, []) := by
  unfold query
  rw [if_neg insertMeasure_ne_selectRegion, if_neg insertMeasure_ne_selectNearest,
    if_pos (Eq.refl insertMeasure)]
  dsimp only
  rw [hm, hn]
  dsimp only
  rw [insert, if_pos h]
  rfl

end Query

end Database

end NoiseLevel.Backend
