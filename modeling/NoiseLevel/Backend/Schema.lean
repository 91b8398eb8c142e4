import Mathlib.Algebra.Order.Ring.Rat

/-!
# The backend's check of a measure

JSON values, the keywords of JSON Schema that the backend uses and the schema of
`global.json` that the flow compiles. A keyword constrains only the values it
speaks about and lets every other value pass.
-/

namespace NoiseLevel.Backend

/-- A parsed JSON value. -/
inductive Json where
  | null
  | bool (b : Bool)
  | num (q : ℚ)
  | str (s : String)
  | arr (items : List Json)
  | obj (fields : List (String × Json))

/-- The types a schema may ask for. -/
inductive Kind where
  | null | boolean | number | string | array | object
deriving DecidableEq

namespace Json

/-- The type of a value. -/
def kind : Json → Kind
  | null => .null
  | bool _ => .boolean
  | num _ => .number
  | str _ => .string
  | arr _ => .array
  | obj _ => .object

/-- The number that a bound compares with. -/
def number? : Json → Option ℚ
  | num q => some q
  | _ => none

/-- The string that a constant compares with. -/
def string? : Json → Option String
  | str s => some s
  | _ => none

/-- The elements that an array constraint visits. -/
def elements : Json → List Json
  | arr items => items
  | _ => []

/-- The property of an object under a name. -/
def field (name : String) : Json → Option Json
  | obj fields => fields.lookup name
  | _ => none

/-- Whether an object has all the named properties. -/
def hasAll (names : List String) : Json → Bool
  | obj fields => names.all fun name => (fields.lookup name).isSome
  | _ => true

end Json

/-- A schema is a keyword or a conjunction of keywords. -/
inductive Schema where
  | any
  | both (first second : Schema)
  | type (kind : Kind)
  | enum (values : List String)
  | const (value : String)
  | minimum (bound : ℚ)
  | maximum (bound : ℚ)
  | items (schema : Schema)
  | property (name : String) (schema : Schema)
  | required (names : List String)
  | ifThen (condition consequence : Schema)

namespace Schema

/-- Every schema of the list has to accept. -/
def allOf : List Schema → Schema
  | [] => any
  | s :: rest => both s (allOf rest)

/-- Whether a schema accepts a value. -/
def validate : Schema → Json → Bool
  | any, _ => true
  | both s t, v => validate s v && validate t v
  | type k, v => decide (v.kind = k)
  | enum values, v => v.string?.any fun s => values.contains s
  | const value, v => v.string?.any fun s => s == value
  | minimum b, v => v.number?.all fun q => decide (b ≤ q)
  | maximum b, v => v.number?.all fun q => decide (q ≤ b)
  | items s, v => v.elements.all fun e => validate s e
  | property name s, v => (v.field name).all fun e => validate s e
  | required names, v => v.hasAll names
  | ifThen c t, v => !validate c v || validate t v

@[simp] theorem validate_allOf (l : List Schema) (v : Json) :
    (allOf l).validate v = l.all fun s => s.validate v := by
  induction l with
  | nil => rfl
  | cons s l ih => rw [allOf, validate, ih, List.all_cons]

end Schema

open Schema

/-- A level of the schema: a number from 10 to 180. -/
def levelSchema : Schema := allOf [type .number, minimum 10, maximum 180]

/-- The schema of `global.json`. -/
def globalSchema : Schema := allOf [
  type .object,
  property "noise" any,
  property "mode" (enum ["avg", "raw"]),
  property "coordX" (type .number),
  property "coordY" (type .number),
  ifThen (property "mode" (const "avg")) (property "noise" levelSchema),
  ifThen (property "mode" (const "raw"))
    (property "noise" (allOf [type .array, items levelSchema])),
  required ["noise", "coordX", "coordY", "mode"]]

@[simp] theorem validate_level_num (q : ℚ) :
    levelSchema.validate (.num q) = true ↔ 10 ≤ q ∧ q ≤ 180 := by
  simp [levelSchema, validate, Json.kind, Json.number?]

section Measure

variable (x y : ℚ)

/-- An average is accepted exactly when it is a level. -/
theorem validate_avg (q : ℚ) :
    globalSchema.validate (.obj [("noise", .num q), ("mode", .str "avg"), ("coordX", .num x),
      ("coordY", .num y)]) = true ↔ 10 ≤ q ∧ q ≤ 180 := by
  simp [globalSchema, validate, Json.kind, Json.field, Json.string?, Json.hasAll,
    List.lookup_cons]

/-- Raw values are accepted exactly when all of them are levels. -/
theorem validate_raw (l : List Json) :
    globalSchema.validate (.obj [("noise", .arr l), ("mode", .str "raw"), ("coordX", .num x),
      ("coordY", .num y)]) = true ↔ ∀ v ∈ l, levelSchema.validate v = true := by
  simp [globalSchema, validate, Json.kind, Json.field, Json.string?, Json.hasAll, Json.elements,
    List.lookup_cons]

end Measure

/-- What the schema says of a measure: coordinates, and one level or an array of levels as the
mode says. -/
structure ValidMeasure (v : Json) (x y : ℚ) (noises : List ℚ) : Prop where
  coordX : v.field "coordX" = some (.num x)
  coordY : v.field "coordY" = some (.num y)
  noise :
    (v.field "mode" = some (.str "avg") ∧ ∃ q, v.field "noise" = some (.num q) ∧ noises = [q]) ∨
    (v.field "mode" = some (.str "raw") ∧ v.field "noise" = some (.arr (noises.map .num)))
  level : ∀ q ∈ noises, 10 ≤ q ∧ q ≤ 180

/-- A level is a number from 10 to 180. -/
theorem validate_level {v : Json} :
    levelSchema.validate v = true ↔ ∃ q, v = .num q ∧ 10 ≤ q ∧ q ≤ 180 := by
  cases v with
  | num q => simp
  | _ => simp [levelSchema, validate, Json.kind]

theorem validate_levels {l : List Json} :
    (∀ v ∈ l, levelSchema.validate v = true) ↔
      ∃ noises : List ℚ, l = noises.map .num ∧ ∀ q ∈ noises, 10 ≤ q ∧ q ≤ 180 := by
  induction l with
  | nil => simp
  | cons v l ih =>
    rw [List.forall_mem_cons, ih, validate_level]
    constructor
    · rintro ⟨⟨q, rfl, hq⟩, noises, rfl, hl⟩
      exact ⟨q :: noises, rfl, List.forall_mem_cons.mpr ⟨hq, hl⟩⟩
    · rintro ⟨_ | ⟨q, noises⟩, he, hl⟩
      · simp at he
      · rw [List.map_cons, List.cons.injEq] at he
        obtain ⟨hq, hl⟩ := List.forall_mem_cons.mp hl
        exact ⟨⟨q, he.1, hq⟩, noises, he.2, hl⟩

/-- The modes that the schema admits. -/
theorem mode_of_enum {v : Json} (h : (v.string?.any fun s => ["avg", "raw"].contains s) = true) :
    v = .str "avg" ∨ v = .str "raw" := by
  cases v with
  | str s => simpa [Json.string?] using h
  | _ => simp [Json.string?] at h

theorem kind_eq_number {v : Json} : v.kind = .number ↔ ∃ q, v = .num q := by
  cases v <;> simp [Json.kind]

theorem kind_eq_array {v : Json} : v.kind = .array ↔ ∃ l, v = .arr l := by
  cases v <;> simp [Json.kind]

theorem kind_eq_object {v : Json} : v.kind = .object ↔ ∃ fields, v = .obj fields := by
  cases v <;> simp [Json.kind]

/-- The schema in terms of the four properties that it requires. -/
theorem validate_properties {v : Json} :
    globalSchema.validate v = true ↔
      (∃ x, v.field "coordX" = some (.num x)) ∧ (∃ y, v.field "coordY" = some (.num y)) ∧
      ((v.field "mode" = some (.str "avg") ∧
        ∃ noise, v.field "noise" = some noise ∧ levelSchema.validate noise = true) ∨
      (v.field "mode" = some (.str "raw") ∧
        ∃ l, v.field "noise" = some (.arr l) ∧ ∀ e ∈ l, levelSchema.validate e = true)) := by
  constructor
  · intro h
    simp only [globalSchema, validate_allOf, List.all_cons, List.all_nil, validate,
      Bool.and_eq_true, decide_eq_true_eq] at h
    obtain ⟨hkind, -, hmode, hx, hy, havg, hraw, hall, -⟩ := h
    obtain ⟨fields, rfl⟩ := kind_eq_object.mp hkind
    simp only [Json.hasAll, List.all_cons, List.all_nil, Bool.and_eq_true,
      Option.isSome_iff_exists] at hall
    obtain ⟨⟨noise, hn⟩, ⟨x, hx'⟩, ⟨y, hy'⟩, ⟨mode, hm⟩, -⟩ := hall
    simp only [Json.field, hn, hx', hy', hm, Option.all_some, decide_eq_true_eq,
      Option.some.injEq] at hmode hx hy havg hraw ⊢
    refine ⟨kind_eq_number.mp hx, kind_eq_number.mp hy, ?_⟩
    rcases mode_of_enum hmode with rfl | rfl
    · left
      refine ⟨rfl, noise, rfl, ?_⟩
      simpa [Json.string?] using havg
    · right
      have hlevels : noise.kind = .array ∧ ∀ e ∈ noise.elements, levelSchema.validate e = true := by
        simpa [Json.string?] using hraw
      obtain ⟨l, rfl⟩ := kind_eq_array.mp hlevels.1
      exact ⟨rfl, l, rfl, hlevels.2⟩
  · rintro ⟨⟨x, hx⟩, ⟨y, hy⟩, h⟩
    cases v with
    | obj fields =>
      simp only [Json.field] at hx hy h
      rcases h with ⟨hm, noise, hn, hlevel⟩ | ⟨hm, l, hn, hlevel⟩
      · simp [globalSchema, validate, Json.kind, Json.field, Json.string?, Json.hasAll, hx, hy,
          hm, hn, hlevel]
      · simpa [globalSchema, validate, Json.kind, Json.field, Json.string?, Json.hasAll,
          Json.elements, hx, hy, hm, hn] using hlevel
    | _ => simp [Json.field] at hx

/-- The schema accepts exactly the valid measures. -/
theorem validate_iff {v : Json} :
    globalSchema.validate v = true ↔ ∃ x y noises, ValidMeasure v x y noises := by
  rw [validate_properties]
  constructor
  · rintro ⟨⟨x, hx⟩, ⟨y, hy⟩, ⟨hm, noise, hn, hlevel⟩ | ⟨hm, l, hn, hlevels⟩⟩
    · obtain ⟨q, rfl, hq⟩ := validate_level.mp hlevel
      exact ⟨x, y, [q], hx, hy, .inl ⟨hm, q, hn, rfl⟩, by simpa using hq⟩
    · obtain ⟨noises, rfl, hl⟩ := validate_levels.mp hlevels
      exact ⟨x, y, noises, hx, hy, .inr ⟨hm, hn⟩, hl⟩
  · rintro ⟨x, y, noises, hx, hy, ⟨hm, q, hn, rfl⟩ | ⟨hm, hn⟩, hlevel⟩
    · have hq : 10 ≤ q ∧ q ≤ 180 := by simpa using hlevel
      exact ⟨⟨x, hx⟩, ⟨y, hy⟩, .inl ⟨hm, _, hn, validate_level.mpr ⟨q, rfl, hq⟩⟩⟩
    · exact ⟨⟨x, hx⟩, ⟨y, hy⟩, .inr ⟨hm, _, hn, validate_levels.mpr ⟨noises, rfl, hlevel⟩⟩⟩

end NoiseLevel.Backend
