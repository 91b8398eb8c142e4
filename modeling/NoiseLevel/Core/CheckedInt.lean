import Mathlib.Algebra.Order.Ring.Int

/-!
# Checked arithmetic of 32-bit integers

The operators of `int` with no result where the language defines none: on an overflow and
on a division by zero. Every operator is specified by the exact integer result.
-/

namespace NoiseLevel.Core

/-- `INT_MAX`. -/
def intMax : ℤ := 2147483647

/-- The values of an `int`. -/
def IsInt (a : ℤ) : Prop := -intMax - 1 ≤ a ∧ a ≤ intMax

instance (a : ℤ) : Decidable (IsInt a) := inferInstanceAs (Decidable (_ ∧ _))

/-- An exact result, if it is an `int`. -/
def toInt (a : ℤ) : Option ℤ := if IsInt a then some a else none

/-- `a + b`. -/
def addInt (a b : ℤ) : Option ℤ := toInt (a + b)

/-- `a - b`. -/
def subInt (a b : ℤ) : Option ℤ := toInt (a - b)

/-- `a * b`. -/
def mulInt (a b : ℤ) : Option ℤ := toInt (a * b)

/-- `-a`. -/
def negInt (a : ℤ) : Option ℤ := toInt (-a)

/-- `a / b`, which truncates. -/
def divInt (a b : ℤ) : Option ℤ := if b = 0 then none else toInt (a.tdiv b)

/-- `a % b`, which has no result where `a / b` has none. -/
def modInt (a b : ℤ) : Option ℤ := (divInt a b).map fun _ => a.tmod b

/-- The number of elements of an allocation. -/
def elements (count : ℤ) : Option ℕ := if 0 ≤ count then some count.toNat else none

variable {a b c : ℤ}

/-- A result is defined when it is an `int`, and then it is exact. -/
@[simp] theorem toInt_eq_some_iff : toInt a = some c ↔ IsInt a ∧ a = c := by
  unfold toInt
  split_ifs with h <;> simp [h]

/-- A sum is defined when it is an `int`. -/
@[simp] theorem addInt_eq_some_iff : addInt a b = some c ↔ IsInt (a + b) ∧ a + b = c :=
  toInt_eq_some_iff

/-- A difference is defined when it is an `int`. -/
@[simp] theorem subInt_eq_some_iff : subInt a b = some c ↔ IsInt (a - b) ∧ a - b = c :=
  toInt_eq_some_iff

/-- A product is defined when it is an `int`. -/
@[simp] theorem mulInt_eq_some_iff : mulInt a b = some c ↔ IsInt (a * b) ∧ a * b = c :=
  toInt_eq_some_iff

/-- A negation is defined when it is an `int`. -/
@[simp] theorem negInt_eq_some_iff : negInt a = some c ↔ IsInt (-a) ∧ -a = c :=
  toInt_eq_some_iff

/-- A quotient needs a divisor other than zero, and overflows for `INT_MIN / -1`. -/
theorem divInt_eq_some_iff :
    divInt a b = some c ↔ b ≠ 0 ∧ IsInt (a.tdiv b) ∧ a.tdiv b = c := by
  unfold divInt
  split_ifs with h <;> simp [h]

/-- A remainder is defined when the quotient is. -/
theorem modInt_eq_some_iff :
    modInt a b = some c ↔ b ≠ 0 ∧ IsInt (a.tdiv b) ∧ a.tmod b = c := by
  simp only [modInt, Option.map_eq_some_iff, divInt_eq_some_iff]
  constructor
  · rintro ⟨_, ⟨hb, hint, -⟩, rfl⟩
    exact ⟨hb, hint, rfl⟩
  · rintro ⟨hb, hint, rfl⟩
    exact ⟨_, ⟨hb, hint, rfl⟩, rfl⟩

/-- An array can have any number of elements that is not negative. -/
@[simp] theorem elements_eq_some_iff {n : ℕ} : elements a = some n ↔ 0 ≤ a ∧ a.toNat = n := by
  unfold elements
  split_ifs with h <;> simp [h]

/-- For a number that is not negative only the upper bound counts. -/
theorem IsInt.of_nonneg (ha : 0 ≤ a) (h : a ≤ intMax) : IsInt a := by
  unfold IsInt intMax at *
  omega

/-- The last index of a range is an `int` if its length is. -/
theorem IsInt.sub_one (h : IsInt a) (ha : 0 ≤ a) : IsInt (a - 1) := by
  unfold IsInt intMax at *
  omega

/-- A quotient of a nonnegative `int` is one. -/
theorem IsInt.tdiv (ha : 0 ≤ a) (h : a ≤ intMax) (b : ℤ) : IsInt (a.tdiv b) := by
  have habs : (a.tdiv b).natAbs ≤ a.natAbs := by
    rw [Int.natAbs_tdiv]
    exact Nat.div_le_self _ _
  unfold IsInt
  omega

/-- Nonnegative values are divided by everything but zero. -/
theorem divInt_eq_some_iff_of_nonneg (ha : 0 ≤ a) (h : a ≤ intMax) :
    divInt a b = some c ↔ b ≠ 0 ∧ a.tdiv b = c := by
  rw [divInt_eq_some_iff, and_iff_right (IsInt.tdiv ha h b)]

/-- The remainder of a number that is not negative cannot overflow. -/
theorem modInt_eq_some_iff_of_nonneg (ha : 0 ≤ a) (h : a ≤ intMax) :
    modInt a b = some c ↔ b ≠ 0 ∧ a.tmod b = c := by
  rw [modInt_eq_some_iff, and_iff_right (IsInt.tdiv ha h b)]

end NoiseLevel.Core
