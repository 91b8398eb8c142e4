import Mathlib.Algebra.Order.Field.Basic
import Mathlib.Tactic.Linarith
import Mathlib.Data.List.Basic

/-!
# The first row of an ordered table

A database puts rows in the order of a key and leaves open which of the rows with equal keys
come first. The first row has a least key. When the key is only near to a measure, the row
has a measure that is near to the least.
-/

namespace NoiseLevel.Core

/-- A way to put rows in the order of a key. -/
structure RowOrder (β : Type) [LinearOrder β] where
  sort {α : Type} (key : α → β) (rows : List α) : List α
  perm {α : Type} (key : α → β) (rows : List α) : (sort key rows).Perm rows
  sorted {α : Type} (key : α → β) (rows : List α) :
    (sort key rows).Pairwise fun a b => key a ≤ key b

namespace RowOrder

variable {α β : Type}

section LinearOrder

variable [LinearOrder β]

/-- The order that keeps rows with equal keys as they stood. -/
def stable : RowOrder β where
  sort key rows := rows.mergeSort fun a b => decide (key a ≤ key b)
  perm key rows := List.mergeSort_perm rows _
  sorted key rows := by
    have htrans : ∀ a b c, decide (key a ≤ key b) = true → decide (key b ≤ key c) = true →
        decide (key a ≤ key c) = true := by
      intro a b c hab hbc
      simp only [decide_eq_true_eq] at hab hbc ⊢
      exact hab.trans hbc
    have htotal : ∀ a b, (decide (key a ≤ key b) || decide (key b ≤ key a)) = true := by
      intro a b
      simpa only [Bool.or_eq_true, decide_eq_true_eq] using le_total (key a) (key b)
    simpa only [decide_eq_true_eq] using List.pairwise_mergeSort htrans htotal rows

variable (order : RowOrder β) (key : α → β) (rows : List α)

/-- The first of the ordered rows. -/
def first : Option α := (order.sort key rows).head?

variable {order key rows}

theorem first_eq_none_iff : order.first key rows = none ↔ rows = [] := by
  rw [first, List.head?_eq_none_iff]
  constructor
  · intro h
    have hp := order.perm key rows
    rw [h] at hp
    exact hp.nil_eq.symm
  · rintro rfl
    exact (order.perm key []).eq_nil

theorem mem_of_first {a : α} (h : order.first key rows = some a) : a ∈ rows :=
  (order.perm key rows).subset (List.mem_of_head? h)

/-- The first row has a least key. -/
theorem key_le_of_first {a b : α} (h : order.first key rows = some a) (hb : b ∈ rows) :
    key a ≤ key b := by
  have hs := order.sorted key rows
  obtain ⟨tail, ht⟩ := List.head?_eq_some_iff.mp h
  rw [ht] at hs
  have hm : b ∈ a :: tail := by
    rw [← ht]
    exact (order.perm key rows).symm.subset hb
  rcases List.mem_cons.mp hm with rfl | hm
  · exact le_refl _
  · exact (List.pairwise_cons.mp hs).1 b hm

end LinearOrder

/-- When keys are within `ε` of a measure, the first row measures at most `2ε` more than the
others. -/
theorem measure_le_of_first {β' : Type} [LinearOrder β] [Field β'] [LinearOrder β']
    [IsStrictOrderedRing β'] {order : RowOrder β} {key : α → β} {rows : List α} {cast : β → β'}
    (mono : Monotone cast) {measure : α → β'} {ε : β'}
    (near : ∀ a ∈ rows, |cast (key a) - measure a| ≤ ε) {a b : α}
    (h : order.first key rows = some a) (hb : b ∈ rows) : measure a ≤ measure b + 2 * ε := by
  have hk := mono (key_le_of_first h hb)
  have ha := (abs_le.mp (near a (mem_of_first h))).1
  have hb := (abs_le.mp (near b hb)).2
  linarith

end RowOrder

end NoiseLevel.Core
