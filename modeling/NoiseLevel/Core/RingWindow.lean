import Mathlib.Algebra.BigOperators.Fin
import Mathlib.Data.List.GetD
import Mathlib.Data.List.Rotate
import Mathlib.Data.Nat.ModEq

/-!
# Windows overwritten in circular order

A window has a fixed number of slots and the index that is written next. After any
history each of the latest values sits at its own index modulo the size, and the
slots that were never reached keep the initial value.
-/

namespace NoiseLevel.Core

/-- A fixed number of slots and the index that is written next. -/
structure RingWindow (α : Type*) (k : ℕ) where
  /-- The stored values. -/
  slots : Fin k → α
  /-- The slot that the next value overwrites. -/
  position : Fin k
deriving DecidableEq

namespace RingWindow

variable {α : Type*} {k : ℕ}

/-- Every slot holds the same value and the first one is written next. -/
def blank (k : ℕ) [NeZero k] (z : α) : RingWindow α k where
  slots _ := z
  position := 0

/-- Write the current slot. -/
def store (w : RingWindow α k) (a : α) : RingWindow α k :=
  { w with slots := Function.update w.slots w.position a }

/-- Move to the next slot, circularly. -/
def advance (w : RingWindow α k) : RingWindow α k :=
  { w with position := ⟨(w.position + 1) % k, Nat.mod_lt _ w.position.pos⟩ }

/-- Write the current slot and move on. -/
def push (w : RingWindow α k) (a : α) : RingWindow α k := (w.store a).advance

/-- Write a whole history. -/
def pushes (w : RingWindow α k) (l : List α) : RingWindow α k := l.foldl push w

@[simp] theorem slots_push (w : RingWindow α k) (a : α) :
    (w.push a).slots = Function.update w.slots w.position a := rfl

@[simp] theorem position_push (w : RingWindow α k) (a : α) :
    ((w.push a).position : ℕ) = (w.position + 1) % k := rfl

@[simp] theorem pushes_nil (w : RingWindow α k) : w.pushes [] = w := rfl

theorem pushes_append_singleton (w : RingWindow α k) (l : List α) (a : α) :
    w.pushes (l ++ [a]) = (w.pushes l).push a := by
  rw [pushes, List.foldl_append]
  rfl

/-- Two indices less than the size apart have different slots. -/
theorem mod_ne_mod {m n : ℕ} (hmn : m < n) (hn : n < m + k) : m % k ≠ n % k := by
  intro h
  have hd : k ∣ n - m := (Nat.modEq_iff_dvd' hmn.le).mp h
  exact Nat.not_dvd_of_pos_of_lt (Nat.sub_pos_of_lt hmn) (Nat.sub_lt_left_of_lt_add hmn.le hn) hd

variable [NeZero k] {z : α}

/-- The position counts the history modulo the size. -/
theorem position_pushes (l : List α) : (((blank k z).pushes l).position : ℕ) = l.length % k := by
  induction l using List.reverseRecOn with
  | nil => rw [pushes_nil, List.length_nil, Nat.zero_mod]; rfl
  | append_singleton l a ih =>
    rw [pushes_append_singleton, position_push, ih, List.length_append, List.length_singleton,
      Nat.mod_add_mod]

/-- The position is the slot of the next index. -/
theorem position_pushes_eq (l : List α) :
    ((blank k z).pushes l).position = Fin.ofNat k l.length :=
  Fin.ext (position_pushes l)

/-- Each of the latest values sits at its own index modulo the size. -/
theorem slots_pushes {l : List α} {m : ℕ} (hm : m < l.length) (hk : l.length ≤ m + k) :
    ((blank k z).pushes l).slots (Fin.ofNat k m) = l[m] := by
  induction l using List.reverseRecOn with
  | nil => exact absurd hm (Nat.not_lt_zero m)
  | append_singleton l a ih =>
    have hlen : (l ++ [a]).length = l.length + 1 := List.length_append
    rw [hlen] at hk
    rw [pushes_append_singleton, slots_push, position_pushes_eq]
    rcases Nat.lt_succ_iff_lt_or_eq.mp (hlen ▸ hm) with h | rfl
    · have hne : Fin.ofNat k m ≠ Fin.ofNat k l.length := fun he =>
        mod_ne_mod h (Nat.lt_of_succ_le hk) (congrArg Fin.val he)
      rw [Function.update_of_ne hne, ih h (Nat.le_of_succ_le hk), List.getElem_append_left h]
    · rw [Function.update_self, List.getElem_concat_length rfl]

/-- A slot that the history never reached keeps the initial value. -/
theorem slots_pushes_blank {l : List α} {j : Fin k} (hj : l.length ≤ j) :
    ((blank k z).pushes l).slots j = z := by
  induction l using List.reverseRecOn with
  | nil => rfl
  | append_singleton l a ih =>
    rw [List.length_append, List.length_singleton] at hj
    have hne : j ≠ Fin.ofNat k l.length := by
      intro he
      have hv := congrArg Fin.val he
      rw [Fin.val_ofNat, Nat.mod_eq_of_lt ((Nat.lt_of_succ_le hj).trans j.isLt)] at hv
      exact (Nat.lt_of_succ_le hj).ne' hv
    rw [pushes_append_singleton, slots_push, position_pushes_eq, Function.update_of_ne hne]
    exact ih (Nat.le_of_succ_le hj)

/-- Before the window is full its slots are the history followed by initial values. -/
theorem slots_pushes_short {l : List α} (hl : l.length ≤ k) (j : Fin k) :
    ((blank k z).pushes l).slots j = l.getD j z := by
  rcases lt_or_ge (j : ℕ) l.length with h | h
  · have hs := slots_pushes (z := z) h (hl.trans (Nat.le_add_left k j))
    rw [Fin.ofNat_val_eq_self] at hs
    rw [hs, List.getD_eq_getElem _ _ h]
  · rw [slots_pushes_blank h, List.getD_eq_default _ _ h]

/-- A full window holds values of the history only. -/
theorem slots_pushes_mem {l : List α} (hl : k ≤ l.length) (j : Fin k) :
    ((blank k z).pushes l).slots j ∈ l := by
  have hj := j.isLt
  -- the latest index of the history that falls on the slot
  let m := j + k * ((l.length - 1 - j) / k)
  have hd : k * ((l.length - 1 - j) / k) + (l.length - 1 - j) % k = l.length - 1 - j :=
    Nat.div_add_mod _ k
  have hr : (l.length - 1 - j) % k < k := Nat.mod_lt _ j.pos
  have hm : m < l.length := by simp only [m]; omega
  have he : Fin.ofNat k m = j := Fin.ext <| by
    rw [Fin.val_ofNat, Nat.add_mul_mod_self_left, Nat.mod_eq_of_lt hj]
  have hs := slots_pushes (k := k) (z := z) hm (by simp only [m]; omega)
  rw [he] at hs
  rw [hs]
  exact List.getElem_mem hm

/-- A slot at none of the latest indices was never reached. -/
theorem slots_pushes_of_forall_ne {l : List α} {j : Fin k}
    (hj : ∀ i < min l.length k, (j : ℕ) ≠ (l.length - 1 - i) % k) :
    ((blank k z).pushes l).slots j = z := by
  have hjk := j.isLt
  apply slots_pushes_blank
  by_contra! hlt
  -- the index that falls on the slot in the last round
  have hd := Nat.div_add_mod (l.length - 1 - j) k
  have hr : (l.length - 1 - j) % k < k := Nat.mod_lt _ j.pos
  apply hj ((l.length - 1 - j) % k) (by omega)
  have hi : l.length - 1 - (l.length - 1 - j) % k = j + k * ((l.length - 1 - j) / k) := by omega
  rw [hi, Nat.add_mul_mod_self_left, Nat.mod_eq_of_lt hjk]

/-- A full window, read from its position on, holds the latest values in order. -/
theorem rotate_slots_pushes {l : List α} (hl : k ≤ l.length) :
    (List.ofFn ((blank k z).pushes l).slots).rotate l.length = l.drop (l.length - k) := by
  apply List.ext_getElem
  · rw [List.length_rotate, List.length_ofFn, List.length_drop, Nat.sub_sub_self hl]
  · intro i hi hi'
    rw [List.length_drop, Nat.sub_sub_self hl] at hi'
    rw [List.getElem_rotate, List.getElem_ofFn, List.getElem_drop,
      ← slots_pushes (k := k) (z := z) (m := l.length - k + i) (by omega) (by omega)]
    congr 1
    apply Fin.ext
    have hsum : i + l.length = l.length - k + i + k := by omega
    simp only [List.length_ofFn, Fin.val_ofNat, hsum, Nat.add_mod_right]

/-- Padding a list with zeros does not change its sum. -/
theorem sum_getD [AddCommMonoid α] {l : List α} {n : ℕ} (hl : l.length ≤ n) :
    ∑ j : Fin n, l.getD j 0 = l.sum := by
  induction l generalizing n with
  | nil => simp
  | cons a l ih =>
    cases n with
    | zero => exact absurd hl (Nat.not_succ_le_zero _)
    | succ n =>
      rw [Fin.sum_univ_succ, List.sum_cons, ← ih (Nat.le_of_succ_le_succ hl)]
      rfl

/-- Before the window is full the sum of its slots is the sum of the history. -/
theorem sum_slots_pushes {l : List ℕ} (hl : l.length ≤ k) :
    ∑ j, ((blank k 0).pushes l).slots j = l.sum := by
  simp only [slots_pushes_short hl, sum_getD hl]

end RingWindow

end NoiseLevel.Core
