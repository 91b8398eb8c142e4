import Mathlib.Data.List.Basic
import Mathlib.Tactic

/-!
# Copying inside one buffer

`memcpy` between two places of one buffer. C leaves the result open where the areas overlap,
so the routine is a parameter, and what a program relies on is a condition on it. A routine
that copies one byte after the other from the front meets the condition for copies towards
the front.
-/

namespace NoiseLevel.Core

variable {α : Type*}

/-- A buffer to which elements from elsewhere were copied, from a place on. -/
def overwrite (buffer : List α) (pos : ℕ) (data : List α) : List α :=
  buffer.take pos ++ data ++ buffer.drop (pos + data.length)

@[simp] theorem length_overwrite {buffer data : List α} {pos : ℕ}
    (h : pos + data.length ≤ buffer.length) :
    (overwrite buffer pos data).length = buffer.length := by
  rw [overwrite, List.length_append, List.length_append, List.length_take, List.length_drop]
  omega

/-- What is copied stands behind what was there before it. -/
theorem take_overwrite {buffer data : List α} {pos : ℕ} (h : pos ≤ buffer.length) :
    (overwrite buffer pos data).take (pos + data.length) = buffer.take pos ++ data := by
  have hlength : (buffer.take pos ++ data).length = pos + data.length := by
    rw [List.length_append, List.length_take, min_eq_left h]
  rw [overwrite, ← hlength, List.take_left']
  rfl

/-- A buffer is copied onto itself. -/
theorem overwrite_take (buffer : List α) (n : ℕ) : overwrite buffer 0 (buffer.take n) = buffer := by
  rw [overwrite, List.take_zero, List.nil_append, Nat.zero_add, List.length_take]
  rcases le_total n buffer.length with h | h
  · rw [min_eq_left h, List.take_append_drop]
  · rw [min_eq_right h, List.take_of_length_le h, List.drop_length, List.append_nil]

/-- One element is written before the others. -/
theorem overwrite_cons {buffer : List α} {pos : ℕ} (h : pos < buffer.length) (a : α)
    (data : List α) :
    overwrite (buffer.set pos a) (pos + 1) data = overwrite buffer pos (a :: data) := by
  have hfront : (buffer.set pos a).take (pos + 1) = buffer.take pos ++ [a] := by
    rw [List.take_succ_eq_append_getElem (by rwa [List.length_set]), List.take_set_of_le le_rfl,
      List.getElem_set_self]
  have hback : (buffer.set pos a).drop (pos + 1 + data.length) =
      buffer.drop (pos + (a :: data).length) := by
    rw [List.drop_set_of_lt (by omega), List.length_cons, Nat.add_assoc, Nat.add_comm 1]
  rw [overwrite, overwrite, hfront, hback, List.append_assoc (buffer.take pos)]
  rfl

/-- `memcpy` inside one buffer: what the buffer holds afterwards, given the place to copy to, the
place to copy from and the number of elements. -/
abbrev Memcpy (α : Type*) := List α → ℕ → ℕ → ℕ → List α

/-- What is copied towards the front arrives, also where the areas overlap. -/
def Memcpy.CopiesDown (memcpy : Memcpy α) : Prop :=
  ∀ buffer dest src n, dest ≤ src → src + n ≤ buffer.length →
    memcpy buffer dest src n = overwrite buffer dest ((buffer.drop src).take n)

section CopiesDown

variable {memcpy : Memcpy α} (h : memcpy.CopiesDown) {buffer : List α} {n : ℕ}
include h

/-- The buffer is moved to the front, and its end stays where it is as well. -/
theorem Memcpy.CopiesDown.move_front (hn : n ≤ buffer.length) :
    memcpy buffer 0 n (buffer.length - n) =
      buffer.drop n ++ buffer.drop (buffer.length - n) := by
  have hall : (buffer.drop n).take (buffer.length - n) = buffer.drop n := by
    rw [← List.length_drop, List.take_length]
  rw [h _ _ _ _ (Nat.zero_le n) (by omega), hall, overwrite, List.take_zero, List.nil_append,
    Nat.zero_add, List.length_drop]

/-- Moving to the front does not change the size of the buffer. -/
theorem Memcpy.CopiesDown.length_move_front (hn : n ≤ buffer.length) :
    (memcpy buffer 0 n (buffer.length - n)).length = buffer.length := by
  rw [h.move_front hn, List.length_append, List.length_drop, List.length_drop]
  omega

/-- Moving by nothing changes nothing. -/
theorem Memcpy.CopiesDown.move_front_zero :
    memcpy buffer 0 0 (buffer.length - 0) = buffer := by
  rw [h.move_front (Nat.zero_le _), List.drop_zero, Nat.sub_zero, List.drop_length,
    List.append_nil]

end CopiesDown

/-- A routine that copies one element after the other, the first one first. -/
def copyForward : Memcpy α
  | buffer, _, _, 0 => buffer
  | buffer, dest, src, n + 1 =>
    match buffer[src]? with
    | none => buffer
    | some a => copyForward (buffer.set dest a) (dest + 1) (src + 1) n

/-- What was copied is behind when it is overwritten. -/
theorem copiesDown_copyForward : Memcpy.CopiesDown (copyForward (α := α)) := by
  intro buffer dest src n hle hlen
  induction n generalizing buffer dest src with
  | zero => simp [copyForward, overwrite]
  | succ n ih =>
    have hsrc : src < buffer.length := by omega
    have hrest : (buffer.set dest buffer[src]).drop (src + 1) = buffer.drop (src + 1) :=
      List.drop_set_of_lt (by omega)
    rw [copyForward, List.getElem?_eq_getElem hsrc]
    dsimp only
    rw [ih _ _ _ (Nat.succ_le_succ hle) (by rw [List.length_set]; omega), hrest,
      overwrite_cons (by omega), List.drop_eq_getElem_cons hsrc, List.take_succ_cons]

end NoiseLevel.Core
