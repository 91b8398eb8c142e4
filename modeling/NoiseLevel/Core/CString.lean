import Mathlib.Data.List.TakeWhile
import Mathlib.Tactic

/-!
# Strings in character buffers

Strings end at a terminator. `strncpy` fills a field and may leave no room for one;
`snprintf` keeps room for it and reports what it had to write.
-/

namespace NoiseLevel.Core

/-- The terminator of C. -/
def nulChar : Char := Char.ofNat 0

variable {α : Type*} [DecidableEq α] (nul : α)

/-- The string at the start of a buffer, if it ends inside the buffer. -/
def cString (buffer : List α) : Option (List α) :=
  if nul ∈ buffer then some (buffer.takeWhile fun c => c ≠ nul) else none

/-- The characters that `strncpy` writes. -/
def strncpy (n : ℕ) (src : List α) : List α :=
  src.take n ++ List.replicate (n - src.length) nul

omit [DecidableEq α] in
/-- `snprintf` of a formatted text: the length that it reports, and the string it leaves in a
buffer of the given size. -/
def snprintf (size : ℕ) (text : List α) : ℕ × List α := (text.length, text.take (size - 1))

omit [DecidableEq α] in
/-- `strcat` to a string in a buffer of the given size, which has no result when it writes past
the end of the buffer. -/
def strcat (size : ℕ) (dest src : List α) : Option (List α) :=
  if dest.length + src.length < size then some (dest ++ src) else none

variable {nul}

omit [DecidableEq α] in
/-- Strings that fit together are joined one after the other. -/
theorem foldlM_strcat {size : ℕ} {pieces : List (List α)} {dest : List α}
    (h : dest.length + pieces.flatten.length < size) :
    pieces.foldlM (strcat size) dest = some (dest ++ pieces.flatten) := by
  induction pieces generalizing dest with
  | nil => simp
  | cons piece pieces ih =>
    rw [List.flatten_cons, List.length_append] at h
    rw [List.foldlM_cons, strcat, if_pos (by omega)]
    refine (ih (by rw [List.length_append]; omega)).trans ?_
    rw [List.flatten_cons, List.append_assoc]

omit [DecidableEq α] in
/-- A text that fits is left as it is. -/
theorem snprintf_of_lt {size : ℕ} {text : List α} (h : text.length < size) :
    snprintf size text = (text.length, text) := by
  rw [snprintf, List.take_of_length_le (by omega)]

omit [DecidableEq α] in
@[simp] theorem length_strncpy (n : ℕ) (src : List α) : (strncpy nul n src).length = n := by
  rw [strncpy, List.length_append, List.length_take, List.length_replicate]
  omega

/-- A terminated string is read back. -/
theorem cString_append {s : List α} (h : nul ∉ s) (rest : List α) :
    cString nul (s ++ nul :: rest) = some s := by
  have hall : ∀ c ∈ s, decide (c ≠ nul) = true := fun c hc => by
    simpa using ne_of_mem_of_not_mem hc h
  rw [cString, if_pos (by simp), List.takeWhile_append_of_pos hall]
  simp

/-- A string that is read back leaves room for its terminator. -/
theorem length_lt_of_cString {buffer s : List α} (h : cString nul buffer = some s) :
    s.length < buffer.length := by
  rw [cString] at h
  split_ifs at h with hmem
  obtain rfl := Option.some.inj h
  refine lt_of_le_of_ne (List.takeWhile_prefix _).length_le fun heq => ?_
  have hall := List.IsPrefix.eq_of_length (List.takeWhile_prefix fun c => decide (c ≠ nul)) heq
  rw [← hall] at hmem
  simpa using List.mem_takeWhile_imp hmem

theorem cString_eq_none {s : List α} (h : nul ∉ s) : cString nul s = none := if_neg h

/-- A string survives `strncpy` exactly when there is room for its terminator. -/
theorem cString_strncpy_iff {n : ℕ} {src : List α} (h : nul ∉ src) :
    cString nul (strncpy nul n src) = some src ↔ src.length < n := by
  rw [strncpy]
  constructor
  · intro hread
    by_contra hlong
    have hnone : nul ∉ src.take n := fun hmem => h (List.mem_of_mem_take hmem)
    rw [show n - src.length = 0 by omega, List.replicate_zero, List.append_nil,
      cString_eq_none hnone] at hread
    cases hread
  · intro hshort
    obtain ⟨k, hk⟩ : ∃ k, n - src.length = k + 1 := ⟨n - src.length - 1, by omega⟩
    rw [List.take_of_length_le (by omega), hk, List.replicate_succ, cString_append h]

/-- A string that fills its field runs into what follows. -/
theorem cString_strncpy_append {n : ℕ} {src : List α} (h : nul ∉ src) (hlong : n ≤ src.length)
    {next : List α} (hnext : nul ∉ next) (rest : List α) :
    cString nul (strncpy nul n src ++ (next ++ nul :: rest)) = some (src.take n ++ next) := by
  have hboth : nul ∉ src.take n ++ next := fun hmem =>
    (List.mem_append.mp hmem).elim (fun hl => h (List.mem_of_mem_take hl)) hnext
  rw [strncpy, show n - src.length = 0 by omega, List.replicate_zero, List.append_nil,
    ← List.append_assoc, cString_append hboth]

end NoiseLevel.Core
