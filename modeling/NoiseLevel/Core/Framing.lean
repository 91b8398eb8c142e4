import Mathlib.Data.List.Flatten
import Mathlib.Data.List.Infix

/-!
# Reading values from a growing stream

A reader takes one value from the front of a stream or waits for more of it. What it has
read does not depend on what arrives later, so a writer and a reader of the same stream
agree on the values as far as the stream has come.
-/

namespace NoiseLevel.Core

/-- A reader of values, which more of the stream never makes take anything back. -/
structure Reader (α β : Type*) where
  /-- The value at the front and the rest of the stream. -/
  read : List β → Option (α × List β)
  read_nil : read [] = none
  read_append {bytes : List β} {v : α} {rest : List β} (h : read bytes = some (v, rest))
    (more : List β) : read (bytes ++ more) = some (v, rest ++ more)

namespace Reader

variable {α β γ : Type*} (R : Reader α β)

/-- Values read one after the other from a stream, and what is left of it. -/
inductive Reads : List β → List α → List β → Prop where
  | nil (bytes : List β) : Reads bytes [] bytes
  | cons {bytes rest last : List β} {v : α} {vs : List α} (h : R.read bytes = some (v, rest))
      (hrest : Reads rest vs last) : Reads bytes (v :: vs) last

variable {R}

/-- More of the stream is left over. -/
theorem Reads.append_right {bytes last : List β} {vs : List α} (h : R.Reads bytes vs last)
    (more : List β) : R.Reads (bytes ++ more) vs (last ++ more) := by
  induction h with
  | nil => exact Reads.nil _
  | cons hread _ ih => exact Reads.cons (R.read_append hread more) ih

/-- Of a stream that is read to its end, every other reading is a first part. -/
theorem Reads.isPrefix {bytes last : List β} {vs ws : List α} (h : R.Reads bytes vs [])
    (k : R.Reads bytes ws last) : ws <+: vs := by
  induction k generalizing vs with
  | nil => exact List.nil_prefix
  | cons hread _ ih =>
    cases h with
    | nil => exact absurd hread (by rw [R.read_nil]; exact nofun)
    | cons hread' hrest =>
      obtain ⟨rfl, rfl⟩ := Prod.mk.inj (Option.some.inj (hread'.symm.trans hread))
      exact List.cons_prefix_cons.mpr ⟨rfl, ih hrest⟩

/-- Values that are each read back are read back one after the other. -/
theorem reads_flatMap {enc : γ → List β} {dec : γ → α} {xs : List γ}
    (h : ∀ x ∈ xs, ∀ rest, R.read (enc x ++ rest) = some (dec x, rest)) (rest : List β) :
    R.Reads (xs.flatMap enc ++ rest) (xs.map dec) rest := by
  induction xs with
  | nil => exact Reads.nil rest
  | cons x xs ih =>
    obtain ⟨hx, hxs⟩ := List.forall_mem_cons.mp h
    rw [List.flatMap_cons, List.append_assoc]
    exact Reads.cons (hx _) (ih hxs)

/-- What is read before the stream is complete is a first part of what is written. -/
theorem Reads.isPrefix_of_append {received pending last : List β} {vs ws : List α}
    (h : R.Reads (received ++ pending) vs []) (k : R.Reads received ws last) : ws <+: vs :=
  h.isPrefix (k.append_right pending)

end Reader

end NoiseLevel.Core
