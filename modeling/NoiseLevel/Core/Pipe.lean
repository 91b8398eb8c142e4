import NoiseLevel.Core.Transition

/-!
# A pipe

What goes in at one end of a pipe comes out at the other in the same order, neither lost
nor doubled. What waits in between may be of any length, and the writer may take back what
it put in last while it still waits.
-/

namespace NoiseLevel.Core

/-- What has come out of a pipe, and what is still in it. -/
structure Pipe (α : Type*) where
  received : List α
  waiting : List α

/-- Something is put in at the end or taken back from there, or comes out at the front. -/
inductive PipeStep (α : Type*) where
  | put (xs : List α)
  | withdraw (xs : List α)
  | deliver (xs : List α)

namespace Pipe

variable {α : Type*}

/-- All that was put in and not taken back. -/
def sent (p : Pipe α) : List α := p.received ++ p.waiting

/-- What has been put in after a step. -/
def enter (sent : List α) : PipeStep α → List α
  | .put xs => sent ++ xs
  | .withdraw xs => sent.take (sent.length - xs.length)
  | .deliver _ => sent

/-- The steps of a pipe. -/
inductive Step : Pipe α → PipeStep α → Pipe α → Prop where
  | put (p : Pipe α) (xs : List α) : Step p (.put xs) ⟨p.received, p.waiting ++ xs⟩
  | withdraw (received rest xs : List α) :
      Step ⟨received, rest ++ xs⟩ (.withdraw xs) ⟨received, rest⟩
  | deliver (received xs rest : List α) :
      Step ⟨received, xs ++ rest⟩ (.deliver xs) ⟨received ++ xs, rest⟩

/-- The runs of a pipe. -/
def system : System (Pipe α) (PipeStep α) := ⟨Step⟩

/-- What is taken back was put in last. -/
theorem enter_withdraw (sent xs : List α) : enter (sent ++ xs) (.withdraw xs) = sent := by
  rw [enter, List.length_append, Nat.add_sub_cancel, List.take_left]

theorem Step.sent_eq {p q : Pipe α} {a : PipeStep α} (h : Step p a q) :
    q.sent = enter p.sent a := by
  cases h with
  | put xs => exact (List.append_assoc _ _ _).symm
  | withdraw received rest xs =>
    rw [sent, sent, ← List.append_assoc]
    exact (enter_withdraw _ xs).symm
  | deliver received xs rest => exact List.append_assoc _ _ _

/-- What comes out was at the front. -/
theorem Step.waiting_eq {p q : Pipe α} {xs : List α} (h : Step p (.deliver xs) q) :
    p.waiting = xs ++ q.waiting := by
  cases h with
  | deliver => rfl

/-- What was put in follows from the steps alone. -/
theorem sent_eq_of_run {p q : Pipe α} {as : List (PipeStep α)} (h : system.Run p as q) :
    q.sent = as.foldl enter p.sent := by
  induction h with
  | nil => rfl
  | snoc _ hs ih => rw [Step.sent_eq hs, ih, List.foldl_append, List.foldl_cons, List.foldl_nil]

end Pipe

end NoiseLevel.Core
