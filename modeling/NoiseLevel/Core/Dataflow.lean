import NoiseLevel.Core.Transition
import Mathlib.Algebra.BigOperators.Group.Multiset.Basic
import Mathlib.Tactic.Abel

/-!
# Tokens on their way through a network

A token that is handled is replaced by its successors. Tokens arrive at any time and are handled
in any order. An account assigns to a token what it gains when it is handled and what it is worth
with everything that comes of it: the books balance in every run, whatever the order is.
-/

namespace NoiseLevel.Core

/-- What happens to a token. -/
inductive Traffic (τ : Type*) where
  | arrive (t : τ)
  | handle (t : τ)

namespace Traffic

variable {τ : Type*}

/-- The token that arrives in an event. -/
def arrived : Traffic τ → Multiset τ
  | arrive t => {t}
  | handle _ => 0

/-- The token that is handled in an event. -/
def handled : Traffic τ → Multiset τ
  | arrive _ => 0
  | handle t => {t}

/-- The tokens that arrive in a run. -/
def arrivals (as : List (Traffic τ)) : Multiset τ := (as.map arrived).sum

/-- The tokens that are handled in a run. -/
def visits (as : List (Traffic τ)) : Multiset τ := (as.map handled).sum

/-- Nothing arrives in an empty run. -/
@[simp] theorem arrivals_nil : arrivals ([] : List (Traffic τ)) = 0 := rfl

/-- Nothing is handled in an empty run. -/
@[simp] theorem visits_nil : visits ([] : List (Traffic τ)) = 0 := rfl

/-- The arrivals of one event. -/
@[simp] theorem arrivals_singleton (a : Traffic τ) : arrivals [a] = a.arrived := by
  simp [arrivals]

/-- The visits of one event. -/
@[simp] theorem visits_singleton (a : Traffic τ) : visits [a] = a.handled := by
  simp [visits]

/-- The arrivals of two parts of a run. -/
@[simp] theorem arrivals_append (as bs : List (Traffic τ)) :
    arrivals (as ++ bs) = arrivals as + arrivals bs := by
  simp [arrivals]

/-- The visits of two parts of a run. -/
@[simp] theorem visits_append (as bs : List (Traffic τ)) :
    visits (as ++ bs) = visits as + visits bs := by
  simp [visits]

end Traffic

open Traffic

section Network

variable {τ M : Type*} (next : τ → Multiset τ)

/-- The tokens on their way. -/
def network : System (Multiset τ) (Traffic τ) where
  step s a s' := match a with
    | .arrive t => s' = t ::ₘ s
    | .handle t => ∃ rest, s = t ::ₘ rest ∧ s' = next t + rest

/-- What tokens gain, and what they are worth. -/
structure Account [AddCommMonoid M] (gain : τ → M) where
  worth : τ → M
  worth_eq : ∀ t, worth t = gain t + ((next t).map worth).sum

namespace Account

variable {next} [AddCommMonoid M] {gain : τ → M} (A : Account next gain)

/-- The worth of some tokens. -/
def total (s : Multiset τ) : M := (s.map A.worth).sum

/-- No tokens are worth nothing. -/
@[simp] theorem total_zero : A.total 0 = 0 := rfl

/-- One token more adds its worth. -/
@[simp] theorem total_cons (t : τ) (s : Multiset τ) :
    A.total (t ::ₘ s) = A.worth t + A.total s := by
  simp [total]

/-- Worths add up. -/
@[simp] theorem total_add (s s' : Multiset τ) : A.total (s + s') = A.total s + A.total s' := by
  simp [total]

/-- What the handled tokens gain and what those on their way are worth is what all tokens were
worth when they arrived. -/
theorem balance {s s' : Multiset τ} {as : List (Traffic τ)} (hr : (network next).Run s as s') :
    ((visits as).map gain).sum + A.total s' = A.total s + A.total (arrivals as) := by
  refine hr.invariant (fun as s' => ((visits as).map gain).sum + A.total s' =
    A.total s + A.total (arrivals as)) (by simp) fun as s' a s'' _ ih hs => ?_
  cases a with
  | arrive t =>
    obtain rfl : s'' = t ::ₘ s' := hs
    have harrive : A.total (arrivals (as ++ [.arrive t])) =
        A.total (arrivals as) + A.worth t := by
      simp [Traffic.arrived, total]
    rw [harrive, ← add_assoc, ← ih, visits_append, visits_singleton, total_cons]
    simp only [Traffic.handled, add_zero]
    abel
  | handle t =>
    obtain ⟨rest, rfl, rfl⟩ := hs
    have hvisit : ((visits (as ++ [.handle t])).map gain).sum =
        ((visits as).map gain).sum + gain t := by
      simp [Traffic.handled]
    rw [hvisit, arrivals_append, arrivals_singleton, total_add]
    simp only [Traffic.arrived, add_zero]
    rw [← ih, total_cons, A.worth_eq t, total]
    abel

end Account

/-- An account that counts the visits shows that the tokens on their way can be handled until
none is left. -/
theorem reaches_zero (A : Account next fun _ => 1) (s : Multiset τ) :
    ((network next).restrict fun _ a => a.arrived = 0).Reaches s 0 := by
  induction hn : A.total s using Nat.strong_induction_on generalizing s with
  | _ n ih =>
    rcases s.empty_or_exists_mem with rfl | ⟨t, ht⟩
    · exact System.Reaches.refl _ _
    · obtain ⟨rest, rfl⟩ := Multiset.exists_cons_of_mem ht
      have hlt : A.total (next t + rest) < n := by
        have ht := A.worth_eq t
        rw [← hn, A.total_add, A.total_cons, ht, Account.total]
        omega
      have hstep : ((network next).restrict fun _ a => a.arrived = 0).step (t ::ₘ rest)
          (.handle t) (next t + rest) := ⟨⟨rest, rfl, rfl⟩, rfl⟩
      exact (System.Reaches.single hstep).trans (ih _ hlt (next t + rest) rfl)

end Network

end NoiseLevel.Core
