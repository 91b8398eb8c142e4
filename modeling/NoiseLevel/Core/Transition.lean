import Mathlib.Logic.Relation
import Mathlib.Data.List.Basic

/-!
# Labelled transition systems and their runs

A system is a labelled step relation. Runs record their labels in order, so that
an invariant may speak about the history as well as the current state. Conditions
on single steps restrict the system instead of the statement, and a refinement
map transports whole runs, reading silent steps as no step at all.
-/

namespace NoiseLevel.Core

/-- A labelled step relation. -/
structure System (σ α : Type*) where
  /-- One step from a state, under its label. -/
  step : σ → α → σ → Prop

namespace System

variable {σ α τ β : Type*}

/-- A finite run together with its labels, oldest first. -/
inductive Run (T : System σ α) : σ → List α → σ → Prop where
  | nil (s : σ) : Run T s [] s
  | snoc {s t u : σ} {as : List α} {a : α} (h : Run T s as t) (hs : T.step t a u) :
      Run T s (as ++ [a]) u

/-- Some run leads from the first state to the second. -/
def Reaches (T : System σ α) (s t : σ) : Prop := ∃ as, T.Run s as t

/-- Every state reaches itself. -/
theorem Reaches.refl (T : System σ α) (s : σ) : T.Reaches s s := ⟨[], Run.nil s⟩

/-- One more step reaches the next state. -/
theorem Reaches.snoc {T : System σ α} {s t u : σ} {a : α} (h : T.Reaches s t)
    (hs : T.step t a u) : T.Reaches s u :=
  h.elim fun as hr => ⟨as ++ [a], hr.snoc hs⟩

/-- A step reaches its target. -/
theorem Reaches.single {T : System σ α} {s t : σ} {a : α} (hs : T.step s a t) :
    T.Reaches s t := (Reaches.refl T s).snoc hs

/-- Runs compose, and so do their labels. -/
theorem Run.append {T : System σ α} {s t u : σ} {as bs : List α} (h : T.Run s as t)
    (k : T.Run t bs u) : T.Run s (as ++ bs) u := by
  induction k with
  | nil => simpa only [List.append_nil] using h
  | snoc _ hs ih => simpa only [List.append_assoc] using ih.snoc hs

/-- Reaching is transitive. -/
theorem Reaches.trans {T : System σ α} {s t u : σ} (h : T.Reaches s t)
    (k : T.Reaches t u) : T.Reaches s u := by
  obtain ⟨as, ha⟩ := h
  obtain ⟨bs, hb⟩ := k
  exact ⟨as ++ bs, ha.append hb⟩

/-- A property of history and state that holds at the start and survives every
step holds at the end of every run. -/
theorem Run.invariant {T : System σ α} {s t : σ} {as : List α} (h : T.Run s as t)
    (I : List α → σ → Prop) (h0 : I [] s)
    (hstep : ∀ as t a u, T.Run s as t → I as t → T.step t a u → I (as ++ [a]) u) :
    I as t := by
  induction h with
  | nil => exact h0
  | snoc hr hs ih => exact hstep _ _ _ _ hr ih hs

/-- The state-only form of the invariant rule. -/
theorem Reaches.invariant {T : System σ α} {s t : σ} (h : T.Reaches s t) (I : σ → Prop)
    (h0 : I s) (hstep : ∀ t a u, I t → T.step t a u → I u) : I t := by
  obtain ⟨as, hr⟩ := h
  exact hr.invariant (fun _ => I) h0 fun _ t a u _ hi hs => hstep t a u hi hs

/-- The same system with every step required to meet a condition on its source
state and label. -/
def restrict (T : System σ α) (P : σ → α → Prop) : System σ α where
  step s a t := T.step s a t ∧ P s a

/-- A restricted run is a run. -/
theorem Run.of_restrict {T : System σ α} {P : σ → α → Prop} {s t : σ} {as : List α}
    (h : (T.restrict P).Run s as t) : T.Run s as t := by
  induction h with
  | nil => exact Run.nil _
  | snoc _ hs ih => exact ih.snoc hs.1

/-- A condition on steps may be weakened. -/
theorem Run.restrict_mono {T : System σ α} {P Q : σ → α → Prop} {s t : σ} {as : List α}
    (h : (T.restrict P).Run s as t) (hPQ : ∀ s a, P s a → Q s a) : (T.restrict Q).Run s as t := by
  induction h with
  | nil => exact Run.nil _
  | snoc _ hs ih => exact ih.snoc ⟨hs.1, hPQ _ _ hs.2⟩

/-- A run meets a condition on labels if all its labels do. -/
theorem Run.restrict_labels {T : System σ α} {P : α → Prop} {s t : σ} {as : List α}
    (h : T.Run s as t) (hP : ∀ a ∈ as, P a) : (T.restrict fun _ => P).Run s as t := by
  induction h with
  | nil => exact Run.nil _
  | snoc _ hs ih =>
    obtain ⟨hbefore, hlast⟩ := List.forall_mem_append.mp hP
    exact (ih hbefore).snoc ⟨hs, hlast _ (List.mem_singleton_self _)⟩

/-- What is reached under a condition is reached. -/
theorem Reaches.of_restrict {T : System σ α} {P : σ → α → Prop} {s t : σ}
    (h : (T.restrict P).Reaches s t) : T.Reaches s t :=
  h.elim fun as hr => ⟨as, hr.of_restrict⟩

/-- A refinement map: every concrete step is an abstract step with the mapped
label, or leaves the abstract state alone when its label is silent. -/
structure Refines (T : System σ α) (U : System τ β) (inv : σ → Prop) (abs : σ → τ)
    (label : α → Option β) : Prop where
  /-- The concrete invariant that the map relies on. -/
  inv_step : ∀ s a t, inv s → T.step s a t → inv t
  /-- A visible label is one abstract step. -/
  visible : ∀ s a t b, inv s → T.step s a t → label a = some b → U.step (abs s) b (abs t)
  /-- A silent label changes nothing abstract. -/
  silent : ∀ s a t, inv s → T.step s a t → label a = none → abs t = abs s

/-- A refinement map carries whole runs, erasing silent labels. -/
theorem Refines.run {T : System σ α} {U : System τ β} {inv : σ → Prop} {abs : σ → τ}
    {label : α → Option β} (h : T.Refines U inv abs label) {s t : σ} {as : List α}
    (hr : T.Run s as t) (hs : inv s) :
    inv t ∧ U.Run (abs s) (as.filterMap label) (abs t) := by
  induction hr with
  | nil => exact ⟨hs, Run.nil _⟩
  | @snoc t u as a _ hstep ih =>
    obtain ⟨hi, hu⟩ := ih
    refine ⟨h.inv_step _ _ _ hi hstep, ?_⟩
    cases hl : label a with
    | none =>
      rw [h.silent _ _ _ hi hstep hl]
      simpa [List.filterMap_append, hl] using hu
    | some b =>
      simpa [List.filterMap_append, hl] using hu.snoc (h.visible _ _ _ b hi hstep hl)

/-- If every abstract step from the image of a state is the effect of some concrete
run, whole abstract runs lift. -/
theorem Run.lift {T : System σ α} {U : System τ β} {inv : σ → Prop} {abs : σ → τ}
    (hstep : ∀ s b t, inv s → U.step (abs s) b t → ∃ s', T.Reaches s s' ∧ inv s' ∧ abs s' = t)
    {s : σ} (hs : inv s) {bs : List β} {t : τ} (hr : U.Run (abs s) bs t) :
    ∃ s', T.Reaches s s' ∧ inv s' ∧ abs s' = t := by
  induction hr with
  | nil => exact ⟨s, Reaches.refl T s, hs, rfl⟩
  | snoc _ hlast ih =>
    obtain ⟨s', hr', hi', rfl⟩ := ih
    obtain ⟨u, hu, hiu, rfl⟩ := hstep s' _ _ hi' hlast
    exact ⟨u, hr'.trans hu, hiu, rfl⟩

end System

end NoiseLevel.Core
