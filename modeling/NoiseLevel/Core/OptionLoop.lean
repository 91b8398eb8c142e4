import Mathlib.Data.List.Basic

/-!
# Loops of steps that may have no result

A loop in `Option` has a result exactly when every step has one, and it is then the
result of the loop over the steps' values.
-/

namespace NoiseLevel.Core

variable {α β σ : Type*} {l : List α}

section Traversal

variable {f : α → Option β}

/-- A traversal whose steps all have a known result. -/
theorem mapM_eq_some {g : α → β} (h : ∀ a ∈ l, f a = some (g a)) : l.mapM f = some (l.map g) := by
  induction l with
  | nil => rfl
  | cons a l ih =>
    rw [List.mapM_cons, h a List.mem_cons_self, ih fun b hb => h b (List.mem_cons_of_mem a hb)]
    rfl

/-- A traversal has a result exactly when every step has one. -/
theorem isSome_mapM_iff : (l.mapM f).isSome ↔ ∀ a ∈ l, (f a).isSome := by
  induction l with
  | nil => simp
  | cons a l ih =>
    rw [List.forall_mem_cons, ← ih, List.mapM_cons]
    cases f a <;> cases l.mapM f <;> simp

/-- A loop over checks passes exactly when every check does. -/
theorem forM_eq_some_iff {check : α → Option PUnit} {u : PUnit} :
    l.forM check = some u ↔ ∀ a ∈ l, check a = some ⟨⟩ := by
  induction l with
  | nil => simp
  | cons a l ih =>
    rw [List.forall_mem_cons, ← ih]
    exact Option.bind_eq_some_iff.trans ⟨fun ⟨_, ha, hl⟩ => ⟨ha, hl⟩, fun h => ⟨_, h.1, h.2⟩⟩

end Traversal

/-- A loop whose steps have a result or not whatever the state is. -/
theorem foldlM_eq_some_iff {f : σ → α → Option σ} {g : σ → α → σ} {P : α → Prop}
    (h : ∀ a ∈ l, ∀ s t, f s a = some t ↔ P a ∧ g s a = t) (s t : σ) :
    l.foldlM f s = some t ↔ (∀ a ∈ l, P a) ∧ l.foldl g s = t := by
  induction l generalizing s with
  | nil => simp
  | cons a l ih =>
    rw [List.foldlM_cons, List.forall_mem_cons, List.foldl_cons, and_assoc,
      ← ih fun b hb => h b (List.mem_cons_of_mem a hb)]
    simp [Option.bind_eq_some_iff, h a List.mem_cons_self, and_assoc]

/-- A loop whose steps keep an invariant and are defined where it holds. -/
theorem exists_foldlM_range {f : σ → ℕ → Option σ} (inv : ℕ → σ → Prop) {s : σ} {n : ℕ}
    (h0 : inv 0 s) (hstep : ∀ i < n, ∀ s, inv i s → ∃ t, f s i = some t ∧ inv (i + 1) t) :
    ∃ t, (List.range n).foldlM f s = some t ∧ inv n t := by
  induction n with
  | zero => exact ⟨s, rfl, h0⟩
  | succ n ih =>
    obtain ⟨t, ht, hinv⟩ := ih fun i hi => hstep i (by omega)
    obtain ⟨t', ht', hinv'⟩ := hstep n n.lt_succ_self t hinv
    refine ⟨t', ?_, hinv'⟩
    rw [List.range_succ, List.foldlM_append, ht]
    simp [ht']

/-- A loop over an array that rewrites one element after the other. -/
theorem getElem?_foldl_modify (g : ℕ → α → α) (n i : ℕ) :
    ((List.range n).foldl (fun s k => s.modify k (g k)) l)[i]? =
      if i < n then (l[i]?).map (g i) else l[i]? := by
  induction n with
  | zero => simp
  | succ n ih =>
    rw [List.range_succ, List.foldl_append, List.foldl_cons, List.foldl_nil,
      List.getElem?_modify, ih]
    by_cases hi : n = i
    · subst hi
      simp
    · have hiff : i < n + 1 ↔ i < n := by omega
      simp [hi, hiff]

/-- The same loop where a rewriting may have no result: every element is still the original
one when its turn comes. -/
theorem foldlM_set_eq_some_iff {f : ℕ → α → Option α} {g : ℕ → α → α} {P : ℕ → α → Prop}
    (h : ∀ i a b, f i a = some b ↔ P i a ∧ g i a = b) (n : ℕ) (t : List α) :
    (List.range n).foldlM (fun s i => (s[i]?).elim (some s) fun a => (f i a).map (s.set i)) l =
        some t ↔
      (∀ i < n, ∀ a, l[i]? = some a → P i a) ∧
        (List.range n).foldl (fun s i => s.modify i (g i)) l = t := by
  induction n generalizing t with
  | zero => simp
  | succ n ih =>
    have hsame := getElem?_foldl_modify (l := l) g n n
    rw [if_neg (Nat.lt_irrefl n)] at hsame
    have hsplit : (∀ i < n + 1, ∀ a, l[i]? = some a → P i a) ↔
        (∀ i < n, ∀ a, l[i]? = some a → P i a) ∧ ∀ a, l[n]? = some a → P n a := by
      simp only [Nat.lt_succ_iff_lt_or_eq, or_imp, forall_and, forall_eq]
    rw [List.range_succ, List.foldlM_append, List.foldl_append, List.foldl_cons, List.foldl_nil,
      Option.bind_eq_bind, Option.bind_eq_some_iff, hsplit]
    simp only [ih, and_assoc, exists_eq_left', exists_and_left, List.foldlM_cons, List.foldlM_nil,
      bind_pure]
    rw [List.modify_eq_set_getElem?, hsame]
    refine and_congr_right fun _ => ?_
    cases l[n]? with
    | none => simp
    | some a => simp [h]

end NoiseLevel.Core
