import NoiseLevel.Core.EnergyLevel

/-!
# Half a decibel for every sum, in any grouping

Sums of sums round more than once on the way, but a level that was made of so many sources
by rounded sums has always taken one sum less than it has sources. Each costs at most half a
decibel, whatever was summed first.
-/

namespace NoiseLevel.Core

/-- The energy of a list of levels. -/
noncomputable def energyOf (l : List ℤ) : ℝ := (l.map fun a : ℤ => energy a).sum

/-- Silence has no energy. -/
@[simp] theorem energyOf_nil : energyOf [] = 0 := rfl

/-- The energies of two lists add up. -/
theorem energyOf_append (l l' : List ℤ) : energyOf (l ++ l') = energyOf l + energyOf l' := by
  rw [energyOf, List.map_append, List.sum_append]
  rfl

/-- The order of the levels does not matter. -/
theorem energyOf_perm {l l' : List ℤ} (h : l.Perm l') : energyOf l = energyOf l' :=
  (h.map _).sum_eq

/-- Some level has some energy. -/
theorem energyOf_pos {l : List ℤ} (h : l ≠ []) : 0 < energyOf l := by
  apply List.sum_pos
  · intro e he
    obtain ⟨x, -, rfl⟩ := List.mem_map.mp he
    exact energy_pos x
  · simpa using h

/-- A level is that of some sources up to half a decibel for each of some sums. -/
def HalfSteps (n : ℕ) (a : ℤ) (s : ℝ) : Prop :=
  energy a ≤ halfStep ^ n * s ∧ s ≤ halfStep ^ n * energy a

/-- More half steps allow more. -/
theorem HalfSteps.mono {m n : ℕ} {a : ℤ} {s : ℝ} (h : HalfSteps m a s) (hs : 0 ≤ s)
    (hmn : m ≤ n) : HalfSteps n a s := by
  have hpow : halfStep ^ m ≤ halfStep ^ n := pow_le_pow_right₀ one_le_halfStep hmn
  have ha := energy_pos a
  exact ⟨h.1.trans (by gcongr), h.2.trans (by gcongr)⟩

/-- Two levels are summed with one more rounding. -/
theorem HalfSteps.merge {m n : ℕ} {a b : ℤ} {s t : ℝ} (h : HalfSteps m a s)
    (k : HalfSteps n b t) (hs : 0 < s) (ht : 0 < t) :
    HalfSteps (m + n + 1) (decibelSum a b) (s + t) := by
  have hh := halfStep_pos
  obtain ⟨hle, hge⟩ := h.mono hs.le (Nat.le_add_right m n)
  obtain ⟨kle, kge⟩ := k.mono ht.le (Nat.le_add_left n m)
  constructor
  · calc energy (decibelSum a b) ≤ halfStep * (energy a + energy b) := energy_decibelSum_le a b
      _ ≤ halfStep * (halfStep ^ (m + n) * s + halfStep ^ (m + n) * t) := by gcongr
      _ = halfStep ^ (m + n + 1) * (s + t) := by ring
  · calc s + t ≤ halfStep ^ (m + n) * energy a + halfStep ^ (m + n) * energy b := by gcongr
      _ = halfStep ^ (m + n) * (energy a + energy b) := by ring
      _ ≤ halfStep ^ (m + n) * (halfStep * energy (decibelSum a b)) := by
          gcongr
          exact le_energy_decibelSum a b
      _ = halfStep ^ (m + n + 1) * energy (decibelSum a b) := by ring

/-- A level that rounded sums have made of a list of sources: silence of none, and otherwise a
positive level with one sum less than there are sources. -/
structure Summed (l : List ℤ) (a : ℤ) : Prop where
  silent : l = [] → a = 0
  positive : l ≠ [] → 0 < a
  close : l ≠ [] → HalfSteps (l.length - 1) a (energyOf l)

/-- Nothing sums up to silence. -/
theorem summed_nil : Summed [] 0 := ⟨fun _ => rfl, fun h => absurd rfl h, fun h => absurd rfl h⟩

/-- One level is its own sum. -/
theorem summed_singleton {x : ℤ} (hx : 0 < x) : Summed [x] x where
  silent h := absurd h (List.cons_ne_nil _ _)
  positive _ := hx
  close _ := by simp [HalfSteps, energyOf]

/-- Two summed levels are summed. -/
theorem Summed.append {l l' : List ℤ} {a b : ℤ} (h : Summed l a) (k : Summed l' b) :
    Summed (l ++ l') (levelSum a b) := by
  rcases eq_or_ne l [] with rfl | hl
  · rwa [h.silent rfl, levelSum_zero_left]
  rcases eq_or_ne l' [] with rfl | hl'
  · rwa [k.silent rfl, levelSum_comm, levelSum_zero_left, List.append_nil]
  have ha := h.positive hl
  have hb := k.positive hl'
  have hne : l ++ l' ≠ [] := fun he => hl (List.append_eq_nil_iff.mp he).1
  refine ⟨fun he => absurd he hne, fun _ => ?_, fun _ => ?_⟩
  · rw [levelSum_eq ha hb]
    exact ha.trans_le (le_decibelSum_left a b)
  · have hlen := List.length_pos_of_ne_nil hl
    have hlen' := List.length_pos_of_ne_nil hl'
    have hmerge := (h.close hl).merge (k.close hl') (energyOf_pos hl) (energyOf_pos hl')
    rw [levelSum_eq ha hb, energyOf_append, List.length_append]
    rwa [show l.length + l'.length - 1 = l.length - 1 + (l'.length - 1) + 1 by omega]

/-- Some more groups of sources, each of them summed before, are summed in their order. -/
theorem Summed.foldl {groups : List (List ℤ)} {level : List ℤ → ℤ}
    (hg : ∀ g ∈ groups, Summed g (level g)) {l : List ℤ} {a : ℤ} (h : Summed l a) :
    Summed (l ++ groups.flatten) ((groups.map level).foldl levelSum a) := by
  induction groups generalizing l a with
  | nil => simpa using h
  | cons g groups ih =>
    have hnext := ih (fun g' hg' => hg g' (List.mem_cons_of_mem g hg'))
      (h.append (hg g List.mem_cons_self))
    simpa using hnext

/-- A fold of positive levels is summed. -/
theorem summed_levelFold {l : List ℤ} (hl : ∀ x ∈ l, 0 < x) : Summed l (levelFold l) := by
  have hg : ∀ g ∈ l.map fun x => [x], Summed g (g.headD 0) := by
    intro g hg
    obtain ⟨x, hx, rfl⟩ := List.mem_map.mp hg
    exact summed_singleton (hl x hx)
  have hheads : (l.map fun x => [x]).map (fun g : List ℤ => g.headD 0) = l := by
    simp [Function.comp_def]
  have hflat : (l.map fun x => [x]).flatten = l := by
    rw [← List.flatMap_def, List.flatMap_singleton']
  have h := summed_nil.foldl hg
  rwa [hflat, hheads, List.nil_append] at h

/-- The order of the levels does not matter. -/
theorem Summed.perm {l l' : List ℤ} {a : ℤ} (h : Summed l a) (hp : l.Perm l') : Summed l' a where
  silent he := h.silent (by rwa [he, List.perm_nil] at hp)
  positive hne := h.positive fun he => hne (by rwa [he, List.nil_perm] at hp)
  close hne := by
    rw [← hp.length_eq, ← energyOf_perm hp]
    exact h.close fun he => hne (by rwa [he, List.nil_perm] at hp)

/-- The error of a summed level in decibels. -/
theorem Summed.abs_error_le {l : List ℤ} {a : ℤ} (h : Summed l a) (hne : l ≠ []) :
    |(a : ℝ) - energyLevel l| ≤ (l.length - 1 : ℝ) / 2 := by
  have hpos := energyOf_pos hne
  have hlen : ((l.length - 1 : ℕ) : ℝ) = l.length - 1 := by
    rw [Nat.cast_sub (List.length_pos_of_ne_nil hne), Nat.cast_one]
  obtain ⟨hle, hge⟩ := h.close hne
  rw [abs_le, energyLevel, ← hlen]
  constructor
  · have hlevel := (level_le_iff hpos (((l.length - 1 : ℕ) : ℝ) / 2 + a)).mpr (by
      rwa [energy_add, energy_half])
    rw [energyOf] at hlevel
    linarith
  · have hlevel := (le_level_iff hpos (a - ((l.length - 1 : ℕ) : ℝ) / 2)).mpr (by
      refine le_of_mul_le_mul_left ?_ (pow_pos halfStep_pos (l.length - 1))
      rw [← energy_half, ← energy_add, add_sub_cancel, energy_half]
      exact hle)
    rw [energyOf] at hlevel
    linarith

end NoiseLevel.Core
