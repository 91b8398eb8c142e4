import NoiseLevel.Core.Decibel

/-!
# Folding rounded levels, in one list or in parts

Zero stands for silence. A fold of positive levels never falls when sources are added,
and it stays within ten decibels of its largest level. Folding parts of a list in its
order and then their results is therefore at most ten decibels away from its fold.
-/

namespace NoiseLevel.Core

/-- Rounded addition of levels with silence as its identity. -/
def levelSum (a b : ℤ) : ℤ := if a = 0 then b else if b = 0 then a else decibelSum a b

/-- The level of a list of sources, folded from silence in order. -/
def levelFold (l : List ℤ) : ℤ := l.foldl levelSum 0

/-- The sum does not depend on the order of its operands. -/
theorem decibelSum_comm (a b : ℤ) : decibelSum a b = decibelSum b a := by
  rw [decibelSum, decibelSum, max_comm, ← Int.natAbs_neg, neg_sub]

/-- The louder level rises by the gain of the difference. -/
theorem decibelSum_eq {a b : ℤ} (h : b ≤ a) : decibelSum a b = a + gain (a - b).natAbs := by
  rw [decibelSum, max_eq_left h]

/-- The sum is no quieter than its first operand. -/
theorem le_decibelSum_left (a b : ℤ) : a ≤ decibelSum a b := by
  have := gain_nonneg (a - b).natAbs
  have := le_max_left a b
  unfold decibelSum
  omega

/-- The sum is no quieter than its second operand. -/
theorem le_decibelSum_right (a b : ℤ) : b ≤ decibelSum a b := by
  rw [decibelSum_comm]
  exact le_decibelSum_left b a

/-- One decibel more on one side never lowers the sum. -/
theorem decibelSum_le_succ (a b : ℤ) : decibelSum a b ≤ decibelSum (a + 1) b := by
  rcases le_or_gt b a with h | h
  · have hd : (a + 1 - b).natAbs = (a - b).natAbs + 1 := by omega
    have := gain_le_succ (a - b).natAbs
    rw [decibelSum_eq h, decibelSum_eq (by omega), hd]
    omega
  · have hg : gain (b - a).natAbs ≤ gain (b - (a + 1)).natAbs := gain_antitone (by omega)
    rw [decibelSum_comm a, decibelSum_comm (a + 1), decibelSum_eq (le_of_lt h),
      decibelSum_eq (show a + 1 ≤ b by omega)]
    omega

/-- The sum is monotone in its first operand. -/
theorem decibelSum_mono_left {a a' : ℤ} (h : a ≤ a') (b : ℤ) :
    decibelSum a b ≤ decibelSum a' b := by
  obtain ⟨n, rfl⟩ := Int.le.dest h
  induction n with
  | zero => simp
  | succ n ih =>
    refine (ih (by omega)).trans ?_
    have := decibelSum_le_succ (a + n) b
    push_cast
    rwa [← add_assoc]

/-- The sum is monotone. -/
theorem decibelSum_mono {a a' b b' : ℤ} (ha : a ≤ a') (hb : b ≤ b') :
    decibelSum a b ≤ decibelSum a' b' := by
  refine (decibelSum_mono_left ha b).trans ?_
  rw [decibelSum_comm a' b, decibelSum_comm a' b']
  exact decibelSum_mono_left hb a'

/-- Silence adds nothing. -/
@[simp] theorem levelSum_zero_left (b : ℤ) : levelSum 0 b = b := rfl

/-- Positive levels are summed in decibels. -/
theorem levelSum_eq {a b : ℤ} (ha : 0 < a) (hb : 0 < b) : levelSum a b = decibelSum a b := by
  rw [levelSum, if_neg ha.ne', if_neg hb.ne']

/-- Level sums do not depend on the order of their operands. -/
theorem levelSum_comm (a b : ℤ) : levelSum a b = levelSum b a := by
  unfold levelSum
  split_ifs with ha hb
  · rw [ha, hb]
  · rfl
  · rfl
  · exact decibelSum_comm a b

/-- A level sum is no quieter than its first operand. -/
theorem le_levelSum_left {a b : ℤ} (hb : 0 ≤ b) : a ≤ levelSum a b := by
  unfold levelSum
  split_ifs with h
  · omega
  · exact le_rfl
  · exact le_decibelSum_left a b

/-- A level sum is no quieter than its second operand. -/
theorem le_levelSum_right {a b : ℤ} (ha : 0 ≤ a) : b ≤ levelSum a b := by
  rw [levelSum_comm]
  exact le_levelSum_left ha

/-- Sums of levels are levels. -/
theorem levelSum_nonneg {a b : ℤ} (ha : 0 ≤ a) (hb : 0 ≤ b) : 0 ≤ levelSum a b :=
  ha.trans (le_levelSum_left hb)

/-- A louder accumulator gives a louder sum, also where one of the accumulators is silent. -/
theorem levelSum_mono_left {a b x : ℤ} (ha : 0 ≤ a) (hab : a ≤ b) (hx : 0 < x) :
    levelSum a x ≤ levelSum b x := by
  rcases ha.eq_or_lt with rfl | ha
  · exact le_levelSum_right hab
  · rw [levelSum_eq ha hx, levelSum_eq (ha.trans_le hab) hx]
    exact decibelSum_mono_left hab x

/-- A level added to itself and some decibels. -/
theorem levelSum_add_self {m : ℤ} (hm : 0 < m) (d : ℕ) : levelSum (m + d) m = m + d + gain d := by
  rw [levelSum_eq (by omega) hm, decibelSum_eq (by omega), add_sub_cancel_left, Int.natAbs_natCast]

/-- Upper bounds for the operands bound the level sum by their decibel sum. -/
theorem levelSum_le {a b x y : ℤ} (ha : a ≤ x) (hb : b ≤ y) : levelSum a b ≤ decibelSum x y := by
  unfold levelSum
  split_ifs
  · exact hb.trans (le_decibelSum_right x y)
  · exact ha.trans (le_decibelSum_left x y)
  · exact decibelSum_mono ha hb

/-- Fold invariant over nonnegative levels. -/
theorem levelFold_nonneg_from {l : List ℤ} (hl : ∀ x ∈ l, 0 ≤ x) {a : ℤ} (ha : 0 ≤ a) :
    0 ≤ l.foldl levelSum a := by
  induction l generalizing a with
  | nil => exact ha
  | cons x l ih =>
    exact ih (fun y hy => hl y (List.mem_cons_of_mem x hy))
      (levelSum_nonneg ha (hl x (List.mem_cons_self ..)))

/-- A fold of levels is a level. -/
theorem levelFold_nonneg {l : List ℤ} (hl : ∀ x ∈ l, 0 ≤ x) : 0 ≤ levelFold l :=
  levelFold_nonneg_from hl le_rfl

/-- A fold is no quieter than its start. -/
theorem le_foldl_levelSum {l : List ℤ} (hl : ∀ x ∈ l, 0 ≤ x) (a : ℤ) :
    a ≤ l.foldl levelSum a := by
  induction l generalizing a with
  | nil => exact le_rfl
  | cons x l ih =>
    exact (le_levelSum_left (hl x (List.mem_cons_self ..))).trans
      (ih (fun y hy => hl y (List.mem_cons_of_mem x hy)) _)

/-- Fewer sources from a quieter start give a quieter fold. -/
theorem foldl_levelSum_sublist {l l' : List ℤ} (h : l.Sublist l') (hl : ∀ x ∈ l', 0 < x)
    {a b : ℤ} (ha : 0 ≤ a) (hab : a ≤ b) : l.foldl levelSum a ≤ l'.foldl levelSum b := by
  induction h generalizing a b with
  | slnil => exact hab
  | cons x _ ih =>
    obtain ⟨hx, hrest⟩ := List.forall_mem_cons.mp hl
    exact ih hrest ha (hab.trans (le_levelSum_left hx.le))
  | cons_cons x _ ih =>
    obtain ⟨hx, hrest⟩ := List.forall_mem_cons.mp hl
    exact ih hrest (levelSum_nonneg ha hx.le) (levelSum_mono_left ha hab hx)

/-- A part of the sources is no louder than all of them. -/
theorem levelFold_sublist {l l' : List ℤ} (h : l.Sublist l') (hl : ∀ x ∈ l', 0 < x) :
    levelFold l ≤ levelFold l' := foldl_levelSum_sublist h hl le_rfl le_rfl

/-- No source is louder than the fold. -/
theorem mem_le_foldl {l : List ℤ} (hl : ∀ x ∈ l, 0 ≤ x) {a x : ℤ} (ha : 0 ≤ a) (hx : x ∈ l) :
    x ≤ l.foldl levelSum a := by
  induction l generalizing a with
  | nil => cases hx
  | cons y l ih =>
    have hy := hl y (List.mem_cons_self ..)
    have hrest : ∀ z ∈ l, 0 ≤ z := fun z hz => hl z (List.mem_cons_of_mem y hz)
    rcases List.mem_cons.mp hx with rfl | hx
    · exact (le_levelSum_right ha).trans (le_foldl_levelSum hrest _)
    · exact ih hrest (levelSum_nonneg ha hy) hx

/-- No source is louder than the fold from silence. -/
theorem mem_le_levelFold {l : List ℤ} (hl : ∀ x ∈ l, 0 ≤ x) {x : ℤ} (hx : x ∈ l) :
    x ≤ levelFold l := mem_le_foldl hl le_rfl hx

/-- A fold never exceeds its largest level by more than ten decibels. -/
theorem foldl_le_add_ten {l : List ℤ} {m a : ℤ} (hl : ∀ x ∈ l, x ≤ m) (ha : a ≤ m + 10) :
    l.foldl levelSum a ≤ m + 10 := by
  induction l generalizing a with
  | nil => exact ha
  | cons x l ih =>
    refine ih (fun y hy => hl y (List.mem_cons_of_mem x hy)) ?_
    have h := levelSum_le ha (hl x (List.mem_cons_self ..))
    rw [decibelSum_eq (by omega), show (m + 10 - m).natAbs = 10 by omega] at h
    simpa [gain] using h

/-- Eight sources of one level reach the bound, and further ones leave it there. -/
theorem foldl_replicate {m : ℤ} (hm : 0 < m) {n : ℕ} (hn : 8 ≤ n) :
    (List.replicate n m).foldl levelSum 0 = m + 10 := by
  induction n, hn using Nat.le_induction with
  | base =>
    have hstep : ∀ d e : ℕ, (d : ℤ) + gain d = e → levelSum (m + d) m = m + e := by
      intro d e he
      rw [levelSum_add_self hm, add_assoc, he]
    have hfirst : levelSum 0 m = m + (0 : ℕ) := (add_zero m).symm
    simp only [List.replicate, List.foldl_cons, List.foldl_nil]
    rw [hfirst, hstep 0 3 rfl, hstep 3 5 rfl, hstep 5 6 rfl, hstep 6 7 rfl, hstep 7 8 rfl,
      hstep 8 9 rfl, hstep 9 10 rfl]
    rfl
  | succ n _ ih =>
    rw [List.replicate_succ', List.foldl_append, ih]
    exact (levelSum_add_self hm 10).trans (add_zero _)

/-- Folding parts of a list and then their results exceeds the fold of the list by at most ten
decibels. -/
theorem foldl_parts_le {l : List ℤ} {parts : List (List ℤ)} (hl : ∀ x ∈ l, 0 < x)
    (hsub : ∀ part ∈ parts, part.Sublist l) :
    (parts.map levelFold).foldl levelSum 0 ≤ levelFold l + 10 := by
  have hle : ∀ level ∈ parts.map levelFold, level ≤ levelFold l := by
    intro level hlevel
    obtain ⟨part, hpart, rfl⟩ := List.mem_map.mp hlevel
    exact levelFold_sublist (hsub part hpart) hl
  have hnonneg := levelFold_nonneg fun x hx => (hl x hx).le
  exact foldl_le_add_ten hle (by omega)

/-- Parts that cover a list lose at most ten decibels. -/
theorem le_foldl_parts {l : List ℤ} {parts : List (List ℤ)}
    (hparts : ∀ part ∈ parts, ∀ x ∈ part, 0 ≤ x) (hcover : ∀ x ∈ l, ∃ part ∈ parts, x ∈ part) :
    levelFold l ≤ (parts.map levelFold).foldl levelSum 0 + 10 := by
  have hlevels : ∀ level ∈ parts.map levelFold, 0 ≤ level := by
    intro level hlevel
    obtain ⟨part, hpart, rfl⟩ := List.mem_map.mp hlevel
    exact levelFold_nonneg (hparts part hpart)
  have hle : ∀ x ∈ l, x ≤ (parts.map levelFold).foldl levelSum 0 := by
    intro x hx
    obtain ⟨part, hpart, hmem⟩ := hcover x hx
    exact (mem_le_levelFold (hparts part hpart) hmem).trans
      (mem_le_foldl hlevels le_rfl (List.mem_map_of_mem hpart))
  have hnonneg := levelFold_nonneg_from hlevels le_rfl
  exact foldl_le_add_ten hle (by omega)

end NoiseLevel.Core
