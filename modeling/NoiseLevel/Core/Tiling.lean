import Mathlib.Algebra.Order.Ring.Int
import Mathlib.Data.List.Basic

/-!
# Contiguous blocks

A list of blocks, each a start and a length, tiles an interval when every block
starts where the one before it ends. Every position then lies in exactly one block.
-/

namespace NoiseLevel.Core

/-- The blocks follow each other from the first bound to the second. -/
def Tiles : ℤ → List (ℤ × ℤ) → ℤ → Prop
  | lo, [], hi => lo = hi
  | lo, block :: blocks, hi => block.1 = lo ∧ 0 ≤ block.2 ∧ Tiles (lo + block.2) blocks hi

/-- The positions of one block. -/
def InBlock (block : ℤ × ℤ) (g : ℤ) : Prop := block.1 ≤ g ∧ g < block.1 + block.2

namespace Tiles

/-- Blocks do not run backwards. -/
theorem le {lo hi : ℤ} {blocks : List (ℤ × ℤ)} (h : Tiles lo blocks hi) : lo ≤ hi := by
  induction blocks generalizing lo with
  | nil => exact le_of_eq h
  | cons block blocks ih =>
    obtain ⟨_, hc, hrest⟩ := h
    have := ih hrest
    omega

/-- One more block extends a tiling. -/
theorem snoc {lo mid count : ℤ} {blocks : List (ℤ × ℤ)} (h : Tiles lo blocks mid)
    (hc : 0 ≤ count) : Tiles lo (blocks ++ [(mid, count)]) (mid + count) := by
  induction blocks generalizing lo with
  | nil =>
    cases h
    exact ⟨rfl, hc, rfl⟩
  | cons block blocks ih =>
    obtain ⟨hs, hb, hrest⟩ := h
    exact ⟨hs, hb, ih hrest⟩

/-- Every block lies between the ends. -/
theorem bounds {lo hi : ℤ} {blocks : List (ℤ × ℤ)} (h : Tiles lo blocks hi) {i : ℕ}
    {block : ℤ × ℤ} (hb : blocks[i]? = some block) :
    lo ≤ block.1 ∧ block.1 + block.2 ≤ hi ∧ 0 ≤ block.2 := by
  induction blocks generalizing lo i with
  | nil => cases hb
  | cons first blocks ih =>
    obtain ⟨rfl, hc, hrest⟩ := h
    cases i with
    | zero =>
      cases hb
      exact ⟨le_rfl, hrest.le, hc⟩
    | succ i =>
      obtain ⟨hlo, hhi, hpos⟩ := ih hrest hb
      exact ⟨by omega, hhi, hpos⟩

/-- Every position of a tiled interval lies in exactly one block. -/
theorem existsUnique {lo hi : ℤ} {blocks : List (ℤ × ℤ)} (h : Tiles lo blocks hi) {g : ℤ}
    (hl : lo ≤ g) (hh : g < hi) :
    ∃! i : ℕ, ∃ block, blocks[i]? = some block ∧ InBlock block g := by
  induction blocks generalizing lo with
  | nil =>
    cases h
    omega
  | cons first blocks ih =>
    obtain ⟨rfl, hc, hrest⟩ := h
    rcases lt_or_ge g (first.1 + first.2) with hin | hout
    · refine ⟨0, ⟨first, rfl, hl, hin⟩, ?_⟩
      rintro (_ | i) ⟨block, hb, hg⟩
      · rfl
      · have := (hrest.bounds hb).1
        exact absurd hg.1 (by omega)
    · obtain ⟨i, hi, huniq⟩ := ih hrest hout
      refine ⟨i + 1, hi, ?_⟩
      rintro (_ | k) ⟨block, hb, hg⟩
      · cases hb
        exact absurd hg.2 (by omega)
      · exact congrArg (· + 1) (huniq k ⟨block, hb, hg⟩)

end Tiles

end NoiseLevel.Core
