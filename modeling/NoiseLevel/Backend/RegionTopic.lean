import NoiseLevel.Backend.JsonText
import Mathlib.Data.List.Infix

/-!
# The region of a topic

The match of `/noise\/region(\d+)$/` in a topic. The digits of the match are all the digits that
the topic ends in, so the first match is the only one.
-/

namespace NoiseLevel.Backend

/-- What a topic has before its region. -/
def regionWord : List Char := "noise/region".toList

/-- The digits of the first match of `/noise\/region(\d+)$/`. -/
def regionDigits (topic : String) : Option (List Char) :=
  topic.toList.tails.findSome? fun text =>
    (dropWord regionWord text).filter fun digits => !digits.isEmpty && digits.all Char.isDigit

variable {topic : String} {digits : List Char}

theorem dropWord_eq_some_iff {word text rest : List Char} :
    dropWord word text = some rest ↔ text = word ++ rest := by
  rw [dropWord]
  split
  · rename_i h
    obtain ⟨t, rfl⟩ := List.isPrefixOf_iff_prefix.mp h
    rw [List.drop_left, Option.some.injEq, List.append_cancel_left_eq]
  · rename_i h
    simp only [reduceCtorEq, false_iff]
    rintro rfl
    exact h (List.isPrefixOf_iff_prefix.mpr (List.prefix_append word rest))

/-- A suffix of the topic that matches. -/
theorem match_eq_some_iff {text : List Char} :
    ((dropWord regionWord text).filter fun digits =>
      !digits.isEmpty && digits.all Char.isDigit) = some digits ↔
      text = regionWord ++ digits ∧ digits ≠ [] ∧ ∀ c ∈ digits, c.isDigit = true := by
  rw [Option.filter_eq_some_iff, dropWord_eq_some_iff]
  simp

/-- The digits behind the word are the digits that the text ends in. -/
theorem takeWhile_reverse (before : List Char) (h : ∀ c ∈ digits, c.isDigit = true) :
    (before ++ (regionWord ++ digits)).reverse.takeWhile Char.isDigit = digits.reverse := by
  have hr : ∀ c ∈ digits.reverse, c.isDigit = true := fun c hc => h c (List.mem_reverse.mp hc)
  have hw : regionWord.reverse.takeWhile Char.isDigit = [] := by decide
  rw [List.reverse_append, List.reverse_append, List.append_assoc,
    List.takeWhile_append_of_pos hr, List.takeWhile_append]
  split
  · rename_i hl
    rw [hw] at hl
    cases hl
  · rw [hw, List.append_nil]

/-- A topic matches exactly when it ends in the word and digits. -/
theorem regionDigits_eq_some_iff :
    regionDigits topic = some digits ↔
      ∃ before, topic.toList = before ++ (regionWord ++ digits) ∧ digits ≠ [] ∧
        ∀ c ∈ digits, c.isDigit = true := by
  constructor
  · intro h
    obtain ⟨text, ht, hm⟩ := List.exists_of_findSome?_eq_some h
    obtain ⟨before, hb⟩ := (List.mem_tails _ _).mp ht
    obtain ⟨rfl, hd⟩ := match_eq_some_iff.mp hm
    exact ⟨before, hb.symm, hd⟩
  · rintro ⟨before, hb, hne, hd⟩
    have hs : (regionDigits topic).isSome := by
      rw [regionDigits, List.findSome?_isSome_iff]
      refine ⟨regionWord ++ digits, ?_, ?_⟩
      · rw [List.mem_tails, hb]
        exact List.suffix_append _ _
      · rw [match_eq_some_iff.mpr ⟨rfl, hne, hd⟩]
        rfl
    -- any other match ends in the same digits
    obtain ⟨other, ho⟩ := Option.isSome_iff_exists.mp hs
    obtain ⟨text, ht, hm⟩ := List.exists_of_findSome?_eq_some ho
    obtain ⟨start, hst⟩ := (List.mem_tails _ _).mp ht
    obtain ⟨rfl, -, hod⟩ := match_eq_some_iff.mp hm
    have he := takeWhile_reverse start hod
    rw [hst, hb, takeWhile_reverse before hd] at he
    rw [ho, List.reverse_injective he]

end NoiseLevel.Backend
