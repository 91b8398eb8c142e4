import NoiseLevel.Backend.JsonText

/-!
# Decimals and arrays in JSON texts

A number that is printed with two decimals is parsed as itself, rounded to hundredths. An
array that is printed element by element is parsed as the list of its elements.
-/

namespace NoiseLevel.Backend

open NoiseLevel.Core

section Decimals

variable {rest : List Char}

theorem parseUnsigned_hundredthsText (hrest : EndsNumber rest) (h : ℕ) :
    parseUnsigned (hundredthsText h ++ rest) = some ((h : ℚ) / 100, rest) := by
  have hwhole : parseInteger (hundredthsText h ++ rest) = some (h / 100,
      '.' :: ([(h / 10 % 10).digitChar, (h % 10).digitChar] ++ rest)) := by
    rw [hundredthsText, List.append_assoc, parseInteger_natText]
    · rfl
    · intro c hc
      obtain rfl := Option.some.inj hc
      rfl
  have hdigits : ∀ c ∈ [(h / 10 % 10).digitChar, (h % 10).digitChar], c.isDigit = true := by
    intro c hc
    rcases List.mem_cons.mp hc with rfl | hc
    · exact isDigit_digitChar (Nat.mod_lt _ (by decide))
    · obtain rfl := List.mem_singleton.mp hc
      exact isDigit_digitChar (Nat.mod_lt _ (by decide))
  have hfraction : parseFraction
      ('.' :: ([(h / 10 % 10).digitChar, (h % 10).digitChar] ++ rest)) =
      some (((h % 100 : ℕ) : ℚ) / 100, rest) := by
    rw [parseFraction, spanDigits_append hdigits hrest.noDigit]
    dsimp only
    rw [digitsValue_two (Nat.mod_lt _ (by decide)) (Nat.mod_lt _ (by decide)),
      show 10 * (h / 10 % 10) + h % 10 = h % 100 by omega]
    norm_num
  have hvalue : ((h / 100 : ℕ) : ℚ) + ((h % 100 : ℕ) : ℚ) / 100 = (h : ℚ) / 100 := by
    have hsum : (100 * (h / 100 : ℕ) + (h % 100 : ℕ) : ℚ) = h := by
      exact_mod_cast Nat.div_add_mod h 100
    rw [← hsum]
    ring
  rw [parseUnsigned, hwhole]
  simp only [Option.bind_eq_bind, Option.bind_some, hfraction, parseExponent_of_endsNumber hrest,
    hvalue, zpow_zero, mul_one]

/-- The first character of a printed number of hundredths. -/
theorem hundredthsText_cons (h : ℕ) :
    ∃ c text, hundredthsText h = c :: text ∧ c.isDigit = true := by
  obtain ⟨c, digits, hn⟩ := List.exists_cons_of_ne_nil (natText_ne_nil (h / 100))
  refine ⟨c, digits ++ ['.', (h / 10 % 10).digitChar, (h % 10).digitChar], ?_, ?_⟩
  · rw [hundredthsText, hn, List.cons_append]
  · apply isDigit_of_mem_natText (n := h / 100)
    rw [hn]
    exact List.mem_cons_self

/-- A number that starts with its first digit or its sign. -/
theorem parseValue_number {c : Char} {text : List Char} {q : ℚ}
    (hc : c = '-' ∨ c.isDigit = true) (h : parseNumber (c :: text) = some (q, rest)) (depth : ℕ) :
    parseValue (depth + 1) (c :: text) = some (.num q, rest) := by
  rw [parseValue, skipBlank_cons (isBlank_of_number hc)]
  dsimp only
  rw [if_pos hc, h]
  rfl

/-- A number printed with two decimals is parsed as itself, rounded. -/
theorem readsAs_fixedTwo (q : ℚ) : ReadsAs (fixedTwo q) (.num (roundTwo q)) := by
  intro depth rest hrest
  refine ⟨[], nofun, ?_⟩
  rw [List.nil_append]
  rcases lt_or_ge q 0 with hq | hq
  · obtain ⟨h, htext, hround⟩ := fixedTwo_of_neg hq
    rw [htext, List.cons_append]
    apply parseValue_number (Or.inl rfl)
    rw [parseNumber, parseUnsigned_hundredthsText hrest, Option.map_some, roundTwo, hround]
    push_cast
    ring_nf
  · obtain ⟨h, htext, hround⟩ := fixedTwo_of_nonneg hq
    obtain ⟨c, text, hcons, hc⟩ := hundredthsText_cons h
    have hminus : c ≠ '-' := by
      rintro rfl
      exact absurd hc (by decide)
    have hparse := parseUnsigned_hundredthsText hrest h
    rw [htext]
    rw [hcons, List.cons_append] at hparse ⊢
    apply parseValue_number (Or.inr hc)
    rw [parseNumber, hparse, roundTwo, hround, Int.cast_natCast]
    simpa using hminus

end Decimals

section Arrays

/-- Elements as they are printed, and the closing bracket. -/
def elementsText : List Char → List (List Char) → List Char
  | t, [] => t ++ [']']
  | t, u :: ts => t ++ ',' :: elementsText u ts

theorem length_elementsText (t : List Char) (ts : List (List Char)) :
    ts.length < (elementsText t ts).length := by
  induction ts generalizing t with
  | nil => simp [elementsText]
  | cons u ts ih =>
    have h := ih u
    rw [elementsText, List.length_append, List.length_cons, List.length_cons]
    omega

/-- Elements that are each printed with a comma become an array when the last comma is replaced
by the bracket. -/
theorem exists_elementsText_eq (t : List Char) (ts : List (List Char)) : ∃ text,
    ((t :: ts).map fun u => u ++ [',']).flatten = text ++ [','] ∧
      elementsText t ts = text ++ [']'] := by
  induction ts generalizing t with
  | nil => exact ⟨t, by simp, rfl⟩
  | cons u ts ih =>
    obtain ⟨text, hcommas, hclosed⟩ := ih u
    refine ⟨t ++ ',' :: text, ?_, ?_⟩
    · rw [List.map_cons, List.flatten_cons, hcommas]
      simp
    · rw [elementsText, hclosed]
      simp

variable {t : List Char} {ts : List (List Char)} {v : Json} {vs : List Json}

/-- Printed elements are parsed back one by one. -/
theorem parseElements_elementsText (h : List.Forall₂ ReadsAs (t :: ts) (v :: vs)) (depth : ℕ)
    (rest : List Char) {n : ℕ} (hn : ts.length < n) :
    parseElements (parseValue (depth + 1)) n (elementsText t ts ++ rest) =
      some (v :: vs, rest) := by
  induction ts generalizing t v vs n with
  | nil =>
    obtain ⟨n, rfl⟩ : ∃ m, n = m + 1 := ⟨n - 1, by omega⟩
    cases h with
    | cons hread hnil =>
      cases hnil
      obtain ⟨r, hr, -, hs⟩ := (hread.within 0).separator depth (Or.inr (Or.inr rfl)) rest
      rw [elementsText, List.append_assoc, parseElements]
      simp only [List.singleton_append, hr, hs, Option.bind_eq_bind, Option.bind_some]
  | cons u ts ih =>
    obtain ⟨n, rfl⟩ : ∃ m, n = m + 1 := ⟨n - 1, by omega⟩
    cases h with
    | cons hread hmore =>
      obtain ⟨w, ws, hnext, hlater, rfl⟩ := List.forall₂_cons_left_iff.mp hmore
      obtain ⟨r, hr, -, hs⟩ :=
        (hread.within 0).separator depth (Or.inl rfl) (elementsText u ts ++ rest)
      have hrest := ih (List.Forall₂.cons hnext hlater) (n := n)
        (by rw [List.length_cons] at hn; omega)
      rw [elementsText, List.append_assoc, List.cons_append, parseElements]
      simp only [hr, hs, hrest, Option.bind_eq_bind, Option.bind_some]

/-- A printed array is parsed back to its elements. -/
theorem readsWithin_elementsText (h : List.Forall₂ ReadsAs (t :: ts) (v :: vs)) {c : Char}
    {text : List Char} (ht : t = c :: text) (hblank : isBlank c = false) (hclose : c ≠ ']') :
    ReadsWithin 2 ('[' :: elementsText t ts) (.arr (v :: vs)) := by
  intro depth rest _
  refine ⟨[], nofun, ?_⟩
  have helements := parseElements_elementsText h depth rest
    ((length_elementsText t ts).trans_le
      (Nat.le_add_right _ rest.length))
  obtain ⟨tail, hhead⟩ : ∃ tail, elementsText t ts ++ rest = c :: tail := by
    subst ht
    cases ts <;> exact ⟨_, rfl⟩
  rw [List.cons_append, parseValue, skipBlank_cons rfl]
  dsimp only
  rw [if_neg (by decide), if_neg (by decide), if_neg (by decide), if_pos rfl]
  rw [← List.length_append, hhead] at helements
  rw [hhead, skipBlank_cons hblank]
  split
  · next heq => exact absurd (List.cons.inj heq).1 hclose
  · rw [helements]
    rfl

/-- A printed array of numbers is parsed back. -/
theorem readsWithin_numbers (n : ℕ) (ns : List ℕ) :
    ReadsWithin 2 ('[' :: elementsText (natText n) (ns.map natText))
      (.arr ((n :: ns).map fun m : ℕ => .num m)) := by
  obtain ⟨c, digits, hn⟩ := List.exists_cons_of_ne_nil (natText_ne_nil n)
  have hc : c.isDigit = true :=
    isDigit_of_mem_natText (n := n) (by rw [hn]; exact List.mem_cons_self)
  have hclose : c ≠ ']' := by
    rintro rfl
    exact absurd hc (by decide)
  have hall : List.Forall₂ ReadsAs ((n :: ns).map natText)
      ((n :: ns).map fun m : ℕ => .num m) := by
    rw [List.forall₂_map_left_iff, List.forall₂_map_right_iff, List.forall₂_same]
    exact fun m _ => readsAs_intText m
  exact readsWithin_elementsText hall hn (isBlank_of_number (Or.inr hc)) hclose

end Arrays

end NoiseLevel.Backend
