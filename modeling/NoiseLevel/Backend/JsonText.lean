import NoiseLevel.Backend.Schema
import NoiseLevel.Core.Decimal

/-!
# JSON texts

The grammar of JSON as a parser of characters, and the text of a measure that the sensors
and the simulation print. A printed measure is parsed back to its fields.
-/

namespace NoiseLevel.Backend

open NoiseLevel.Core

/-- The characters that open and close a string, and that start an escape in it. -/
def quote : Char := Char.ofNat 34

/-- The character that begins an escape. -/
def backslash : Char := Char.ofNat 92

/-- Blanks between tokens. -/
def isBlank (c : Char) : Bool := c = ' ' || c = '\t' || c = '\n' || c = '\r'

/-- What follows blanks. -/
def skipBlank (text : List Char) : List Char := text.dropWhile isBlank

/-- The integer part of a number. It ends behind a leading zero. -/
def parseInteger (text : List Char) : Option (ℕ × List Char) :=
  match spanDigits text with
  | ([], _) => none
  | ('0' :: digits, rest) => some (0, digits ++ rest)
  | (digits, rest) => some (digitsValue digits, rest)

/-- The digits behind a point, if there is one. -/
def parseFraction : List Char → Option (ℚ × List Char)
  | '.' :: text =>
    match spanDigits text with
    | ([], _) => none
    | (digits, rest) => some (digitsValue digits / 10 ^ digits.length, rest)
  | text => some (0, text)

/-- The power of ten of a number, if it has one. -/
def parseExponent : List Char → Option (ℤ × List Char)
  | [] => some (0, [])
  | c :: text =>
    if c = 'e' ∨ c = 'E' then
      match spanDigits
          (if text.head? = some '+' ∨ text.head? = some '-' then text.tail else text) with
      | ([], _) => none
      | (digits, rest) =>
        some (if text.head? = some '-' then -digitsValue digits else digitsValue digits, rest)
    else some (0, c :: text)

/-- A number without its sign. -/
def parseUnsigned (text : List Char) : Option (ℚ × List Char) := do
  let (whole, text) ← parseInteger text
  let (fraction, text) ← parseFraction text
  let (exponent, text) ← parseExponent text
  some ((whole + fraction) * 10 ^ exponent, text)

/-- A number. -/
def parseNumber : List Char → Option (ℚ × List Char)
  | '-' :: text => (parseUnsigned text).map fun p => (-p.1, p.2)
  | text => parseUnsigned text

/-- The character that an escape of two characters stands for. -/
def escaped (c : Char) : Option Char :=
  if c = quote ∨ c = backslash ∨ c = '/' then some c
  else if c = 'b' then some (Char.ofNat 8)
  else if c = 'f' then some (Char.ofNat 12)
  else if c = 'n' then some '\n'
  else if c = 'r' then some '\r'
  else if c = 't' then some '\t'
  else none

/-- The value of a hexadecimal digit. -/
def hexDigit (c : Char) : Option ℕ :=
  if c.isDigit then some (c.toNat - 48)
  else if 'a' ≤ c ∧ c ≤ 'f' then some (c.toNat - 87)
  else if 'A' ≤ c ∧ c ≤ 'F' then some (c.toNat - 55)
  else none

/-- The code that four hexadecimal digits stand for. -/
def hexCode (a b c d : Char) : Option ℕ := do
  some ((((← hexDigit a) * 16 + (← hexDigit b)) * 16 + (← hexDigit c)) * 16 + (← hexDigit d))

/-- The character of a string that starts here, and what follows. Escaped surrogates, which
stand for half a character, are not modelled. -/
def parseChar (c : Char) (text : List Char) : Option (Char × List Char) :=
  if c = backslash then
    match text with
    | 'u' :: h :: i :: j :: k :: text => do
      let code ← hexCode h i j k
      if code.isValidChar then some (Char.ofNat code, text) else none
    | c :: text => (escaped c).map fun c => (c, text)
    | [] => none
  else if c.toNat < 32 then none
  else some (c, text)

/-- The characters of a string up to its closing quote. -/
def parseChars : ℕ → List Char → Option (List Char × List Char)
  | 0, _ => none
  | _ + 1, [] => none
  | n + 1, c :: text =>
    if c = quote then some ([], text)
    else do
      let (c, text) ← parseChar c text
      let (chars, text) ← parseChars n text
      some (c :: chars, text)

/-- The text behind a word. -/
def dropWord (word text : List Char) : Option (List Char) :=
  if word.isPrefixOf text then some (text.drop word.length) else none

/-- A member in front of others: a later member of the same name replaces its value. -/
def addMember (name : String) (v : Json) (fields : List (String × Json)) : List (String × Json) :=
  (name, (fields.lookup name).getD v) :: fields.filter fun field => field.1 ≠ name

section Values

variable (value : List Char → Option (Json × List Char))

/-- A name and its value. -/
def parseMember (text : List Char) : Option ((String × Json) × List Char) := do
  let text ← dropWord [quote] (skipBlank text)
  let (name, text) ← parseChars text.length text
  let text ← dropWord [':'] (skipBlank text)
  let (v, text) ← value text
  some ((String.ofList name, v), text)

/-- The members of an object and its closing brace. -/
def parseMembers : ℕ → List Char → Option (List (String × Json) × List Char)
  | 0, _ => none
  | n + 1, text => do
    let (field, text) ← parseMember value text
    match skipBlank text with
    | ',' :: text =>
      let (fields, text) ← parseMembers n text
      some (addMember field.1 field.2 fields, text)
    | '}' :: text => some ([field], text)
    | _ => none

/-- The elements of an array and its closing bracket. -/
def parseElements : ℕ → List Char → Option (List Json × List Char)
  | 0, _ => none
  | n + 1, text => do
    let (v, text) ← value text
    match skipBlank text with
    | ',' :: text =>
      let (items, text) ← parseElements n text
      some (v :: items, text)
    | ']' :: text => some ([v], text)
    | _ => none

end Values

/-- A value, nested at most as deep as the first argument says. -/
def parseValue : ℕ → List Char → Option (Json × List Char)
  | 0, _ => none
  | depth + 1, text =>
    match skipBlank text with
    | [] => none
    | c :: text =>
      if c = '-' ∨ c.isDigit then (parseNumber (c :: text)).map fun p => (.num p.1, p.2)
      else if c = quote then
        (parseChars text.length text).map fun p => (.str (String.ofList p.1), p.2)
      else if c = '{' then
        match skipBlank text with
        | '}' :: text => some (.obj [], text)
        | text => (parseMembers (parseValue depth) text.length text).map fun p => (.obj p.1, p.2)
      else if c = '[' then
        match skipBlank text with
        | ']' :: text => some (.arr [], text)
        | text => (parseElements (parseValue depth) text.length text).map fun p => (.arr p.1, p.2)
      else if let some text := dropWord "true".toList (c :: text) then some (.bool true, text)
      else if let some text := dropWord "false".toList (c :: text) then some (.bool false, text)
      else (dropWord "null".toList (c :: text)).map fun text => (.null, text)

/-- A text that is one value and nothing else. -/
def parse (text : List Char) : Option Json :=
  match parseValue (text.length + 1) text with
  | some (v, rest) => if skipBlank rest = [] then some v else none
  | none => none

/-- The text of a measure. -/
def measureText (noise mode x y : List Char) : List Char :=
  "\x7b\"noise\": ".toList ++ noise ++ ", \"mode\": \"".toList ++ mode ++
    "\", \"coordX\": ".toList ++ x ++ ", \"coordY\": ".toList ++ y ++ "\x7d".toList

/-- What follows does not belong to a number. -/
def EndsNumber (rest : List Char) : Prop :=
  ∀ c ∈ rest.head?, c.isDigit = false ∧ c ≠ '.' ∧ c ≠ 'e' ∧ c ≠ 'E'

/-- What ends a number is no digit. -/
theorem EndsNumber.noDigit {rest : List Char} (h : EndsNumber rest) : NoDigit rest :=
  fun c hc => (h c hc).1

/-- An integer part is read back. -/
theorem parseInteger_natText {rest : List Char} (h : NoDigit rest) (n : ℕ) :
    parseInteger (natText n ++ rest) = some (n, rest) := by
  rw [parseInteger, spanDigits_natText h]
  rcases Nat.eq_zero_or_pos n with rfl | hn
  · rfl
  · obtain ⟨c, digits, htext, hc⟩ := head_natText hn
    have hvalue := digitsValue_natText n
    rw [htext] at hvalue ⊢
    split
    · next heq => exact absurd (Prod.mk.inj heq).1 (List.cons_ne_nil _ _)
    · next heq =>
      obtain ⟨hcons, -⟩ := Prod.mk.inj heq
      exact absurd (List.cons.inj hcons).1 hc
    · next heq =>
      obtain ⟨rfl, rfl⟩ := Prod.mk.inj heq
      rw [hvalue]

/-- A number may have no fraction. -/
theorem parseFraction_of_endsNumber {rest : List Char} (h : EndsNumber rest) :
    parseFraction rest = some (0, rest) := by
  unfold parseFraction
  split
  · exact absurd rfl (h '.' rfl).2.1
  · rfl

/-- A number may have no exponent. -/
theorem parseExponent_of_endsNumber {rest : List Char} (h : EndsNumber rest) :
    parseExponent rest = some (0, rest) := by
  cases rest with
  | nil => rfl
  | cons c rest =>
    obtain ⟨-, -, he, hE⟩ := h c rfl
    rw [parseExponent, if_neg (not_or.mpr ⟨he, hE⟩)]

/-- A number is read back. -/
theorem parseUnsigned_natText {rest : List Char} (h : EndsNumber rest) (n : ℕ) :
    parseUnsigned (natText n ++ rest) = some ((n : ℚ), rest) := by
  simp [parseUnsigned, parseInteger_natText h.noDigit, parseFraction_of_endsNumber h,
    parseExponent_of_endsNumber h]

/-- A printed integer is parsed back. -/
theorem parseNumber_intText {rest : List Char} (h : EndsNumber rest) (n : ℤ) :
    parseNumber (intText n ++ rest) = some ((n : ℚ), rest) := by
  unfold intText
  split
  · next hneg =>
    have habs : ((n.natAbs : ℕ) : ℚ) = -n := by
      rw [← Int.cast_natCast, Int.ofNat_natAbs_of_nonpos hneg.le, Int.cast_neg]
    rw [List.cons_append, parseNumber, parseUnsigned_natText h, Option.map_some, habs, neg_neg]
  · next hpos =>
    have habs : ((n.natAbs : ℕ) : ℚ) = n := by
      rw [← Int.cast_natCast, Int.natAbs_of_nonneg (not_lt.mp hpos)]
    obtain ⟨c, digits, hn⟩ := List.exists_cons_of_ne_nil (natText_ne_nil n.natAbs)
    have hc : c.isDigit = true := isDigit_of_mem_natText (n := n.natAbs) (by simp [hn])
    have hminus : c ≠ '-' := by
      rintro rfl
      exact absurd hc (by decide)
    rw [← habs, ← parseUnsigned_natText h, hn, List.cons_append, parseNumber]
    simpa using hminus

/-- The first character of a printed integer. -/
theorem intText_cons (n : ℤ) :
    ∃ c digits, intText n = c :: digits ∧ (c = '-' ∨ c.isDigit = true) := by
  unfold intText
  split
  · exact ⟨'-', _, rfl, Or.inl rfl⟩
  · obtain ⟨c, digits, hn⟩ := List.exists_cons_of_ne_nil (natText_ne_nil n.natAbs)
    exact ⟨c, digits, hn, Or.inr (isDigit_of_mem_natText (n := n.natAbs) (by simp [hn]))⟩

/-- Characters that stand for themselves in a string. -/
def Plain (text : List Char) : Prop := ∀ c ∈ text, c ≠ quote ∧ 32 ≤ c.toNat ∧ c ≠ backslash

instance (text : List Char) : Decidable (Plain text) :=
  List.decidableBAll (fun c => c ≠ quote ∧ 32 ≤ c.toNat ∧ c ≠ backslash) text

/-- The characters of a plain string are read back. -/
theorem parseChars_plain {text : List Char} (h : Plain text) (rest : List Char) {n : ℕ}
    (hn : text.length < n) : parseChars n (text ++ quote :: rest) = some (text, rest) := by
  induction text generalizing n with
  | nil =>
    obtain ⟨n, rfl⟩ : ∃ m, n = m + 1 := ⟨n - 1, by omega⟩
    rw [List.nil_append, parseChars, if_pos rfl]
  | cons c text ih =>
    obtain ⟨n, rfl⟩ : ∃ m, n = m + 1 := ⟨n - 1, by omega⟩
    obtain ⟨hquote, hcontrol, hback⟩ := h c List.mem_cons_self
    have hrest := ih (n := n) (fun c hc => h c (List.mem_cons_of_mem _ hc))
      (by rw [List.length_cons] at hn; omega)
    have hchar : parseChar c (text ++ quote :: rest) = some (c, text ++ quote :: rest) := by
      unfold parseChar
      rw [if_neg hback, if_neg (not_lt.mpr hcontrol)]
    rw [List.cons_append, parseChars, if_neg hquote]
    simp [hchar, hrest]

/-- Other characters are not skipped. -/
theorem skipBlank_cons {c : Char} (h : isBlank c = false) (text : List Char) :
    skipBlank (c :: text) = c :: text := by
  simp [skipBlank, h]

/-- All blanks are skipped. -/
theorem skipBlank_append {blanks : List Char} (h : ∀ c ∈ blanks, isBlank c = true)
    (text : List Char) : skipBlank (blanks ++ text) = skipBlank text :=
  List.dropWhile_append_of_pos h

/-- A text that is parsed as a value, up to blanks, wherever the number in it ends. -/
def ReadsAs (text : List Char) (v : Json) : Prop :=
  ∀ depth rest, EndsNumber rest → ∃ blanks : List Char, (∀ c ∈ blanks, isBlank c = true) ∧
    parseValue (depth + 1) (text ++ rest) = some (v, blanks ++ rest)

/-- The same for a text that may nest values, up to the given number of levels. -/
def ReadsWithin (levels : ℕ) (text : List Char) (v : Json) : Prop :=
  ∀ depth rest, EndsNumber rest → ∃ blanks : List Char, (∀ c ∈ blanks, isBlank c = true) ∧
    parseValue (depth + levels) (text ++ rest) = some (v, blanks ++ rest)

/-- A value is read at every depth. -/
theorem ReadsAs.within {text : List Char} {v : Json} (h : ReadsAs text v) (levels : ℕ) :
    ReadsWithin (levels + 1) text v := fun depth => h (depth + levels)

/-- A number begins with no blank. -/
theorem isBlank_of_number {c : Char} (h : c = '-' ∨ c.isDigit = true) : isBlank c = false := by
  rcases h with rfl | h
  · rfl
  · have hne : ∀ b, b.isDigit = false → c ≠ b := by
      rintro b hb rfl
      exact absurd h (by simp [hb])
    simp [isBlank, hne ' ' rfl, hne '\t' rfl, hne '\n' rfl, hne '\r' rfl]

/-- An integer is read back. -/
theorem readsAs_intText (n : ℤ) : ReadsAs (intText n) (.num n) := by
  intro depth rest h
  obtain ⟨c, digits, hn, hc⟩ := intText_cons n
  refine ⟨[], by simp, ?_⟩
  have hparse := parseNumber_intText h n
  rw [hn, List.cons_append] at hparse ⊢
  rw [parseValue, skipBlank_cons (isBlank_of_number hc)]
  dsimp only
  rw [if_pos hc, hparse]
  rfl

section Members

variable {value : List Char → Option (Json × List Char)} {start name text rest tail : List Char}
  {v : Json} (hname : Plain name)
  (hstart : skipBlank start = quote :: (name ++ quote :: ':' :: text))
  (hv : value text = some (v, rest))
include hname hstart hv

/-- The first member of a text. -/
theorem parseMember_eq : parseMember value start = some ((String.ofList name, v), rest) := by
  have hopen : dropWord [quote] (skipBlank start) = some (name ++ quote :: ':' :: text) := by
    rw [hstart]
    simp [dropWord]
  have hcolon : dropWord [':'] (skipBlank (':' :: text)) = some text := by
    rw [skipBlank_cons rfl]
    simp [dropWord]
  have hchars := parseChars_plain hname (':' :: text)
    (n := (name ++ quote :: ':' :: text).length) (by simp)
  rw [parseMember, hopen, Option.bind_eq_bind, Option.bind_some, hchars]
  dsimp only [Option.bind_eq_bind, Option.bind_some]
  rw [hcolon, Option.bind_some, hv, Option.bind_some]

/-- A member that others follow. -/
theorem parseMembers_next (hrest : skipBlank rest = ',' :: tail) (n : ℕ) :
    parseMembers value (n + 1) start =
      (parseMembers value n tail).map fun p => (addMember (String.ofList name) v p.1, p.2) := by
  rw [parseMembers, parseMember_eq hname hstart hv]
  dsimp only [Option.bind_eq_bind, Option.bind_some]
  simp only [hrest]
  cases parseMembers value n tail <;> rfl

/-- The last member. -/
theorem parseMembers_last (hrest : skipBlank rest = '}' :: tail) (n : ℕ) :
    parseMembers value (n + 1) start = some ([(String.ofList name, v)], tail) := by
  rw [parseMembers, parseMember_eq hname hstart hv]
  dsimp only [Option.bind_eq_bind, Option.bind_some]
  simp only [hrest]

end Members

section Measure

variable {noise mode x y : List Char} {vNoise vX vY : Json}

/-- Punctuation ends a number. -/
theorem endsNumber_cons {c : Char} (h : c = ',' ∨ c = '}' ∨ c = ']') (rest : List Char) :
    EndsNumber (c :: rest) := by
  intro d hd
  obtain rfl := Option.some.inj hd
  rcases h with rfl | rfl | rfl <;> decide

/-- A value is read up to the separator behind it. -/
theorem ReadsWithin.separator {levels : ℕ} {text : List Char} {v : Json}
    (h : ReadsWithin (levels + 1) text v) (depth : ℕ) {c : Char}
    (hc : c = ',' ∨ c = '}' ∨ c = ']') (tail : List Char) : ∃ rest,
      parseValue (depth + levels + 1) (text ++ c :: tail) = some (v, rest) ∧
        parseValue (depth + levels + 1) (' ' :: (text ++ c :: tail)) = some (v, rest) ∧
        skipBlank rest = c :: tail := by
  obtain ⟨blanks, hblanks, hparse⟩ := h depth (c :: tail) (endsNumber_cons hc tail)
  refine ⟨blanks ++ c :: tail, hparse, ?_, ?_⟩
  · rw [← hparse]
    rfl
  · rw [skipBlank_append hblanks, skipBlank_cons]
    rcases hc with rfl | rfl | rfl <;> rfl

/-- A quoted text is read back. -/
theorem readsAs_quoted (h : Plain mode) :
    ReadsAs (quote :: (mode ++ [quote])) (.str (String.ofList mode)) := by
  intro depth rest _
  refine ⟨[], by simp, ?_⟩
  have hchars := parseChars_plain h rest (n := (mode ++ quote :: rest).length) (by simp)
  rw [List.cons_append, List.append_assoc, List.singleton_append, parseValue, skipBlank_cons rfl]
  dsimp only
  rw [if_neg (by decide), if_pos rfl, hchars]
  rfl

/-- A member as it is printed. -/
def memberText (name : String) (text : List Char) : List Char :=
  quote :: (name.toList ++ quote :: ':' :: ' ' :: text)

/-- The text of a measure, member by member. -/
theorem measureText_eq : measureText noise mode x y = '{' :: memberText "noise" (noise ++
    ',' :: ' ' :: memberText "mode" ((quote :: (mode ++ [quote])) ++
      ',' :: ' ' :: memberText "coordX" (x ++
        ',' :: ' ' :: memberText "coordY" (y ++ ['}'])))) := by
  have hx : ∀ rest, "\", \"coordX\": ".toList ++ rest =
      quote :: ',' :: ' ' :: memberText "coordX" rest := fun _ => rfl
  have hquoted : ∀ rest, (quote :: (mode ++ [quote])) ++ rest = quote :: (mode ++ quote :: rest) :=
    fun _ => by simp
  rw [hquoted]
  unfold measureText
  simp only [List.append_assoc]
  refine congrArg (fun rest => '{' :: memberText "noise" (noise ++ ',' :: ' ' ::
    memberText "mode" (quote :: (mode ++ rest)))) ?_
  exact hx _

/-- The length of the text of a measure. -/
theorem length_measureText : (measureText noise mode x y).length =
    noise.length + mode.length + x.length + y.length + 47 := by
  rw [measureText_eq]
  simp [memberText]
  omega

/-- Coordinates without a comma can be told from the text. -/
theorem measureText_inj {x' y' : List Char} (hx : ',' ∉ x) (hx' : ',' ∉ x')
    (h : measureText noise mode x y = measureText noise mode x' y') : x = x' ∧ y = y' := by
  simp only [measureText_eq, memberText, List.cons.injEq, List.append_right_inj, true_and] at h
  have hfirst : ∀ {text : List Char} (rest : List Char), ',' ∉ text →
      (text ++ ',' :: rest).takeWhile (fun c => c ≠ ',') = text := by
    intro text rest hno
    rw [List.takeWhile_append_of_pos fun c hc => by simpa using ne_of_mem_of_not_mem hc hno]
    simp
  have htake := congrArg (List.takeWhile fun c => c ≠ ',') h
  rw [hfirst _ hx, hfirst _ hx'] at htake
  subst htake
  simp only [List.cons.injEq, List.append_right_inj, true_and] at h
  exact ⟨rfl, List.append_cancel_right h⟩

/-- A text that is an object of at most four members. -/
theorem parse_object {text : List Char} {fields : List (String × Json)} (hlong : 3 ≤ text.length)
    (h : ∀ depth n, parseMembers (parseValue (depth + 2)) (n + 4) (quote :: text) =
      some (fields, [])) : parse ('{' :: quote :: text) = some (.obj fields) := by
  obtain ⟨n, hn⟩ : ∃ n, text.length = n + 3 := ⟨text.length - 3, by omega⟩
  have hvalue : parseValue (text.length + 1 + 1 + 1) ('{' :: quote :: text) =
      some (.obj fields, []) := by
    rw [parseValue, skipBlank_cons rfl]
    dsimp only
    rw [if_neg (by decide), if_neg (by decide), if_pos rfl, skipBlank_cons rfl]
    split
    · next heq => exact absurd (List.cons.inj heq).1 (by decide)
    · rw [List.length_cons, hn, h]
      rfl
  rw [parse, List.length_cons, List.length_cons, hvalue]
  rfl

/-- A printed measure is parsed back to its fields, one of which may be an array. -/
theorem parse_measureText_within (hnoise : ReadsWithin 2 noise vNoise) (hmode : Plain mode)
    (hx : ReadsAs x vX) (hy : ReadsAs y vY) : parse (measureText noise mode x y) =
      some (.obj [("noise", vNoise), ("mode", .str (String.ofList mode)), ("coordX", vX),
        ("coordY", vY)]) := by
  rw [measureText_eq]
  refine parse_object (by simp) fun depth n => ?_
  obtain ⟨r1, -, hr1, hs1⟩ := hnoise.separator depth (Or.inl rfl) (' ' :: memberText "mode"
    ((quote :: (mode ++ [quote])) ++ ',' :: ' ' :: memberText "coordX" (x ++
      ',' :: ' ' :: memberText "coordY" (y ++ ['}']))))
  obtain ⟨r2, -, hr2, hs2⟩ := ((readsAs_quoted hmode).within 1).separator depth (Or.inl rfl)
    (' ' :: memberText "coordX" (x ++ ',' :: ' ' :: memberText "coordY" (y ++ ['}'])))
  obtain ⟨r3, -, hr3, hs3⟩ := (hx.within 1).separator depth (Or.inl rfl)
    (' ' :: memberText "coordY" (y ++ ['}']))
  obtain ⟨r4, -, hr4, hs4⟩ := (hy.within 1).separator depth (Or.inr (Or.inl rfl)) []
  have hskip : ∀ name rest, skipBlank (' ' :: memberText name rest) = memberText name rest :=
    fun _ _ => rfl
  have hlast := parseMembers_last (by decide) (hskip "coordY" _) hr4 hs4 n
  have hthird := parseMembers_next (by decide) (hskip "coordX" _) hr3 hs3 (n + 1)
  have hsecond := parseMembers_next (by decide) (hskip "mode" _) hr2 hs2 (n + 2)
  have hname : Plain "noise".toList := by decide
  refine (parseMembers_next hname (skipBlank_cons rfl _) hr1 hs1 (n + 3)).trans ?_
  rw [hsecond, hthird, hlast]
  rfl

/-- A printed measure is parsed back to its fields. -/
theorem parse_measureText (hnoise : ReadsAs noise vNoise) (hmode : Plain mode) (hx : ReadsAs x vX)
    (hy : ReadsAs y vY) : parse (measureText noise mode x y) =
      some (.obj [("noise", vNoise), ("mode", .str (String.ofList mode)), ("coordX", vX),
        ("coordY", vY)]) := parse_measureText_within (hnoise.within 1) hmode hx hy

end Measure

end NoiseLevel.Backend
