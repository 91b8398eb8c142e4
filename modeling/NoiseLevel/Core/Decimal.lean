import Mathlib.Data.List.TakeWhile
import Mathlib.Data.Rat.Floor
import Mathlib.Tactic

/-!
# Decimal texts

Integers as `%d` prints them, numbers with two decimals as `%.2f` prints them, and `atoi`.
What is printed is read back, and the width of a text is known from the number.
-/

namespace NoiseLevel.Core

/-- The digits of a number, without leading zeros. -/
def natText (n : ℕ) : List Char := Nat.toDigits 10 n

/-- The text of an integer. -/
def intText (n : ℤ) : List Char := if n < 0 then '-' :: natText n.natAbs else natText n.natAbs

/-- The number that digits stand for. -/
def digitsValue (digits : List Char) : ℕ := Nat.ofDigitChars 10 digits 0

/-- A number is read back from its digits. -/
@[simp] theorem digitsValue_natText (n : ℕ) : digitsValue (natText n) = n :=
  Nat.ofDigitChars_ten_toDigits

/-- Every number has a digit. -/
theorem natText_ne_nil (n : ℕ) : natText n ≠ [] := Nat.toDigits_ne_nil

/-- The text of a number consists of digits. -/
theorem isDigit_of_mem_natText {n : ℕ} {c : Char} (h : c ∈ natText n) : c.isDigit = true :=
  Nat.isDigit_of_mem_toDigits (by decide) (by decide) h

/-- A number below a power of ten has as many digits at most. -/
theorem length_natText_le {n k : ℕ} (hk : 0 < k) (h : n < 10 ^ k) : (natText n).length ≤ k :=
  (Nat.length_toDigits_le_iff (by decide) hk).mpr h

/-- Numbers of one digit. -/
theorem natText_of_lt_ten {n : ℕ} (h : n < 10) : natText n = [n.digitChar] :=
  Nat.toDigits_of_lt_base h

/-- The last digit of a larger number. -/
theorem natText_of_ten_le {n : ℕ} (h : 10 ≤ n) :
    natText n = natText (n / 10) ++ [(n % 10).digitChar] := Nat.toDigits_of_base_le (by decide) h

/-- Numbers of two digits. -/
theorem natText_two {n : ℕ} (hlo : 10 ≤ n) (hhi : n < 100) :
    natText n = [(n / 10).digitChar, (n % 10).digitChar] := by
  rw [natText_of_ten_le hlo, natText_of_lt_ten (by omega), List.singleton_append]

/-- The digit of a number below ten is a digit. -/
theorem isDigit_digitChar {n : ℕ} (h : n < 10) : n.digitChar.isDigit = true := by
  have hmem : n.digitChar ∈ natText n := by
    rw [natText_of_lt_ten h]
    exact List.mem_singleton.mpr rfl
  exact isDigit_of_mem_natText hmem

/-- Only zero has the digit zero. -/
theorem digitChar_eq_zero_iff {n : ℕ} (h : n < 10) : n.digitChar = '0' ↔ n = 0 := by
  constructor
  · intro hd
    have hvalue := digitsValue_natText n
    rw [natText_of_lt_ten h, hd] at hvalue
    exact hvalue.symm
  · rintro rfl
    rfl

/-- Only zero starts with the digit zero. -/
theorem head_natText {n : ℕ} (h : 0 < n) : ∃ c digits, natText n = c :: digits ∧ c ≠ '0' := by
  induction n using Nat.strong_induction_on with
  | _ n ih =>
    rcases lt_or_ge n 10 with hlt | hge
    · exact ⟨_, [], natText_of_lt_ten hlt, fun hd => by
        have := (digitChar_eq_zero_iff hlt).mp hd
        omega⟩
    · obtain ⟨c, digits, hn, hc⟩ := ih (n / 10) (by omega) (by omega)
      exact ⟨c, _, by rw [natText_of_ten_le hge, hn]; rfl, hc⟩

/-- A digit is the digit of a number below ten. -/
theorem exists_digitChar {c : Char} (h : c.isDigit = true) : ∃ n < 10, c = n.digitChar := by
  have hrange : 48 ≤ c.toNat ∧ c.toNat ≤ 57 := Char.isDigit_iff_toNat.mp h
  refine ⟨c.toNat - 48, by omega, ?_⟩
  have hten : ∀ n < 10, (Nat.digitChar n).toNat = n + 48 := by decide
  apply Char.toNat_inj.mp
  rw [hten _ (by omega)]
  omega

/-- Digits are zeros in front of the text of their number. -/
theorem eq_zeros_append_natText {digits : List Char} (h : ∀ c ∈ digits, c.isDigit = true)
    (hne : digits ≠ []) :
    ∃ zeros n, digits = List.replicate zeros '0' ++ natText n ∧ digitsValue digits = n := by
  have hform : ∃ zeros n, digits = List.replicate zeros '0' ++ natText n := by
    induction digits using List.reverseRecOn with
    | nil => exact absurd rfl hne
    | append_singleton digits c ih =>
      obtain ⟨hinit, hlast⟩ := List.forall_mem_append.mp h
      obtain ⟨d, hd, rfl⟩ := exists_digitChar (hlast c (List.mem_singleton_self c))
      rcases eq_or_ne digits [] with rfl | hdigits
      · exact ⟨0, d, (natText_of_lt_ten hd).symm⟩
      · obtain ⟨zeros, n, rfl⟩ := ih hinit hdigits
        rcases Nat.eq_zero_or_pos n with rfl | hn
        · refine ⟨zeros + 1, d, ?_⟩
          rw [natText_of_lt_ten hd, List.replicate_succ']
          rfl
        · refine ⟨zeros, 10 * n + d, ?_⟩
          have hdiv : (10 * n + d) / 10 = n := by omega
          have hmod : (10 * n + d) % 10 = d := by omega
          rw [natText_of_ten_le (by omega : 10 ≤ 10 * n + d), hdiv, hmod, List.append_assoc]
  obtain ⟨zeros, n, rfl⟩ := hform
  refine ⟨zeros, n, rfl, ?_⟩
  rw [digitsValue, Nat.ofDigitChars_append, Nat.ofDigitChars_replicate_zero, Nat.mul_zero]
  exact digitsValue_natText n

/-- The digits at the start of a text, and what follows them. -/
def spanDigits (text : List Char) : List Char × List Char :=
  (text.takeWhile Char.isDigit, text.dropWhile Char.isDigit)

/-- What follows is not a digit. -/
def NoDigit (text : List Char) : Prop := ∀ c ∈ text.head?, c.isDigit = false

/-- Without a digit in front nothing is taken. -/
theorem spanDigits_of_noDigit {rest : List Char} (h : NoDigit rest) :
    spanDigits rest = ([], rest) := by
  cases rest with
  | nil => rfl
  | cons c rest =>
    have hc := h c rfl
    simp [spanDigits, hc]

/-- A number is scanned up to the first character that is not a digit. -/
theorem spanDigits_append {digits rest : List Char} (hd : ∀ c ∈ digits, c.isDigit = true)
    (h : NoDigit rest) : spanDigits (digits ++ rest) = (digits, rest) := by
  have hrest := spanDigits_of_noDigit h
  rw [spanDigits, Prod.mk.injEq] at hrest
  rw [spanDigits, List.takeWhile_append_of_pos hd, List.dropWhile_append_of_pos hd, hrest.1,
    hrest.2, List.append_nil]

/-- All digits of a number are taken. -/
theorem spanDigits_natText {n : ℕ} {rest : List Char} (h : NoDigit rest) :
    spanDigits (natText n ++ rest) = (natText n, rest) :=
  spanDigits_append (fun _ => isDigit_of_mem_natText) h

/-- Rounding to the nearest integer, halves to the even one. -/
def roundEven (q : ℚ) : ℤ :=
  if Int.fract q < 1 / 2 ∨ Int.fract q = 1 / 2 ∧ ⌊q⌋ % 2 = 0 then ⌊q⌋ else ⌊q⌋ + 1

/-- Rounding does not cross an integer from above. -/
theorem le_roundEven {m : ℤ} {q : ℚ} (h : m ≤ q) : m ≤ roundEven q := by
  have hfloor := Int.le_floor.mpr h
  unfold roundEven
  split <;> omega

/-- Rounding does not cross an integer from below. -/
theorem roundEven_le {m : ℤ} {q : ℚ} (h : q ≤ m) : roundEven q ≤ m := by
  unfold roundEven
  split
  · exact_mod_cast (Int.floor_le q).trans h
  · next hup =>
    have hpos : 0 < Int.fract q := by
      by_contra hneg
      exact hup (Or.inl (by linarith))
    have hlt : (⌊q⌋ : ℚ) < m := by
      have := Int.floor_add_fract q
      linarith
    exact_mod_cast hlt

/-- Integers are not rounded. -/
@[simp] theorem roundEven_intCast (n : ℤ) : roundEven n = n :=
  le_antisymm (roundEven_le le_rfl) (le_roundEven le_rfl)

/-- Rounding is symmetric about zero. -/
theorem roundEven_neg (q : ℚ) : roundEven (-q) = -roundEven q := by
  rcases eq_or_ne (Int.fract q) 0 with hf | hf
  · have hq : (⌊q⌋ : ℚ) = q := by
      have := Int.floor_add_fract q
      linarith
    rw [← hq, ← Int.cast_neg, roundEven_intCast, roundEven_intCast]
  · have hfract := Int.fract_neg hf
    have hfloor : ⌊-q⌋ = -⌊q⌋ - 1 := by
      have hsum : (⌊-q⌋ : ℚ) = ((-⌊q⌋ - 1 : ℤ) : ℚ) := by
        have h1 := Int.floor_add_fract q
        have h2 := Int.floor_add_fract (-q)
        push_cast
        linarith
      exact_mod_cast hsum
    rw [roundEven, roundEven, hfract, hfloor]
    rcases lt_trichotomy (Int.fract q) (1 / 2) with h | h | h
    · rw [if_neg (by rintro (h' | h') <;> linarith), if_pos (Or.inl h)]
      ring
    · simp only [h]
      norm_num
      split_ifs <;> omega
    · rw [if_pos (Or.inl (by linarith)), if_neg (by rintro (h' | h') <;> linarith)]
      ring

/-- Away from the halves all roundings agree. -/
theorem roundEven_eq_round {q : ℚ} (h : Int.fract q ≠ 1 / 2) : roundEven q = round q := by
  unfold roundEven round
  rcases lt_or_gt_of_ne h with hlt | hgt
  · rw [if_pos (Or.inl hlt), if_pos (by linarith)]
  · have hceil : ⌈q⌉ = ⌊q⌋ + 1 := by
      rw [Int.ceil_eq_iff]
      have := Int.floor_add_fract q
      have := Int.fract_lt_one q
      push_cast
      constructor <;> linarith
    rw [if_neg (by rintro (h' | h') <;> linarith), if_neg (by linarith), hceil]

/-- The number that `%.2f` prints. -/
def roundTwo (q : ℚ) : ℚ := (roundEven (100 * q) : ℚ) / 100

/-- Hundredths are not rounded. -/
theorem roundTwo_hundredths (n : ℤ) : roundTwo ((n : ℚ) / 100) = n / 100 := by
  rw [roundTwo, mul_div_cancel₀ _ (by norm_num), roundEven_intCast]

/-- Integers are not rounded. -/
theorem roundTwo_intCast (n : ℤ) : roundTwo n = n := by
  rw [roundTwo, ← Int.cast_ofNat, ← Int.cast_mul, roundEven_intCast, Int.cast_mul]
  exact mul_div_cancel_left₀ _ (by norm_num)

/-- The text of a number of hundredths. -/
def hundredthsText (h : ℕ) : List Char :=
  natText (h / 100) ++ ['.', (h / 10 % 10).digitChar, (h % 10).digitChar]

/-- The text that `%.2f` prints. -/
def fixedTwo (q : ℚ) : List Char :=
  let text := hundredthsText (roundEven (100 * |q|)).toNat
  if q < 0 then '-' :: text else text

/-- A number that is not negative is printed as its hundredths. -/
theorem fixedTwo_of_nonneg {q : ℚ} (hq : 0 ≤ q) :
    ∃ h : ℕ, fixedTwo q = hundredthsText h ∧ roundEven (100 * q) = h := by
  have hround : 0 ≤ roundEven (100 * q) := le_roundEven (by push_cast; positivity)
  refine ⟨(roundEven (100 * q)).toNat, ?_, (Int.toNat_of_nonneg hround).symm⟩
  rw [fixedTwo, if_neg (not_lt.mpr hq), abs_of_nonneg hq]

/-- A negative number is printed with its sign. -/
theorem fixedTwo_of_neg {q : ℚ} (hq : q < 0) :
    ∃ h : ℕ, fixedTwo q = '-' :: hundredthsText h ∧ roundEven (100 * q) = -h := by
  have hround : 0 ≤ roundEven (100 * -q) := le_roundEven (by push_cast; linarith)
  refine ⟨(roundEven (100 * -q)).toNat, ?_, ?_⟩
  · rw [fixedTwo, if_pos hq, abs_of_neg hq]
  · rw [Int.toNat_of_nonneg hround, mul_neg, roundEven_neg, neg_neg]

/-- The text of hundredths is three characters longer than that of the integer part. -/
theorem length_hundredthsText_le {h k : ℕ} (hk : 0 < k) (hh : h < 100 * 10 ^ k) :
    (hundredthsText h).length ≤ k + 3 := by
  have := length_natText_le hk (Nat.div_lt_of_lt_mul hh)
  rw [hundredthsText, List.length_append, List.length_cons, List.length_cons, List.length_singleton]
  omega

/-- Two digits and their value. -/
theorem digitsValue_two {m n : ℕ} (hm : m < 10) (hn : n < 10) :
    digitsValue [m.digitChar, n.digitChar] = 10 * m + n := by
  rcases Nat.eq_zero_or_pos m with rfl | hpos
  · have h := digitsValue_natText n
    rw [natText_of_lt_ten hn] at h
    rw [Nat.mul_zero, Nat.zero_add]
    exact h
  · have h := digitsValue_natText (10 * m + n)
    rwa [natText_two (by omega) (by omega), show (10 * m + n) / 10 = m by omega,
      show (10 * m + n) % 10 = n by omega] at h

/-- The text of a number from ten to below a hundred, given in hundredths. -/
theorem fixedTwo_hundredths {h : ℕ} (hlo : 1000 ≤ h) (hhi : h < 10000) :
    fixedTwo ((h : ℚ) / 100) = [(h / 1000).digitChar, (h / 100 % 10).digitChar, '.',
      (h / 10 % 10).digitChar, (h % 10).digitChar] := by
  have hpos : (0 : ℚ) ≤ (h : ℚ) / 100 := by positivity
  have hround : (roundEven (100 * |(h : ℚ) / 100|)).toNat = h := by
    rw [abs_of_nonneg hpos, mul_div_cancel₀ _ (by norm_num), ← Int.cast_natCast, roundEven_intCast,
      Int.toNat_natCast]
  rw [fixedTwo, hround, if_neg (not_lt.mpr hpos), hundredthsText,
    natText_two (by omega) (by omega), Nat.div_div_eq_div_mul]
  rfl

/-- The sign of a number in a text, if it has one. -/
def signed (value : List Char → ℤ) : List Char → ℤ
  | '-' :: rest => -value rest
  | '+' :: rest => value rest
  | text => value text

/-- Blanks that `atoi` skips. -/
def isSpace (c : Char) : Bool := c = ' ' || 9 ≤ c.toNat && c.toNat ≤ 13

/-- The text of an integer of 32 bits. -/
theorem length_intText_le {n : ℤ} (hlo : -2 ^ 31 ≤ n) (hhi : n < 2 ^ 31) :
    (intText n).length ≤ 11 := by
  have h := length_natText_le (n := n.natAbs) (k := 10) (by decide) (by omega)
  unfold intText
  split
  · rw [List.length_cons]
    omega
  · omega

/-- The number at the start of a text, behind blanks. -/
def atoi (text : List Char) : ℤ :=
  signed (fun digits => digitsValue (spanDigits digits).1) (text.dropWhile isSpace)

/-- A digit is no white space. -/
theorem isSpace_of_isDigit {c : Char} (h : c.isDigit = true) : isSpace c = false := by
  rw [Char.isDigit_iff_toNat] at h
  have hblank : c ≠ ' ' := by
    rintro rfl
    exact absurd h (by decide)
  simp only [isSpace, Bool.or_eq_false_iff, decide_eq_false_iff_not, Bool.and_eq_false_iff]
  refine ⟨hblank, Or.inr ?_⟩
  have := h.1
  simp at this
  omega

/-- A number is read up to the first character that is not a digit. -/
theorem atoi_natText {n : ℕ} {rest : List Char} (h : NoDigit rest) :
    atoi (natText n ++ rest) = n := by
  obtain ⟨c, digits, hn⟩ := List.exists_cons_of_ne_nil (natText_ne_nil n)
  have hc : c.isDigit = true :=
    isDigit_of_mem_natText (n := n) (by rw [hn]; exact List.mem_cons_self)
  have hspan : (spanDigits (c :: (digits ++ rest))).1 = natText n := by
    rw [← List.cons_append, ← hn, spanDigits_natText h]
  rw [atoi, hn, List.cons_append, List.dropWhile_cons_of_neg (by simp [isSpace_of_isDigit hc])]
  have hsigned : signed (fun digits => digitsValue (spanDigits digits).1) (c :: (digits ++ rest)) =
      digitsValue (spanDigits (c :: (digits ++ rest))).1 := by
    unfold signed
    split
    · next heq =>
      obtain rfl := (List.cons.inj heq).1
      exact absurd hc (by decide)
    · next heq =>
      obtain rfl := (List.cons.inj heq).1
      exact absurd hc (by decide)
    · rfl
  rw [hsigned, hspan, digitsValue_natText]

end NoiseLevel.Core
