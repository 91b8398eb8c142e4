import Mathlib.Data.Char
import Mathlib.Tactic

/-!
# Characters as bytes

A character of C is a byte. Texts of ASCII characters are read back from their bytes.
-/

namespace NoiseLevel.Core

/-- The bytes of a text. -/
def charBytes (text : List Char) : List UInt8 := text.map fun c => UInt8.ofNat c.toNat

/-- The text of some bytes. -/
def byteChars (bytes : List UInt8) : List Char := bytes.map fun b => Char.ofNat b.toNat

/-- All characters of a text are ASCII. -/
def Ascii (text : List Char) : Prop := ∀ c ∈ text, c.toNat < 128

instance (text : List Char) : Decidable (Ascii text) :=
  List.decidableBAll (fun c : Char => c.toNat < 128) text

/-- Every character is one byte. -/
@[simp] theorem length_charBytes (text : List Char) : (charBytes text).length = text.length :=
  List.length_map _

/-- ASCII is read back from its bytes. -/
theorem byteChars_charBytes {text : List Char} (h : Ascii text) :
    byteChars (charBytes text) = text := by
  rw [byteChars, charBytes, List.map_map]
  refine (List.map_congr_left fun c hc => ?_).trans (List.map_id text)
  have hbyte : (UInt8.ofNat c.toNat).toNat = c.toNat := by
    rw [UInt8.toNat_ofNat']
    have := h c hc
    omega
  rw [Function.comp_apply, hbyte, Char.ofNat_toNat]
  rfl

/-- Two ASCII texts in a row are ASCII. -/
theorem Ascii.append {s t : List Char} (hs : Ascii s) (ht : Ascii t) : Ascii (s ++ t) := by
  intro c hc
  rcases List.mem_append.mp hc with h | h
  · exact hs c h
  · exact ht c h

/-- A text with no other characters than an ASCII text is ASCII. -/
theorem Ascii.subset {s t : List Char} (h : Ascii t) (hsub : s ⊆ t) : Ascii s :=
  fun c hc => h c (hsub hc)

/-- Digits are ASCII. -/
theorem Ascii.of_isDigit {text : List Char} (h : ∀ c ∈ text, c.isDigit = true) : Ascii text := by
  intro c hc
  have hdigit := h c hc
  rw [Char.isDigit, Bool.and_eq_true, decide_eq_true_eq, decide_eq_true_eq] at hdigit
  have hle : c.val.toNat ≤ 57 := hdigit.2
  exact hle.trans_lt (by omega)

end NoiseLevel.Core
