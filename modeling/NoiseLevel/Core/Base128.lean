import Mathlib.Data.Nat.Log
import Mathlib.Tactic

/-!
# Numbers in base 128

A number is written as bytes with seven bits each, lowest first, the top bit set on every
byte but the last. The writer has room for a bounded number of bytes and the reader takes
at most as many.
-/

namespace NoiseLevel.Core

/-- Writes a number into an array with room for so many bytes. -/
def encode128 : ℕ → ℕ → Option (List UInt8)
  | 0, _ => none
  | room + 1, n =>
    if n / 128 = 0 then some [UInt8.ofNat (n % 128)]
    else (encode128 room (n / 128)).map fun bytes => (UInt8.ofNat (n % 128) ||| 0x80) :: bytes

/-- Reads a number of at most so many bytes, and leaves the bytes after it. -/
def decode128 : ℕ → List UInt8 → Option (ℕ × List UInt8)
  | 0, _ => none
  | _ + 1, [] => none
  | room + 1, b :: bytes =>
    if b.toNat < 128 then some (b.toNat, bytes)
    else (decode128 room bytes).map fun r => (b.toNat % 128 + 128 * r.1, r.2)

theorem toNat_lastDigit (n : ℕ) : (UInt8.ofNat (n % 128)).toNat = n % 128 := by
  rw [UInt8.toNat_ofNat']
  omega

theorem toNat_moreDigit (n : ℕ) : (UInt8.ofNat (n % 128) ||| 0x80).toNat = n % 128 + 128 := by
  have htop : (0x80 : UInt8).toNat = 2 ^ 7 * 1 := rfl
  rw [UInt8.toNat_or, toNat_lastDigit, htop, Nat.or_comm,
    ← Nat.two_pow_add_eq_or_of_lt (Nat.mod_lt n (Nat.two_pow_pos 7))]
  omega

/-- A number is written exactly when its digits fit. -/
theorem isSome_encode128_iff {room n : ℕ} :
    (encode128 (room + 1) n).isSome ↔ n < 128 ^ (room + 1) := by
  induction room generalizing n with
  | zero =>
    rw [encode128]
    split_ifs with h
    · exact iff_of_true rfl (by omega)
    · exact iff_of_false (by simp [encode128]) (by omega)
  | succ room ih =>
    rw [encode128, pow_succ, ← Nat.div_lt_iff_lt_mul (by omega)]
    split_ifs with h
    · exact iff_of_true rfl (h ▸ by positivity)
    · rw [Option.isSome_map, ih]

/-- The reader takes back what the writer wrote, whatever follows. -/
theorem decode128_append {room n : ℕ} {bytes : List UInt8} (h : encode128 room n = some bytes)
    (rest : List UInt8) : decode128 room (bytes ++ rest) = some (n, rest) := by
  induction room generalizing n bytes with
  | zero => exact absurd h nofun
  | succ room ih =>
    rw [encode128] at h
    split_ifs at h with hlast
    · obtain rfl := Option.some.inj h
      have hdigit := toNat_lastDigit n
      rw [List.singleton_append, decode128, if_pos (by omega), hdigit, Nat.mod_eq_of_lt]
      omega
    · obtain ⟨tail, htail, rfl⟩ := Option.map_eq_some_iff.mp h
      have hdigit := toNat_moreDigit n
      rw [List.cons_append, decode128, if_neg (by omega), ih htail, hdigit, Option.map_some]
      congr 2
      omega

/-- A number that was read is still read when more bytes arrive. -/
theorem decode128_append_right {room n : ℕ} {bytes rest : List UInt8}
    (h : decode128 room bytes = some (n, rest)) (more : List UInt8) :
    decode128 room (bytes ++ more) = some (n, rest ++ more) := by
  induction room generalizing n bytes with
  | zero => exact absurd h nofun
  | succ room ih =>
    cases bytes with
    | nil => exact absurd h nofun
    | cons b bytes =>
      rw [decode128] at h
      rw [List.cons_append, decode128]
      split_ifs at h ⊢
      · obtain ⟨rfl, rfl⟩ := Prod.mk.inj (Option.some.inj h)
        rfl
      · obtain ⟨⟨m, r⟩, hread, heq⟩ := Option.map_eq_some_iff.mp h
        obtain ⟨rfl, rfl⟩ := Prod.mk.inj heq
        rw [ih hread, Option.map_some]

/-- The bytes of a number, and that there is at least one. -/
theorem length_encode128 {room n : ℕ} {bytes : List UInt8} (h : encode128 room n = some bytes) :
    0 < bytes.length ∧ bytes.length ≤ room := by
  induction room generalizing n bytes with
  | zero => exact absurd h nofun
  | succ room ih =>
    rw [encode128] at h
    split_ifs at h
    · obtain rfl := Option.some.inj h
      simp
    · obtain ⟨tail, htail, rfl⟩ := Option.map_eq_some_iff.mp h
      have := ih htail
      simp only [List.length_cons]
      omega

end NoiseLevel.Core
