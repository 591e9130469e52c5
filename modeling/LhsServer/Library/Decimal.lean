import LhsServer.Library.Bytes
import Mathlib.Data.Int.Notation

/-!
# Decimal numbers

The decimal representation of an integer as bytes, and the number a string of digits stands for.

- `readDecimal_decimal`: reading what was written gives the number back;
- `mem_decimal`: the representation is made of digits and a minus sign.
-/

namespace Bytes

/-- The digits of a natural number, most significant first. -/
def digits (n : ℕ) : Bytes := (Nat.toDigits 10 n).map fun c => c.toNat.toUInt8

/-- The decimal representation of an integer, as `%d` writes it. -/
def decimal (n : ℤ) : Bytes := if n < 0 then 45 :: digits n.natAbs else digits n.natAbs

/-- The number a string of digits stands for. -/
def readDigits (s : Bytes) : ℕ := s.foldl (fun n c => 10 * n + (c.toNat - 48)) 0

/-- The integer a decimal representation stands for. -/
def readDecimal : Bytes → ℤ
  | 45 :: s => -(readDigits s : ℤ)
  | s => readDigits s

theorem digits_eq (n : ℕ) :
    digits n = (if n < 10 then [] else digits (n / 10)) ++ [(48 + n % 10).toUInt8] := by
  have hchar : ∀ d < 10, d.digitChar.toNat.toUInt8 = (48 + d).toUInt8 := by decide
  -- `Nat.toDigits` peels the last digit off; below 10 there is only that one
  rw [digits, Nat.toDigits_eq_if (by omega)]
  split
  · rename_i h
    simp [hchar n h, Nat.mod_eq_of_lt h]
  · simp [digits, hchar (n % 10) (Nat.mod_lt n (by omega))]

theorem digits_ne_nil (n : ℕ) : digits n ≠ [] := by
  rw [digits_eq]
  simp

/-- Every digit is a byte from `0` to `9`. -/
theorem mem_digits {n : ℕ} {c : UInt8} (h : c ∈ digits n) : 48 ≤ c.toNat ∧ c.toNat ≤ 57 := by
  induction n using Nat.strong_induction_on with
  | _ n ih =>
    have hlast : (48 + n % 10).toUInt8.toNat = 48 + n % 10 := by
      simp only [Nat.toUInt8_eq, UInt8.toNat_ofNat']
      omega
    -- the digits of `n` are those of `n / 10`, which is smaller, and the last one
    rw [digits_eq] at h
    split at h
    · simp only [List.nil_append, List.mem_singleton] at h
      rw [h, hlast]
      omega
    · rcases List.mem_append.mp h with h | h
      · exact ih (n / 10) (by omega) h
      · rw [List.mem_singleton.mp h, hlast]
        omega

theorem readDigits_digits (n : ℕ) : readDigits (digits n) = n := by
  induction n using Nat.strong_induction_on with
  | _ n ih =>
    have hlast : (48 + n % 10).toUInt8.toNat = 48 + n % 10 := by
      simp only [Nat.toUInt8_eq, UInt8.toNat_ofNat']
      omega
    -- reading the last digit multiplies what was read before by 10
    rw [digits_eq, readDigits, List.foldl_append]
    split
    · simp only [List.foldl_nil, List.foldl_cons, hlast]
      omega
    · have hread := ih (n / 10) (by omega)
      rw [readDigits] at hread
      simp only [hread, List.foldl_nil, List.foldl_cons, hlast]
      omega

/-- The representation of an integer is made of digits and a minus sign. -/
theorem mem_decimal {n : ℤ} {c : UInt8} (h : c ∈ decimal n) :
    c = 45 ∨ (48 ≤ c.toNat ∧ c.toNat ≤ 57) := by
  rw [decimal] at h
  split at h
  · rcases List.mem_cons.mp h with h | h
    · exact Or.inl h
    · exact Or.inr (mem_digits h)
  · exact Or.inr (mem_digits h)

/-- Reading the representation of an integer gives the integer back. -/
theorem readDecimal_decimal (n : ℤ) : readDecimal (decimal n) = n := by
  rw [decimal]
  split
  · simp only [readDecimal, readDigits_digits]
    omega
  · have hread : readDecimal (digits n.natAbs) = readDigits (digits n.natAbs) := by
      -- the first byte is a digit, so that the branch for the minus sign is not taken
      unfold readDecimal
      split
      · rename_i s heq
        have hminus : (45 : UInt8) ∈ digits n.natAbs := by rw [heq]; simp
        have := mem_digits hminus
        simp at this
      · rfl
    rw [hread, readDigits_digits]
    omega

end Bytes
