import LhsServer.Library.Bytes

/-!
# Percent-encoding

The percent-encoding of byte strings for the parts of a uri: letters, digits and `-`, `.`, `_`, `~`
stand for themselves, every other byte is written as `%` and two hexadecimal digits.

- `decode_encode`: decoding gives back what was encoded;
- `mem_encode`: the bytes that occur in an encoded text.
-/

namespace Percent

/-- The character `%`. -/
def percent : UInt8 := 37

/-- The bytes that stand for themselves. -/
def unreserved (c : UInt8) : Bool :=
  (48 ≤ c && c ≤ 57) || (65 ≤ c && c ≤ 90) || (97 ≤ c && c ≤ 122) ||
    c == 45 || c == 46 || c == 95 || c == 126

/-- A hexadecimal digit. -/
def hexDigit (n : ℕ) : UInt8 := if n < 10 then (48 + n).toUInt8 else (55 + n).toUInt8

/-- The value of a hexadecimal digit, of either case. -/
def hexValue (c : UInt8) : Option ℕ :=
  if 48 ≤ c ∧ c ≤ 57 then some (c.toNat - 48)
  else if 65 ≤ c ∧ c ≤ 70 then some (c.toNat - 55)
  else if 97 ≤ c ∧ c ≤ 102 then some (c.toNat - 87)
  else none

/-- The encoding of one byte. -/
def encodeByte (c : UInt8) : Bytes :=
  if unreserved c then [c] else [percent, hexDigit (c.toNat / 16), hexDigit (c.toNat % 16)]

/-- The encoding of a text. -/
def encode (s : Bytes) : Bytes := s.flatMap encodeByte

/-- Replace every `%` and the two digits behind it by the byte they stand for; a `%` that is not
followed by two digits stands for itself. -/
def decode : Bytes → Bytes
  | 37 :: high :: low :: s =>
    match hexValue high, hexValue low with
    | some h, some l => (16 * h + l).toUInt8 :: decode s
    | _, _ => 37 :: decode (high :: low :: s)
  | c :: s => c :: decode s
  | [] => []

theorem hexValue_hexDigit : ∀ n < 16, hexValue (hexDigit n) = some n := by decide

theorem decode_cons {c : UInt8} (hc : c ≠ percent) (s : Bytes) :
    decode (c :: s) = c :: decode s := by
  rw [decode]
  rintro high low t hpercent -
  exact absurd hpercent hc

/-- The encoding of a byte is read back as this byte. -/
theorem decode_encodeByte (c : UInt8) (s : Bytes) :
    decode (encodeByte c ++ s) = c :: decode s := by
  have hlt : c.toNat < 256 := c.toNat_lt
  rw [encodeByte]
  split
  · rename_i hc
    refine decode_cons ?_ s
    rintro rfl
    exact absurd hc (by decide)
  -- the two digits are the two halves of the byte
  · have hhigh := hexValue_hexDigit (c.toNat / 16) (by omega)
    have hlow := hexValue_hexDigit (c.toNat % 16) (by omega)
    have hbyte : (16 * (c.toNat / 16) + c.toNat % 16).toUInt8 = c := by
      rw [Nat.div_add_mod]
      exact UInt8.ofNat_toNat
    show decode (37 :: hexDigit (c.toNat / 16) :: hexDigit (c.toNat % 16) :: s) = _
    rw [decode, hhigh, hlow]
    simp only [hbyte]

/-- Decoding gives back what was encoded. -/
theorem decode_encode (s : Bytes) : decode (encode s) = s := by
  induction s with
  | nil => rfl
  | cons c s ih => rw [encode, List.flatMap_cons, decode_encodeByte, ← encode, ih]

/-- An encoded text is made of the bytes that stand for themselves and of `%`. -/
theorem mem_encode {c : UInt8} {s : Bytes} (h : c ∈ encode s) :
    unreserved c = true ∨ c = percent := by
  have hdigit : ∀ n < 16, unreserved (hexDigit n) = true := by decide
  obtain ⟨b, -, hc⟩ := List.mem_flatMap.mp h
  have hlt : b.toNat < 256 := b.toNat_lt
  rw [encodeByte] at hc
  split at hc
  · rename_i hb
    rw [List.mem_singleton.mp hc]
    exact Or.inl hb
  · simp only [List.mem_cons, List.not_mem_nil, or_false] at hc
    rcases hc with rfl | rfl | rfl
    · exact Or.inr rfl
    · exact Or.inl (hdigit _ (by omega))
    · exact Or.inl (hdigit _ (by omega))

end Percent
