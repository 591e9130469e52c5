import Mathlib.Data.List.TakeWhile

/-!
# Byte strings

Byte strings as lists of `UInt8`, with the operations of C and C++ strings a server is written
in: literals, the cut a C string makes at its first NUL, and the search for the first or the last
occurrence of a character. A failed search is `none`, the `npos` of `std::string`.

- `upTo_find`, `after_find`: the pieces around the first occurrence of a character;
- `cstr_append_of_nul_not_mem`: what precedes a NUL survives the cut.
-/

/-- A byte string: the contents of a `std::string` or of a `std::vector<char>`. -/
abbrev Bytes := List UInt8

namespace Bytes

/-- The bytes of a string literal. -/
def str (s : String) : Bytes := s.toList.map fun c => c.toNat.toUInt8

/-- The bytes of a literal. Rewriting with this spares the kernel the UTF-8 encoding of the literal,
which takes it long for one of more than a few dozen characters. -/
theorem str_ofList (l : List Char) : str (String.ofList l) = l.map fun c => c.toNat.toUInt8 := by
  rw [str, String.toList_ofList]

def NUL : UInt8 := 0

def LF : UInt8 := 10

def CR : UInt8 := 13

def SP : UInt8 := 32

def amp : UInt8 := 38

def dot : UInt8 := 46

def slash : UInt8 := 47

def colon : UInt8 := 58

def equals : UInt8 := 61

def question : UInt8 := 63

/-- The end of a line on the wire. -/
def CRLF : Bytes := [CR, LF]

/-- `s.c_str()` as a C function reads it: cut at the first NUL. -/
def cstr (s : Bytes) : Bytes := s.takeWhile (· != NUL)

/-- `s.find_first_of(c)` for one character; `none` is `npos`. -/
def find (s : Bytes) (c : UInt8) : Option ℕ := s.findIdx? (· == c)

/-- `s.find_last_of(c)` for one character; `none` is `npos`. -/
def findLast (s : Bytes) (c : UInt8) : Option ℕ :=
  (find s.reverse c).map fun i => s.length - 1 - i

/-- `std::string(s, 0, found)`: at most `found` characters, all of them for `npos`. -/
def upTo (s : Bytes) : Option ℕ → Bytes
  | none => s
  | some found => s.take found

/-- `std::string(s, found + 1)`: for `npos` the sum wraps to `0`, which is the whole string. -/
def after (s : Bytes) : Option ℕ → Bytes
  | none => s
  | some found => s.drop (found + 1)

/-! ## Search -/

theorem find_append_cons {s : Bytes} {c : UInt8} (h : c ∉ s) (t : Bytes) :
    find (s ++ c :: t) c = some s.length := by
  induction s with
  | nil => simp [find, List.findIdx?_cons]
  | cons a s ih =>
    simp only [List.mem_cons, not_or] at h
    have ih' := ih h.2
    simp only [find] at ih' ⊢
    simp [List.findIdx?_cons, ih', Ne.symm h.1]

theorem find_eq_none_iff {s : Bytes} {c : UInt8} : find s c = none ↔ c ∉ s := by
  simp only [find, List.findIdx?_eq_none_iff, beq_eq_false_iff_ne]
  exact ⟨fun h hc => h c hc rfl, fun h x hx hxc => h (hxc ▸ hx)⟩

/-- The text before the first `c`. -/
theorem upTo_find {s : Bytes} {c : UInt8} (h : c ∉ s) (t : Bytes) :
    upTo (s ++ c :: t) (find (s ++ c :: t) c) = s := by
  simp [find_append_cons h, upTo]

/-- The text after the first `c`. -/
theorem after_find {s : Bytes} {c : UInt8} (h : c ∉ s) (t : Bytes) :
    after (s ++ c :: t) (find (s ++ c :: t) c) = t := by
  simp [find_append_cons h, after]

/-- What occurs in texts joined by a separator is the separator or occurs in one of them. -/
theorem mem_intercalate {c sep : UInt8} {texts : List Bytes} (h : c ∈ [sep].intercalate texts) :
    c = sep ∨ ∃ text ∈ texts, c ∈ text := by
  induction texts with
  | nil => simp at h
  | cons text texts ih =>
    cases texts with
    | nil => exact Or.inr ⟨text, List.mem_cons_self, by simpa using h⟩
    | cons next texts =>
      rw [List.intercalate_cons_cons, List.mem_append, List.mem_append, List.mem_singleton] at h
      rcases h with (h | h) | h
      · exact Or.inr ⟨text, List.mem_cons_self, h⟩
      · exact Or.inl h
      · rcases ih h with h | ⟨t, ht, h⟩
        · exact Or.inl h
        · exact Or.inr ⟨t, List.mem_cons_of_mem _ ht, h⟩

/-! ## C strings -/

/-- What precedes the first NUL survives the cut. -/
theorem cstr_append_of_nul_not_mem {s : Bytes} (h : NUL ∉ s) (t : Bytes) :
    cstr (s ++ t) = s ++ cstr t := by
  rw [cstr, List.takeWhile_append_of_pos, cstr]
  intro x hx
  rw [bne_iff_ne]
  rintro rfl
  exact h hx

theorem cstr_of_nul_not_mem {s : Bytes} (h : NUL ∉ s) : cstr s = s := by
  simpa [cstr] using cstr_append_of_nul_not_mem h []

/-- Nothing behind a NUL survives it. -/
theorem cstr_append_of_nul_mem {s : Bytes} (h : NUL ∈ s) (t : Bytes) :
    cstr (s ++ t) = cstr s := by
  obtain ⟨l, r, rfl, hl⟩ := List.eq_append_cons_of_mem h
  -- both sides are cut at the first NUL of `s`, which stands behind `l`
  rw [List.append_assoc, cstr_append_of_nul_not_mem hl, cstr_append_of_nul_not_mem hl]
  simp [cstr]

theorem nul_not_mem_cstr (s : Bytes) : NUL ∉ cstr s := fun h => by
  simpa using List.mem_takeWhile_imp h

theorem cstr_isPrefixOf (s : Bytes) : cstr s <+: s := List.takeWhile_prefix _

end Bytes
