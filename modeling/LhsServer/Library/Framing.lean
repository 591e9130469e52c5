import LhsServer.Library.Bytes

/-!
# Text in front of a body

Lines that end in CRLF, and blocks of them that end in an empty line: the frame in which a text
header stands before a body of arbitrary bytes.

- `cut_append`: the two sides of the first separator;
- `breakLine_append`: the first line of a text, and what follows it;
- `breakBlock_append`: the lines of a block are found again before any body, since the first empty
  line is the one behind them.
-/

namespace Framing

open Bytes

/-- What stands before and behind the first `c`. -/
def cut (c : UInt8) (s : Bytes) : Option (Bytes × Bytes) :=
  match find s c with
  | some i => some (s.take i, s.drop (i + 1))
  | none => none

theorem cut_append {c : UInt8} {s : Bytes} (h : c ∉ s) (t : Bytes) :
    cut c (s ++ c :: t) = some (s, t) := by
  rw [cut, find_append_cons h]
  simp

theorem cut_eq_none_iff {c : UInt8} {s : Bytes} : cut c s = none ↔ c ∉ s := by
  rw [← find_eq_none_iff, cut]
  cases find s c <;> simp

/-- The first line without its CRLF, and what follows. -/
def breakLine : Bytes → Option (Bytes × Bytes)
  | [] => none
  | 13 :: 10 :: s => some ([], s)
  | c :: s => (breakLine s).map fun (line, rest) => (c :: line, rest)

theorem breakLine_crlf (s : Bytes) : breakLine (CRLF ++ s) = some ([], s) := rfl

theorem breakLine_cons {c : UInt8} (hc : c ≠ CR) (s : Bytes) :
    breakLine (c :: s) = (breakLine s).map fun (line, rest) => (c :: line, rest) := by
  rw [breakLine]
  rintro t hcr -
  exact absurd hcr hc

/-- A line without a CR is the first line of every text it begins. -/
theorem breakLine_append {line : Bytes} (h : CR ∉ line) (rest : Bytes) :
    breakLine (line ++ CRLF ++ rest) = some (line, rest) := by
  induction line with
  | nil => exact breakLine_crlf rest
  | cons c line ih =>
    obtain ⟨hc, hline⟩ := not_or.mp (mt List.mem_cons.mpr h)
    rw [List.cons_append, List.cons_append, breakLine_cons (Ne.symm hc), ih hline]
    rfl

/-- A line takes at least the two bytes of its end. -/
theorem length_of_breakLine {s line rest : Bytes} (h : breakLine s = some (line, rest)) :
    rest.length < s.length := by
  induction s using breakLine.induct generalizing line rest with
  | case1 => cases h
  | case2 s =>
    cases h
    simp only [List.length_cons]
    omega
  -- the end of the line lies behind `c`, in a shorter text
  | case3 c s hcrlf ih =>
    rw [breakLine] at h
    · obtain ⟨⟨line', rest'⟩, hs, heq⟩ := Option.map_eq_some_iff.mp h
      cases heq
      exact (ih hs).trans (Nat.lt_succ_self _)
    · exact hcrlf

/-- The lines before the first empty one, and what follows that. -/
def breakBlock (s : Bytes) : Option (List Bytes × Bytes) :=
  match _h : breakLine s with
  | none => none
  | some ([], rest) => some ([], rest)
  | some (line, rest) =>
    (breakBlock rest).map fun (lines, body) => (line :: lines, body)
termination_by s.length
decreasing_by exact length_of_breakLine ‹_›

theorem breakBlock_of_empty {s rest : Bytes} (h : breakLine s = some ([], rest)) :
    breakBlock s = some ([], rest) := by
  rw [breakBlock]
  split <;> simp_all

theorem breakBlock_of_line {s line rest : Bytes} (h : breakLine s = some (line, rest))
    (hne : line ≠ []) :
    breakBlock s = (breakBlock rest).map fun (lines, body) => (line :: lines, body) := by
  rw [breakBlock]
  split <;> simp_all

/-- The lines of a block and the body behind it are found again, whatever the body is. -/
theorem breakBlock_append {lines : List Bytes} (h : ∀ line ∈ lines, line ≠ [] ∧ CR ∉ line)
    (body : Bytes) :
    breakBlock (lines.flatMap (· ++ CRLF) ++ CRLF ++ body) = some (lines, body) := by
  induction lines with
  | nil => exact breakBlock_of_empty (breakLine_crlf body)
  | cons line lines ih =>
    obtain ⟨⟨hne, hcr⟩, hlines⟩ := List.forall_mem_cons.mp h
    have hline : breakLine ((line :: lines).flatMap (· ++ CRLF) ++ CRLF ++ body) =
        some (line, lines.flatMap (· ++ CRLF) ++ CRLF ++ body) := by
      -- only the brackets differ: the rest of the text is the block of the other lines
      rw [← breakLine_append hcr]
      simp
    rw [breakBlock_of_line hline hne, ih hlines]
    rfl

end Framing
