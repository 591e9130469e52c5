import LhsServer.Correctness.StaticContent

/-!
# Reading a file

The loop of `get_file_content` reads a file in blocks, each of them into a vector of the full size
that is cut to the number of bytes the stream reports. The end of the file shows in one of two ways:
a block is short, or, when the length of the file is a multiple of the block size, the block behind
the last full one is empty.

- `readBlock_eq`: what a pass does, and that neither way of ending adds or drops a byte;
- `Holds`: after a number of passes the buffer holds that many blocks, and the rest is in the
  stream;
- `getFileContent_exact`: the loop ends with the content of the file;
- `ends_readBlocks`: `readBlocks` is the result of the loop, also for a file that cannot be opened.
-/

namespace Lhs.Middleware.StaticFile

open Bytes

/-! ## A pass -/

/-- An `int` has the number of bytes in a block. -/
theorem toInt_of_le {n : ℕ} (h : n ≤ blockSize) : toInt n = n := by
  have hle : n ≤ 8192 := h
  exact Int32.toInt_ofNat_of_lt (by omega)

/-- Cutting the vector to the number of bytes that were stored leaves these bytes. -/
theorem resize_stored (stored padding : Bytes) :
    resize (stored ++ padding) stored.length = stored := by
  simp [resize]

/-- The bytes the next pass stores in the block. -/
def ReadState.stored (s : ReadState) : Bytes :=
  if s.io.good then s.io.rest.take blockSize else []

/-- The stream behind the next pass. -/
def ReadState.ioNext (s : ReadState) : Ifstream :=
  { rest := if s.io.good then s.io.rest.drop blockSize else s.io.rest
    good := s.io.good && decide (blockSize ≤ s.io.rest.length)
    gcount := s.stored.length }

theorem ReadState.length_stored_le (s : ReadState) : s.stored.length ≤ blockSize := by
  rw [ReadState.stored]
  split
  · exact List.length_take_le _ _
  · exact Nat.zero_le _

/-- A `read` overwrites the start of the block with the bytes it stores. -/
theorem ReadState.read_io (s : ReadState) (block : Bytes) :
    s.io.read block blockSize = (s.ioNext, s.stored ++ block.drop s.stored.length) := by
  rcases s with ⟨⟨rest, good, gcount⟩, buffer⟩
  cases good <;> simp [Ifstream.read, ReadState.ioNext, ReadState.stored]

/-- A pass that stores less than a block ends the loop, be it that it stores nothing. -/
theorem readBlock_eq (s : ReadState) :
    readBlock s =
      if s.stored.length < blockSize then .stop (.ok (s.buffer ++ s.stored))
      else .next { io := s.ioNext, buffer := s.buffer ++ s.stored } := by
  have hint : toInt s.ioNext.gcount = s.stored.length := toInt_of_le s.length_stored_le
  have hnonneg : ¬0 > (s.stored.length : ℤ) := by omega
  simp only [readBlock, s.read_io, hint, if_neg hnonneg, Int.toNat_natCast, resize_stored,
    Int.ofNat_lt, Int.natCast_eq_zero, List.length_eq_zero_iff]
  by_cases hempty : s.stored = []
  · -- the break on `0 == read_size`
    have hlt : s.stored.length < blockSize := by
      rw [hempty]
      decide
    rw [if_pos hempty, if_pos hlt, hempty, List.append_nil]
  · rw [if_neg hempty]

/-- No pass takes the error branch, whatever the state of the stream. -/
theorem readBlock_ne_error (s : ReadState) (fault : Fault) :
    readBlock s ≠ .stop (.error fault) := by
  rw [readBlock_eq]
  split <;> simp

/-! ## The loop -/

/-- After `n` passes the first `n` blocks of the content are in the buffer, and what follows them
has yet to be read. -/
structure Holds (content : Bytes) (n : ℕ) (s : ReadState) : Prop where
  le : n * blockSize ≤ content.length
  good : s.io.good = true
  rest : s.io.rest = content.drop (n * blockSize)
  buffer : s.buffer = content.take (n * blockSize)

namespace Holds

variable {content : Bytes} {n : ℕ} {s s' : ReadState}

theorem new (content : Bytes) : Holds content 0 (.new (some content)) where
  le := by simp
  good := rfl
  rest := by simp [ReadState.new, Ifstream.new]
  buffer := by simp [ReadState.new]

theorem stored (h : Holds content n s) :
    s.stored = (content.drop (n * blockSize)).take blockSize := by
  rw [ReadState.stored, if_pos h.good, h.rest]

/-- With the block of the next pass, the buffer is the content up to the end of that block. -/
theorem buffer_append_stored (h : Holds content n s) :
    s.buffer ++ s.stored = content.take ((n + 1) * blockSize) := by
  rw [h.buffer, h.stored, ← List.take_add, Nat.succ_mul]

theorem next (h : Holds content n s) (hnext : readBlock s = .next s') :
    Holds content (n + 1) s' := by
  rw [readBlock_eq] at hnext
  split at hnext
  · cases hnext
  · rename_i hfull
    -- a full block was left
    have hle : blockSize ≤ s.io.rest.length := by
      rw [h.stored, ← h.rest, List.length_take] at hfull
      omega
    cases hnext
    exact {
      le := by
        rw [h.rest, List.length_drop] at hle
        have := h.le
        rw [Nat.succ_mul]
        omega
      good := by simp [ReadState.ioNext, h.good, hle]
      rest := by simp [ReadState.ioNext, h.good, h.rest, Nat.succ_mul]
      buffer := h.buffer_append_stored }

/-- The pass that stops has read the rest of the content, and it is the one behind the last full
block. -/
theorem stop {result : Run Bytes} (h : Holds content n s) (hstop : readBlock s = .stop result) :
    result = .ok content ∧ n = content.length / blockSize := by
  rw [readBlock_eq] at hstop
  split at hstop
  · rename_i hshort
    have hlt : content.length < (n + 1) * blockSize := by
      have := h.le
      rw [h.stored, List.length_take, List.length_drop] at hshort
      rw [Nat.succ_mul]
      omega
    cases hstop
    constructor
    · rw [h.buffer_append_stored, List.take_of_length_le hlt.le]
    · exact (Nat.div_eq_of_lt_le h.le hlt).symm
  · cases hstop

/-- There are no more passes than blocks. -/
theorem passes_le (h : Holds content n s) : n ≤ content.length :=
  calc n ≤ n * blockSize := Nat.le_mul_of_pos_right n (by decide)
    _ ≤ content.length := h.le

theorem of_reaches (h : Loop.Reaches readBlock (.new (some content)) n s) : Holds content n s :=
  h.invariant (Holds.new content) fun _ _ _ hs hnext => hs.next hnext

end Holds

/-- The loop ends in the pass behind the last full block, with the content of the file. -/
theorem ends_readBlock (content : Bytes) :
    Loop.Ends readBlock (.new (some content)) (content.length / blockSize + 1) (.ok content) := by
  obtain ⟨n, s, result, hs, hstop, hends⟩ :=
    Loop.exists_ends (Holds.new content) (fun _ _ _ hs hnext => hs.next hnext)
      (fun _ _ hs => hs.passes_le)
  obtain ⟨rfl, rfl⟩ := hs.stop hstop
  exact hends

/-- A file that cannot be opened takes one pass and has no content. -/
theorem ends_readBlock_none : Loop.Ends readBlock (.new none) 1 (.ok []) :=
  .of_reaches .start (by rw [readBlock_eq]; rfl)

/-- `readBlocks` is the result of the loop. -/
theorem ends_readBlocks (content : Option Bytes) :
    ∃ n, Loop.Ends readBlock (.new content) n (readBlocks (content.getD []) []) := by
  rw [readBlocks_eq, List.nil_append]
  cases content with
  | none => exact ⟨_, ends_readBlock_none⟩
  | some content => exact ⟨_, ends_readBlock content⟩

/-- The loop of `get_file_content` reads a stream of any length exactly. It ends in the pass behind
the last full block with the bytes of the stream; after each number of passes the buffer has that
many blocks of them and the stream has the others; no pass throws. -/
theorem getFileContent_exact (content : Bytes) :
    Loop.Ends readBlock (.new (some content)) (content.length / blockSize + 1) (.ok content) ∧
    (∀ n s, Loop.Reaches readBlock (.new (some content)) n s →
      s.buffer = content.take (n * blockSize) ∧ s.io.rest = content.drop (n * blockSize) ∧
      ∀ fault, readBlock s ≠ .stop (.error fault)) ∧
    ∀ (file : Bytes) (fs : FileSystem), fs.ifstream (cstr file) = some content →
      (getFileContent file).value fs = .ok content := by
  refine ⟨ends_readBlock content, ?_, ?_⟩
  · intro n s hreaches
    have hs := Holds.of_reaches hreaches
    exact ⟨hs.buffer, hs.rest, readBlock_ne_error s⟩
  · intro file fs hopen
    rw [value_getFileContent, hopen, Option.getD_some]

/-- A content of exactly two blocks. -/
def twoBlocks : Bytes := List.replicate (2 * blockSize) 120

theorem length_twoBlocks : twoBlocks.length = 2 * blockSize := List.length_replicate

/-- The third pass finds nothing left. -/
theorem getFileContent_exact_sample :
    Loop.Ends readBlock (.new (some twoBlocks)) 3 (.ok twoBlocks) ∧
    (ReadState.new (some twoBlocks)).stored = twoBlocks.take blockSize ∧
    (getFileContent (str "a")).value (.ofFiles [(str "a", twoBlocks)]) = .ok twoBlocks := by
  obtain ⟨hends, hpasses, hvalue⟩ := getFileContent_exact twoBlocks
  refine ⟨?_, ?_, ?_⟩
  · rwa [length_twoBlocks] at hends
  · have hfull : ¬(ReadState.new (some twoBlocks)).stored.length < blockSize := by
      rw [(Holds.new twoBlocks).stored, List.length_take, List.length_drop, length_twoBlocks]
      decide
    have hpass := readBlock_eq (.new (some twoBlocks))
    rw [if_neg hfull] at hpass
    -- the first pass is followed by another one
    exact (hpasses 1 _ (.next .start hpass)).1
  · exact hvalue (str "a") _ (by rfl)

end Lhs.Middleware.StaticFile
