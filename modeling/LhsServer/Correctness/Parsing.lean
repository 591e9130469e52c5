import LhsServer.Protocol.Http.Request
import Mathlib.Algebra.GroupWithZero.Nat

/-!
# What the request parser accepts

The parser as a relation between bytes and requests. The lines of the input, with a CR removed from
the end of each, are the request line, the header lines, an empty line and anything else; the
request they encode is read off them (`Encodes`).

- `parse_eq_ok_iff`: the parser returns exactly the encoded requests, as long as the access to the
  last character of an empty line is harmless (`SafeAccess`);
- `parse_of_no_empty_line`, `parse_of_no_line`: what happens to input without an empty line, and to
  input without any line;
- `offset_le_length`: the offset of the body lies within the input.
-/

namespace Lhs.Http.Request

open Bytes Lines

/-! ## Lines -/

/-- A line without the CR at its end, if it has one. -/
def stripCR (line : Bytes) : Bytes := if line.getLast? = some CR then line.dropLast else line

/-- The lines of the input, each without a CR at its end. -/
def linesOf (data : Bytes) : List Bytes := (getlines LF data).map stripCR

/-- No line of the input is empty, or the character read in place of the last one of an empty line
is not a CR. -/
def SafeAccess (mem : Memory) (data : Bytes) : Prop :=
  [] ∈ getlines LF data → ∃ c, mem.lineBack = some c ∧ c ≠ CR

/-- Removing a CR makes no line longer. -/
theorem stripCR_length_le (line : Bytes) : (stripCR line).length ≤ line.length := by
  rw [stripCR]
  split
  · simp
  · exact le_rfl

/-- And adds no character. -/
theorem mem_of_mem_stripCR {line : Bytes} {c : UInt8} (h : c ∈ stripCR line) : c ∈ line := by
  rw [stripCR] at h
  split at h
  · exact List.mem_of_mem_dropLast h
  · exact h

/-- Only the last CR of a line is removed. -/
theorem stripCR_append_cr (line : Bytes) : stripCR (line ++ [CR]) = line := by
  simp [stripCR]

/-- The last character of a line that is not empty is there. -/
theorem chomp_of_ne_nil (mem : Memory) {line : Bytes} (hne : line ≠ []) :
    chomp mem line = .ok (stripCR line) := by
  obtain ⟨c, hc⟩ := Option.isSome_iff_exists.mp (List.getLast?_isSome.mpr hne)
  simp only [chomp, lastChar, stripCR, hc, hne, Option.some.injEq, if_false, bind, Except.bind]
  split <;> rfl

/-- The test of the last character leaves an empty line as it is, if it is harmless. -/
theorem chomp_nil {mem : Memory} {c : UInt8} (hmem : mem.lineBack = some c) (hc : c ≠ CR) :
    chomp mem [] = .ok [] := by
  simp [chomp, lastChar, hmem, hc, bind, Except.bind, pure, Except.pure]

/-- That of an empty line is not: the access is trapped, or the line gets longer than a string can
be. -/
theorem chomp_nil_fails {mem : Memory} (hmem : ¬∃ c, mem.lineBack = some c ∧ c ≠ CR) :
    ∃ f, chomp mem [] = .error f ∧ (f = .undefined .stringIndex ∨ f = .throw .lengthError) := by
  rcases hback : mem.lineBack with _ | c
  · exact ⟨.undefined .stringIndex, by simp [chomp, lastChar, hback, bind, Except.bind], Or.inl rfl⟩
  · have hc : c = CR := by
      by_contra hne
      exact hmem ⟨c, hback, hne⟩
    refine ⟨.throw .lengthError, ?_, Or.inr rfl⟩
    simp [chomp, lastChar, hback, hc, bind, Except.bind]

/-- All lines are read when the access is harmless wherever it is made. -/
theorem mapM_chomp_of_safe {mem : Memory} {lines : List Bytes}
    (h : [] ∈ lines → ∃ c, mem.lineBack = some c ∧ c ≠ CR) :
    lines.mapM (chomp mem) = .ok (lines.map stripCR) := by
  induction lines with
  | nil => rfl
  | cons line lines ih =>
    have hline : chomp mem line = .ok (stripCR line) := by
      rcases eq_or_ne line [] with rfl | hne
      · obtain ⟨c, hmem, hc⟩ := h List.mem_cons_self
        exact chomp_nil hmem hc
      · exact chomp_of_ne_nil mem hne
    have hrest := ih fun hmem => h (List.mem_cons_of_mem _ hmem)
    rw [List.mapM_cons, hline, hrest]
    rfl

/-- The first empty line stops the loop, if the test of its last character fails. -/
theorem mapM_chomp_of_nil_mem {mem : Memory} {f : Fault} (hf : chomp mem [] = .error f)
    {lines : List Bytes} (hnil : [] ∈ lines) : lines.mapM (chomp mem) = .error f := by
  induction lines with
  | nil => simp at hnil
  | cons line lines ih =>
    rw [List.mapM_cons]
    rcases eq_or_ne line [] with rfl | hne
    · rw [hf]
      rfl
    · rw [chomp_of_ne_nil mem hne, ih (List.mem_of_ne_of_mem (Ne.symm hne) hnil)]
      rfl

/-- Otherwise an empty line ends the reading. -/
theorem mapM_chomp_of_unsafe {mem : Memory} {lines : List Bytes} (hnil : [] ∈ lines)
    (hmem : ¬∃ c, mem.lineBack = some c ∧ c ≠ CR) :
    ∃ f, lines.mapM (chomp mem) = .error f ∧
      (f = .undefined .stringIndex ∨ f = .throw .lengthError) := by
  obtain ⟨f, hf, hcases⟩ := chomp_nil_fails hmem
  exact ⟨f, mapM_chomp_of_nil_mem hf hnil, hcases⟩

/-- With harmless accesses, the deque holds the lines of the input. -/
theorem readLines_of_safe {mem : Memory} {data : Bytes} (h : SafeAccess mem data) :
    readLines mem data = .ok (linesOf data) :=
  mapM_chomp_of_safe h

/-- So it does for the lines of a message. -/
theorem readLines_of_unsafe {mem : Memory} {data : Bytes} (h : ¬SafeAccess mem data) :
    ∃ f, readLines mem data = .error f ∧
      (f = .undefined .stringIndex ∨ f = .throw .lengthError) := by
  rw [SafeAccess, Classical.not_imp] at h
  exact mapM_chomp_of_unsafe h.1 h.2

/-! ## The header -/

/-- The part of the offset that a list of lines adds to it. -/
def offsetOf (lines : List Bytes) : ℕ := (lines.map fun line => line.length + 1).sum

@[simp] theorem offsetOf_nil : offsetOf [] = 0 := rfl

@[simp] theorem offsetOf_cons (line : Bytes) (lines : List Bytes) :
    offsetOf (line :: lines) = line.length + 1 + offsetOf lines := rfl

/-- The header loop reads the lines before the first empty one. -/
theorem parseHeaders_of_empty_line (mgz : Mgz) {headers : List Bytes} (h : [] ∉ headers)
    (rest : List Bytes) (header : Header) (nbchar : ℕ) :
    parseHeaders mgz (headers ++ [] :: rest) header nbchar =
      .ok (headers.foldl (addHeader mgz) header, nbchar + offsetOf headers) := by
  induction headers generalizing header nbchar with
  | nil => simp [parseHeaders]
  | cons line headers ih =>
    -- the first line is a header line: it adds a field and its length
    simp only [List.mem_cons, not_or] at h
    rw [List.cons_append, parseHeaders, if_neg (Ne.symm h.1), ih h.2]
    simp [Nat.add_assoc]

/-- Without an empty line the header loop runs the deque empty. -/
theorem parseHeaders_of_no_empty_line (mgz : Mgz) {lines : List Bytes} (h : [] ∉ lines)
    (header : Header) (nbchar : ℕ) :
    parseHeaders mgz lines header nbchar = .error (.undefined .emptyDeque) := by
  induction lines generalizing header nbchar with
  | nil => rfl
  | cons line lines ih =>
    simp only [List.mem_cons, not_or] at h
    rw [parseHeaders, if_neg (Ne.symm h.1), ih h.2]

/-! ## The offset of the body -/

/-- The offset behind the first empty line lies within the input: a line of the input is at least
as long as what is counted for it, and only the last can lack the LF that is counted with it. -/
theorem offset_le_length {data : Bytes} {lines rest : List Bytes}
    (h : linesOf data = lines ++ [] :: rest) : offsetOf lines + 1 ≤ data.length := by
  induction data using lines_induction LF generalizing lines with
  | nil => simp [linesOf] at h
  | unterminated l hl hne =>
    -- the only line is the empty one, so that no line stands in front of it
    have hlines : lines = [] := by
      rw [linesOf, getlines_of_sep_not_mem hl hne] at h
      rcases lines with _ | ⟨line, lines⟩
      · rfl
      · simp at h
    have hpos := List.length_pos_iff.mpr hne
    rw [hlines, offsetOf_nil]
    omega
  | terminated l s hl ih =>
    rw [linesOf, getlines_append_sep hl, List.map_cons] at h
    simp only [List.length_append, List.length_cons]
    rcases lines with _ | ⟨line, lines⟩
    · rw [offsetOf_nil]
      omega
    -- removing a CR only shortens the line, and its LF is counted
    · rw [List.cons_append, List.cons.injEq] at h
      have hline := stripCR_length_le l
      have hrest := ih h.2
      rw [h.1] at hline
      rw [offsetOf_cons]
      omega

/-! ## The encoded request -/

/-- The bytes encode the request: their lines are a request line that `parse_init` accepts, the
header lines, an empty line and more, and the body is what lies behind the offset. -/
def Encodes (mgz : Mgz) (data : Bytes) (request : Request) : Prop :=
  ∃ init headers rest, linesOf data = init :: headers ++ [] :: rest ∧ [] ∉ headers ∧
    parseInit mgz init = .ok request.toRequestLine ∧
    request.header = headers.foldl (addHeader mgz) .empty ∧
    request.body = data.drop (offsetOf (init :: headers) + 1)

/-- The head of a message with a valid first line and an empty line. -/
theorem parseHead_of_lines (mgz : Mgz) {mem : Memory} {data init : Bytes}
    {headers rest : List Bytes} {line : RequestLine} (hsafe : SafeAccess mem data)
    (hlines : linesOf data = init :: headers ++ [] :: rest) (hheaders : [] ∉ headers)
    (hinit : parseInit mgz init = .ok line) :
    parseHead mgz mem data =
      .ok (line, headers.foldl (addHeader mgz) .empty, offsetOf (init :: headers) + 1) := by
  rw [parseHead, readLines_of_safe hsafe, hlines]
  simp only [bind, Except.bind, List.cons_append, hinit,
    parseHeaders_of_empty_line mgz hheaders, offsetOf_cons, Nat.zero_add]
  rfl

/-- Input without an empty line behind a valid request line runs the deque empty. -/
theorem parse_of_no_empty_line (mgz : Mgz) {mem : Memory} {data init : Bytes}
    {lines : List Bytes} {line : RequestLine} (hsafe : SafeAccess mem data)
    (hlines : linesOf data = init :: lines) (hempty : [] ∉ lines)
    (hinit : parseInit mgz init = .ok line) :
    parse mgz mem data = .error (.undefined .emptyDeque) := by
  rw [parse, parseHead, readLines_of_safe hsafe, hlines]
  simp only [bind, Except.bind, hinit, parseHeaders_of_no_empty_line mgz hempty]

/-- Input without any line is asked for its first one. -/
theorem parse_of_no_line (mgz : Mgz) (mem : Memory) :
    parse mgz mem [] = .error (.undefined .emptyDeque) := rfl

/-- A request line that is refused is refused with its error. -/
theorem parse_of_bad_init (mgz : Mgz) {mem : Memory} {data init : Bytes} {lines : List Bytes}
    {f : Fault} (hsafe : SafeAccess mem data) (hlines : linesOf data = init :: lines)
    (hinit : parseInit mgz init = .error f) : parse mgz mem data = .error f := by
  rw [parse, parseHead, readLines_of_safe hsafe, hlines]
  simp only [bind, Except.bind, hinit]

/-- The parser returns the request the bytes encode. -/
theorem parse_of_encodes (mgz : Mgz) {mem : Memory} {data : Bytes} {request : Request}
    (hsafe : SafeAccess mem data) (h : Encodes mgz data request) :
    parse mgz mem data = .ok request := by
  obtain ⟨init, headers, rest, hlines, hheaders, hinit, hheader, hbody⟩ := h
  have hlength := offset_le_length hlines
  rw [parse, parseHead_of_lines mgz hsafe hlines hheaders hinit]
  simp only [bind, Except.bind, bodyFrom, if_pos hlength, ← hheader, ← hbody]
  rfl

/-- A request line is accepted, or refused with a `request_error`. -/
theorem parseInit_cases (mgz : Mgz) (init : Bytes) :
    (∃ line, parseInit mgz init = .ok line) ∨
      ∃ what, parseInit mgz init = .error (.throw (.requestError what)) := by
  unfold parseInit
  split
  · dsimp only
    split
    · exact Or.inl ⟨_, rfl⟩
    · exact Or.inr ⟨_, rfl⟩
  · exact Or.inr ⟨_, rfl⟩

/-- An accepted request line has three pieces, and the path, the query string and the parameters are
those of the second. -/
theorem parseInit_ok {mgz : Mgz} {init : Bytes} {line : RequestLine}
    (h : parseInit mgz init = .ok line) :
    ∃ method version, mgz.split init SP = [method, line.uri, version] ∧
      line.method = getHttpMethodByName method ∧ line.version = getHttpVersionByName version ∧
      parseParams mgz line.uri = (line.path, line.queryString, line.params) := by
  unfold parseInit at h
  split at h
  · rename_i method uri version hpieces
    dsimp only at h
    split at h
    · cases h
      exact ⟨method, version, hpieces, rfl, rfl, rfl⟩
    · cases h
  · cases h

/-- What the parser does with input whose accesses are harmless. -/
theorem parse_cases (mgz : Mgz) {mem : Memory} {data : Bytes} (hsafe : SafeAccess mem data) :
    (data = [] ∧ parse mgz mem data = .error (.undefined .emptyDeque)) ∨
    (∃ init lines what, linesOf data = init :: lines ∧
      parseInit mgz init = .error (.throw (.requestError what)) ∧
      parse mgz mem data = .error (.throw (.requestError what))) ∨
    (∃ init lines line, linesOf data = init :: lines ∧ parseInit mgz init = .ok line ∧
      [] ∉ lines ∧ parse mgz mem data = .error (.undefined .emptyDeque)) ∨
    ∃ request, Encodes mgz data request ∧ parse mgz mem data = .ok request := by
  rcases hlines : linesOf data with _ | ⟨init, lines⟩
  · left
    rw [linesOf, List.map_eq_nil_iff, getlines_eq_nil_iff] at hlines
    exact ⟨hlines, hlines ▸ parse_of_no_line mgz mem⟩
  right
  rcases parseInit_cases mgz init with ⟨line, hinit⟩ | ⟨what, hinit⟩
  · right
    by_cases hempty : [] ∈ lines
    · right
      -- the header loop stops at the first of the empty lines
      obtain ⟨headers, rest, rfl, hheaders⟩ := List.eq_append_cons_of_mem hempty
      let request : Request :=
        { toRequestLine := line
          header := headers.foldl (addHeader mgz) .empty
          body := data.drop (offsetOf (init :: headers) + 1) }
      have hencodes : Encodes mgz data request :=
        ⟨init, headers, rest, hlines, hheaders, hinit, rfl, rfl⟩
      exact ⟨request, hencodes, parse_of_encodes mgz hsafe hencodes⟩
    · left
      exact ⟨init, lines, line, rfl, hinit, hempty,
        parse_of_no_empty_line mgz hsafe hlines hempty hinit⟩
  · left
    exact ⟨init, lines, what, rfl, hinit, parse_of_bad_init mgz hsafe hlines hinit⟩

/-- The parser returns exactly the encoded requests, from input whose accesses are harmless. -/
theorem parse_eq_ok_iff (mgz : Mgz) (mem : Memory) (data : Bytes) (request : Request) :
    parse mgz mem data = .ok request ↔ SafeAccess mem data ∧ Encodes mgz data request := by
  constructor
  · intro h
    have hsafe : SafeAccess mem data := by
      by_contra hunsafe
      -- an access that is not harmless fails before any line is looked at
      obtain ⟨f, hf, -⟩ := readLines_of_unsafe hunsafe
      rw [parse, parseHead, hf] at h
      cases h
    have hreturns : ∀ f, parse mgz mem data ≠ .error f := by
      rw [h]
      nofun
    refine ⟨hsafe, ?_⟩
    rcases parse_cases mgz hsafe with ⟨-, herror⟩ | ⟨_, _, _, -, -, herror⟩ |
      ⟨_, _, _, -, -, -, herror⟩ | ⟨request', hencodes, hok⟩
    · exact absurd herror (hreturns _)
    · exact absurd herror (hreturns _)
    · exact absurd herror (hreturns _)
    · rw [h, Except.ok.injEq] at hok
      exact hok ▸ hencodes
  · rintro ⟨hsafe, hencodes⟩
    exact parse_of_encodes mgz hsafe hencodes

/-- The parts of a parsed request, read off any division of the input into its lines. -/
theorem parse_of_lines (mgz : Mgz) {mem : Memory} {data init : Bytes} {headers rest : List Bytes}
    {request : Request} (hlines : linesOf data = init :: headers ++ [] :: rest)
    (hheaders : [] ∉ headers) (h : parse mgz mem data = .ok request) :
    parseInit mgz init = .ok request.toRequestLine ∧
      request.header = headers.foldl (addHeader mgz) .empty ∧
      request.body = data.drop (offsetOf (init :: headers) + 1) := by
  obtain ⟨hsafe, -⟩ := (parse_eq_ok_iff mgz mem data request).mp h
  rcases parseInit_cases mgz init with ⟨line, hinit⟩ | ⟨what, hinit⟩
  · have hencodes : Encodes mgz data
        { toRequestLine := line
          header := headers.foldl (addHeader mgz) .empty
          body := data.drop (offsetOf (init :: headers) + 1) } :=
      ⟨init, headers, rest, hlines, hheaders, hinit, rfl, rfl⟩
    have hok := parse_of_encodes mgz hsafe hencodes
    rw [h, Except.ok.injEq] at hok
    rw [hok]
    exact ⟨hinit, rfl, rfl⟩
  · rw [parse_of_bad_init mgz hsafe hlines hinit] at h
    cases h

end Lhs.Http.Request
