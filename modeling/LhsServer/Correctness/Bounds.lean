import LhsServer.Correctness.Message
import LhsServer.Correctness.Totality

/-!
# Accesses within bounds

Where the request constructor reads and what it points to: the last character of each line, the
first one of the path, and the position in the input at which the body begins.

- `HeaderBlock`: the part of the input up to the end of the empty line;
- `nbchar_le`: the offset lies within the header block, so that the body is what follows it, with a
  part of the block in front of it at most;
- `InRange`: no character of an empty line or of an empty path is read;
- `inRange_iff`: the messages for which that is so.
-/

namespace Lhs.Http

open Bytes Lines

namespace Request

/-! ## The offset -/

/-- `head` is the part of the input up to the end of the first empty line behind the request line:
it has the lines up to that one, and ends with the LF of that line unless the input ends there. -/
structure HeaderBlock (data head after : Bytes) : Prop where
  append : data = head ++ after
  lines : ∃ init headers, linesOf head = init :: headers ++ [[]] ∧ [] ∉ headers
  rest : linesOf data = linesOf head ++ linesOf after
  terminated : head.getLast? = some LF ∨ after = []

/-- What the parser has read when the header loop stops at an empty line. -/
theorem exists_lines_of_parseHead {mgz : Mgz} {mem : Memory} {data : Bytes} {line : RequestLine}
    {header : Header} {nbchar : ℕ} (h : parseHead mgz mem data = .ok (line, header, nbchar)) :
    ∃ init headers rest, linesOf data = init :: headers ++ [] :: rest ∧ [] ∉ headers ∧
      nbchar = offsetOf (init :: headers) + 1 := by
  have hsafe : SafeAccess mem data := by
    by_contra hunsafe
    obtain ⟨f, hf, -⟩ := readLines_of_unsafe hunsafe
    rw [parseHead, hf] at h
    cases h
  rw [parseHead, readLines_of_safe hsafe] at h
  rcases hlines : linesOf data with _ | ⟨init, lines⟩
  · rw [hlines] at h
    cases h
  rw [hlines] at h
  rcases hinit : parseInit mgz init with f | line'
  · simp only [bind, Except.bind, hinit] at h
    cases h
  simp only [bind, Except.bind, hinit] at h
  by_cases hempty : [] ∈ lines
  · obtain ⟨headers, rest, rfl, hheaders⟩ := List.eq_append_cons_of_mem hempty
    rw [parseHeaders_of_empty_line mgz hheaders] at h
    refine ⟨init, headers, rest, rfl, hheaders, ?_⟩
    have hnbchar := (Prod.mk.inj (Prod.mk.inj (Except.ok.inj h)).2).2
    rw [← hnbchar, offsetOf_cons]
    omega
  · rw [parseHeaders_of_no_empty_line mgz hempty] at h
    cases h

/-- The header block ends with the first empty line behind the request line, and is at least as long
as what is counted for its lines. -/
theorem exists_headerBlock {data init : Bytes} {headers rest : List Bytes}
    (hlines : linesOf data = init :: headers ++ [] :: rest) (hheaders : [] ∉ headers) :
    ∃ head after, HeaderBlock data head after ∧ offsetOf (init :: headers) + 1 ≤ head.length := by
  have hsplit : (getlines LF data).map stripCR = (init :: headers ++ [[]]) ++ rest := by
    simpa [linesOf] using hlines
  obtain ⟨raws, raws', hraws, hfirst, -⟩ := List.map_eq_append_iff.mp hsplit
  have hne : raws ≠ [] := by
    rintro rfl
    simp at hfirst
  obtain ⟨head, after, hdata, hhead, hafter, hend⟩ := exists_append_of_getlines hne hraws
  have hlinesHead : linesOf head = init :: headers ++ [[]] := by
    rw [linesOf, hhead, hfirst]
  refine ⟨head, after, ⟨hdata, ⟨init, headers, hlinesHead, hheaders⟩, ?_, hend⟩,
    offset_le_length hlinesHead⟩
  rw [linesOf, hraws, List.map_append, linesOf, hhead, linesOf, hafter]

/-- Where the header loop stops at an empty line, the offset lies within the header block, and so
within the input; the body is what follows the offset, with everything behind the header block in
it. -/
theorem nbchar_le {mgz : Mgz} {mem : Memory} {data : Bytes} {line : RequestLine} {header : Header}
    {nbchar : ℕ} (h : parseHead mgz mem data = .ok (line, header, nbchar)) :
    nbchar ≤ data.length ∧
      ∃ head after, HeaderBlock data head after ∧ nbchar ≤ head.length ∧
        bodyFrom data nbchar = .ok (head.drop nbchar ++ after) ∧
        head.drop nbchar ++ after <:+ data ∧
        parse mgz mem data =
          .ok { toRequestLine := line, header, body := head.drop nbchar ++ after } := by
  obtain ⟨init, headers, rest, hlines, hheaders, hnbchar⟩ := exists_lines_of_parseHead h
  obtain ⟨head, after, hblock, hhead⟩ := exists_headerBlock hlines hheaders
  rw [← hnbchar] at hhead
  have hlength : nbchar ≤ data.length := by
    rw [hblock.append, List.length_append]
    omega
  have hdrop : data.drop nbchar = head.drop nbchar ++ after := by
    rw [hblock.append, List.drop_append_of_le_length hhead]
  have hbody : bodyFrom data nbchar = .ok (head.drop nbchar ++ after) := by
    rw [bodyFrom, if_pos hlength, hdrop]
  refine ⟨hlength, head, after, hblock, hhead, hbody, ?_, ?_⟩
  · rw [← hdrop]
    exact List.drop_suffix _ _
  · simp only [parse, h, bind, Except.bind, hbody]
    rfl

/-- A request line and a lone CR. -/
theorem nbchar_le_sample :
    ∃ nbchar line header,
      parseHead .plain .zero (str "GET / HTTP/1.1\n\r") = .ok (line, header, nbchar) ∧
      nbchar ≤ (str "GET / HTTP/1.1\n\r").length ∧
      ∃ head after, HeaderBlock (str "GET / HTTP/1.1\n\r") head after ∧ nbchar ≤ head.length ∧
        bodyFrom (str "GET / HTTP/1.1\n\r") nbchar = .ok (head.drop nbchar ++ after) ∧
        head.drop nbchar ++ after <:+ str "GET / HTTP/1.1\n\r" ∧
        parse .plain .zero (str "GET / HTTP/1.1\n\r") =
          .ok { toRequestLine := line, header, body := head.drop nbchar ++ after } := by
  have hnbchar : (parseHead .plain .zero (str "GET / HTTP/1.1\n\r")).map (·.2.2) = .ok 16 := by
    decide
  obtain ⟨⟨line, header, nbchar⟩, hhead, -⟩ := Run.exists_ok_of_map hnbchar
  exact ⟨nbchar, line, header, hhead, nbchar_le hhead⟩

/-! ## Accesses to characters -/

/-- The memory in which reading outside of an empty line is trapped. -/
def trapping (mem : Memory) : Memory := { mem with lineBack := none }

/-- The last character of an empty line is not read, which would be trapped; and the first character
of an empty path is not read, which `parse_init` tests where the first line has three pieces. -/
structure InRange (mgz : Mgz) (mem : Memory) (data : Bytes) : Prop where
  line : parse mgz (trapping mem) data ≠ .error (.undefined .stringIndex)
  path : ∀ init lines, readLines mem data = .ok (init :: lines) → ∀ method uri version,
    mgz.split init SP = [method, uri, version] → (parseParams mgz uri).1 ≠ []

/-- The path is empty where nothing stands in front of a `?`. -/
theorem path_eq_nil_iff {mgz : Mgz} (hsplit : mgz.SplitsPieces) (uri : Bytes) :
    (parseParams mgz uri).1 = [] ↔ uri = [] ∨ uri.head? = some question := by
  rw [path_parseParams hsplit]
  cases uri with
  | nil => simp [untilQuestion]
  | cons c uri => simp [untilQuestion, List.takeWhile_cons]

/-- Reading outside of an empty line is the first thing that happens to input that has one. -/
theorem stringIndex_iff (mgz : Mgz) (mem : Memory) (data : Bytes) :
    parse mgz (trapping mem) data = .error (.undefined .stringIndex) ↔ [] ∈ getlines LF data := by
  have htrap : ¬∃ c, (trapping mem).lineBack = some c ∧ c ≠ CR := nofun
  constructor
  · intro h
    by_contra hnil
    have hsafe : SafeAccess (trapping mem) data := fun hmem => absurd hmem hnil
    rcases parse_cases mgz hsafe with ⟨-, herror⟩ | ⟨_, _, _, -, -, herror⟩ |
      ⟨_, _, _, -, -, -, herror⟩ | ⟨request, -, hok⟩
    · rw [h] at herror
      cases herror
    · rw [h] at herror
      cases herror
    · rw [h] at herror
      cases herror
    · rw [h] at hok
      cases hok
  · intro hnil
    have hchomp : chomp (trapping mem) [] = .error (.undefined .stringIndex) := rfl
    rw [parse, parseHead, readLines, mapM_chomp_of_nil_mem hchomp hnil]
    rfl

end Request

namespace Message

open Request

variable (m : Message)

theorem raw_eq_nil_iff (l : Line) : l.raw = [] ↔ l.text = [] ∧ l.eol = .lf := by
  cases heol : l.eol with
  | lf =>
    rw [Line.raw, heol]
    exact ⟨fun h => ⟨h, rfl⟩, fun h => h.1⟩
  | crlf =>
    rw [Line.raw, heol]
    exact ⟨fun h => by simp at h, fun h => by cases h.2⟩

/-- Where some lines and what follows them are empty for `getline`. -/
theorem nil_mem_getlines_append_iff (ls : List Line) (s : Bytes) :
    [] ∈ getlines LF (ls.flatMap Line.bytes ++ s) ↔
      (∃ l ∈ ls, l.text = [] ∧ l.eol = .lf) ∨ [] ∈ getlines LF s := by
  induction ls with
  | nil => simp
  | cons l ls ih =>
    rw [List.flatMap_cons, List.append_assoc, Line.getlines_append, List.mem_cons, ih, eq_comm,
      raw_eq_nil_iff, List.exists_mem_cons_iff, or_assoc]

/-- Where the lines of a message are empty for `getline`. -/
theorem nil_mem_getlines_bytes_iff :
    [] ∈ getlines LF m.bytes ↔
      m.blank = .lf ∨ (m.requestLine.text = [] ∧ m.requestLine.eol = .lf) ∨
        [] ∈ getlines LF m.body := by
  rw [bytes, head, nil_mem_getlines_append_iff, lines, List.cons_append, List.exists_mem_cons_iff]
  have hheaders : (∃ l ∈ m.headers ++ [Line.blank m.blank], l.text = [] ∧ l.eol = .lf) ↔
      m.blank = .lf := by
    constructor
    · rintro ⟨l, hl, htext, heol⟩
      rcases List.mem_append.mp hl with hl | hl
      · exact absurd htext (m.headers_ne_nil l hl)
      · rw [List.mem_singleton.mp hl] at heol
        exact heol
    · intro hblank
      exact ⟨_, List.mem_append_right _ (List.mem_singleton_self _), rfl, hblank⟩
  rw [hheaders]
  tauto

/-- The first line has three pieces, and the path in the second is empty. -/
def HasEmptyPath (init : Bytes) : Prop :=
  ∃ method uri version, init.splitOn SP = [method, uri, version] ∧
    (uri = [] ∨ uri.head? = some question)

/-- No character of an empty line or of an empty path is read exactly when the empty line of the
message ends in CRLF, the request line is not empty or ends in CRLF, no line of the body is ended
by LF alone and empty, and the target is not empty and does not start with `?`. -/
theorem inRange_iff {mgz : Mgz} (hsplit : mgz.SplitsPieces) (mem : Memory) :
    InRange mgz mem m.bytes ↔
      (m.blank = .crlf ∧ (m.requestLine.text = [] → m.requestLine.eol = .crlf) ∧
        [] ∉ getlines LF m.body) ∧ ¬HasEmptyPath m.requestLine.text := by
  have heol : ∀ eol : Eol, ¬eol = .lf ↔ eol = .crlf := by
    intro eol
    cases eol <;> simp
  have hnil : [] ∉ getlines LF m.bytes ↔ m.blank = .crlf ∧
      (m.requestLine.text = [] → m.requestLine.eol = .crlf) ∧ [] ∉ getlines LF m.body := by
    rw [nil_mem_getlines_bytes_iff, not_or, not_or, not_and, heol, heol]
  rw [← hnil]
  constructor
  · rintro ⟨hline, hpath⟩
    have hempty : [] ∉ getlines LF m.bytes := fun hmem =>
      hline ((stringIndex_iff mgz mem m.bytes).mpr hmem)
    refine ⟨hempty, ?_⟩
    rintro ⟨method, uri, version, hpieces, huri⟩
    have hread : readLines mem m.bytes = .ok (m.requestLine.text :: (m.headers.map Line.text ++
        [] :: linesOf m.body)) := by
      rw [readLines_of_safe fun hmem => absurd hmem hempty, m.linesOf_message]
      rfl
    rw [← hsplit] at hpieces
    exact hpath _ _ hread method uri version hpieces ((path_eq_nil_iff hsplit uri).mpr huri)
  · rintro ⟨hempty, hpath⟩
    refine ⟨fun herror => hempty ((stringIndex_iff mgz mem m.bytes).mp herror), ?_⟩
    intro init lines hread method uri version hpieces hnil
    rw [readLines_of_safe fun hmem => absurd hmem hempty, m.linesOf_message] at hread
    rw [← (List.cons.inj (Except.ok.inj hread)).1, hsplit] at hpieces
    exact hpath ⟨method, uri, version, hpieces, (path_eq_nil_iff hsplit uri).mp hnil⟩

/-- A message with CRLF at the end of every line of the head, and a body without empty lines. -/
theorem inRange_sample :
    InRange .plain .zero ({ sample .crlf with body := str "a\nb" } : Message).bytes := by
  have hlines : [] ∉ getlines LF (str "a\nb") := by decide
  have hpath : ¬HasEmptyPath (str "POST /form HTTP/1.1") := by
    rintro ⟨method, uri, version, hpieces, huri⟩
    have huri' : uri = str "/form" := by
      rw [show (str "POST /form HTTP/1.1").splitOn SP =
        [str "POST", str "/form", str "HTTP/1.1"] from by decide] at hpieces
      simp_all
    rw [huri'] at huri
    revert huri
    decide
  exact (inRange_iff _ Mgz.plain_splitsPieces .zero).mpr ⟨⟨rfl, fun _ => rfl, hlines⟩, hpath⟩

/-- The last character of an empty line is read in the head of a message with LF at the end of every
line, and in the body of one with CRLF. -/
theorem inRange_fails :
    parse .plain (trapping .zero) (sample .lf).bytes = .error (.undefined .stringIndex) ∧
      ¬InRange .plain .zero (sample .lf).bytes ∧
      parse .plain (trapping .zero) (sample .crlf).bytes = .error (.undefined .stringIndex) ∧
      ¬InRange .plain .zero (sample .crlf).bytes := by
  have hlf : parse .plain (trapping .zero) (sample .lf).bytes =
      .error (.undefined .stringIndex) := (stringIndex_iff _ _ _).mpr (by decide)
  have hcrlf : parse .plain (trapping .zero) (sample .crlf).bytes =
      .error (.undefined .stringIndex) := (stringIndex_iff _ _ _).mpr (by decide)
  exact ⟨hlf, fun h => h.line hlf, hcrlf, fun h => h.line hcrlf⟩

end Message

end Lhs.Http
