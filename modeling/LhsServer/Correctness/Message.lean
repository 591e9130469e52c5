import LhsServer.Correctness.Parsing

/-!
# Well-formed messages

A message as a client writes it: a request line, header lines, an empty line, a body. Each line up
to the empty one is ended by LF or by CRLF. The parser removes a CR from the lines it reads, but
counts one byte for the end of every line when it looks for the body; so the body it returns begins
one byte too early for every CRLF.

- `linesOf_message`: the parser sees the lines of the message;
- `parseHead_message`, `body_message`: what it returns, with the exact offset;
- `body_exact_iff`: the body is the one of the message exactly when no line ends in CRLF.
-/

namespace Lhs.Http

open Bytes Lines Request

/-- The end of a line. -/
inductive Eol where
  | lf
  | crlf
  deriving DecidableEq, Repr

/-- The bytes of the end of a line. -/
def Eol.bytes : Eol → Bytes
  | .lf => [LF]
  | .crlf => [CR, LF]

/-- The text can be a line with this end: it has no LF in it, and LF alone does not follow a CR. -/
def Eol.Ends (eol : Eol) (text : Bytes) : Prop :=
  LF ∉ text ∧ (eol = .lf → text.getLast? ≠ some CR)

/-- A line with its end. A text that ends in a CR is not ended by LF alone: that would be a line
ended by CRLF. -/
structure Line where
  text : Bytes
  eol : Eol
  lf_not_mem : LF ∉ text
  cr_of_lf : eol = .lf → text.getLast? ≠ some CR

namespace Line

/-- The bytes of a line. -/
def bytes (l : Line) : Bytes := l.text ++ l.eol.bytes

/-- The empty line. -/
def blank (eol : Eol) : Line :=
  { text := [], eol, lf_not_mem := by simp, cr_of_lf := by simp }

/-- The line with the given text. -/
def ofText {eol : Eol} {text : Bytes} (h : eol.Ends text) : Line :=
  { text, eol, lf_not_mem := h.1, cr_of_lf := h.2 }

/-- The line as `getline` extracts it: a CR at its end is still there. -/
def raw (l : Line) : Bytes :=
  match l.eol with
  | .lf => l.text
  | .crlf => l.text ++ [CR]

/-- The text of a line is what is left without its CR. -/
theorem stripCR_raw (l : Line) : stripCR l.raw = l.text := by
  obtain ⟨text, eol, hlf, hcr⟩ := l
  cases eol with
  | lf => rw [raw, stripCR, if_neg (hcr rfl)]
  | crlf => exact stripCR_append_cr text

/-- A line of a message comes off the front. -/
theorem getlines_append (l : Line) (s : Bytes) :
    getlines LF (l.bytes ++ s) = l.raw :: getlines LF s := by
  obtain ⟨text, eol, hlf, hcr⟩ := l
  cases eol with
  | lf =>
    simp only [bytes, Eol.bytes, List.append_assoc, List.singleton_append, raw,
      getlines_append_sep hlf]
  | crlf =>
    -- the CR in front of the LF is a part of the line
    have hlf' : LF ∉ text ++ [CR] := by
      rw [List.mem_append, not_or]
      exact ⟨hlf, by decide⟩
    have hbytes : bytes ⟨text, .crlf, hlf, hcr⟩ ++ s = (text ++ [CR]) ++ LF :: s := by
      simp [bytes, Eol.bytes]
    rw [hbytes, getlines_append_sep hlf', raw]

/-- The parser reads a line without its end. -/
theorem linesOf_append (l : Line) (s : Bytes) :
    linesOf (l.bytes ++ s) = l.text :: linesOf s := by
  rw [linesOf, getlines_append, List.map_cons, stripCR_raw, linesOf]

/-- A line is one byte longer than what the parser counts for it when it ends in CRLF. -/
theorem length_bytes (l : Line) :
    l.bytes.length = l.text.length + 1 + if l.eol = .crlf then 1 else 0 := by
  cases h : l.eol <;> simp [bytes, Eol.bytes, h]

end Line

/-- A request message. -/
structure Message where
  requestLine : Line
  headers : List Line
  headers_ne_nil : ∀ l ∈ headers, l.text ≠ []
  /-- the end of the empty line -/
  blank : Eol
  body : Bytes

namespace Message

variable (m : Message)

/-- The lines up to the empty one. -/
def lines : List Line := m.requestLine :: m.headers ++ [Line.blank m.blank]

/-- The bytes up to the end of the empty line. -/
def head : Bytes := m.lines.flatMap Line.bytes

/-- The bytes of the message. -/
def bytes : Bytes := m.head ++ m.body

/-- No line up to the empty one ends in CRLF. -/
def EndsInLf : Prop := ∀ l ∈ m.lines, l.eol = .lf

instance : Decidable m.EndsInLf := inferInstanceAs (Decidable (∀ l ∈ m.lines, l.eol = .lf))

/-- The number of lines up to the empty one that end in CRLF. -/
def crlfs : ℕ := (m.lines.filter fun l => l.eol = .crlf).length

/-- No line ends in CRLF exactly when all end in LF. -/
theorem crlfs_eq_zero_iff : m.crlfs = 0 ↔ m.EndsInLf := by
  have heol : ∀ eol : Eol, eol ≠ .crlf ↔ eol = .lf := by
    intro eol
    cases eol <;> simp
  simp only [crlfs, EndsInLf, List.length_eq_zero_iff, List.filter_eq_nil_iff, decide_eq_true_eq]
  exact forall₂_congr fun l _ => heol l.eol

/-! ## The lines of a message -/

/-- The lines of a message are read as their texts. -/
theorem linesOf_flatMap (ls : List Line) (s : Bytes) :
    linesOf (ls.flatMap Line.bytes ++ s) = ls.map Line.text ++ linesOf s := by
  induction ls with
  | nil => rfl
  | cons l ls ih =>
    rw [List.flatMap_cons, List.append_assoc, Line.linesOf_append, ih, List.map_cons,
      List.cons_append]

/-- The parser sees the request line, the header lines, the empty line, and the lines of the
body. -/
theorem linesOf_message :
    linesOf m.bytes =
      m.requestLine.text :: m.headers.map Line.text ++ [] :: linesOf m.body := by
  rw [bytes, head, linesOf_flatMap]
  simp [lines, Line.blank]

/-- A line that ends in CRLF is not empty for `getline`. -/
theorem nil_mem_getlines_iff {ls : List Line} (h : ∀ l ∈ ls, l.eol = .crlf) (s : Bytes) :
    [] ∈ getlines LF (ls.flatMap Line.bytes ++ s) ↔ [] ∈ getlines LF s := by
  induction ls with
  | nil => rfl
  | cons l ls ih =>
    obtain ⟨hl, hls⟩ := List.forall_mem_cons.mp h
    have hraw : l.raw ≠ [] := by
      rw [Line.raw, hl]
      simp
    rw [List.flatMap_cons, List.append_assoc, Line.getlines_append, List.mem_cons, ih hls]
    simp [Ne.symm hraw]

/-- Where every line up to the empty one ends in CRLF, only the body can have empty lines. -/
theorem safeAccess_iff_of_crlf (mem : Memory) (h : ∀ l ∈ m.lines, l.eol = .crlf) :
    SafeAccess mem m.bytes ↔ SafeAccess mem m.body := by
  rw [SafeAccess, SafeAccess, bytes, head, nil_mem_getlines_iff h]

/-- The empty line of a message is behind its headers. -/
theorem nil_not_mem_headers : [] ∉ m.headers.map Line.text := by
  intro h
  obtain ⟨l, hl, htext⟩ := List.mem_map.mp h
  exact m.headers_ne_nil l hl htext

/-! ## The offset of the body -/

/-- The lines are longer than what the parser counts for them, by one byte for every CRLF. -/
theorem length_flatMap_bytes (ls : List Line) :
    (ls.flatMap Line.bytes).length =
      offsetOf (ls.map Line.text) + (ls.filter fun l => l.eol = .crlf).length := by
  induction ls with
  | nil => rfl
  | cons l ls ih =>
    rw [List.flatMap_cons, List.length_append, l.length_bytes, ih, List.map_cons, offsetOf_cons,
      List.filter_cons]
    split <;> simp_all <;> omega

/-- The offset of the parser falls short of the end of the empty line by one byte for every
CRLF. -/
theorem length_head :
    m.head.length =
      offsetOf (m.requestLine.text :: m.headers.map Line.text) + 1 + m.crlfs := by
  have hoffset : offsetOf (m.lines.map Line.text) =
      offsetOf (m.requestLine.text :: m.headers.map Line.text) + 1 := by
    simp [lines, Line.blank, offsetOf, Nat.add_assoc]
  rw [head, length_flatMap_bytes, hoffset, crlfs]

/-- The offset of the parser falls short of the body by one byte for every CRLF. -/
theorem drop_offset :
    m.bytes.drop (offsetOf (m.requestLine.text :: m.headers.map Line.text) + 1) =
      m.head.drop (m.head.length - m.crlfs) ++ m.body := by
  have hoffset : offsetOf (m.requestLine.text :: m.headers.map Line.text) + 1 =
      m.head.length - m.crlfs := by
    rw [m.length_head, Nat.add_sub_cancel]
  rw [hoffset, bytes, List.drop_append_of_le_length (Nat.sub_le _ _)]

/-! ## The parsed message -/

/-- A message whose request line is accepted is parsed, when the accesses to its empty lines are
harmless. -/
theorem parse_message (mgz : Mgz) {mem : Memory} (hsafe : SafeAccess mem m.bytes)
    {line : RequestLine} (hinit : parseInit mgz m.requestLine.text = .ok line) :
    parse mgz mem m.bytes = .ok
      { toRequestLine := line
        header := (m.headers.map Line.text).foldl (addHeader mgz) .empty
        body := m.head.drop (m.head.length - m.crlfs) ++ m.body } :=
  parse_of_encodes mgz hsafe ⟨_, _, _, m.linesOf_message, m.nil_not_mem_headers, hinit, rfl,
    m.drop_offset.symm⟩

section Parsed

variable {m} {mgz : Mgz} {mem : Memory} {r : Request} (h : parse mgz mem m.bytes = .ok r)

include h

/-- The offset the parser has reached at the empty line. -/
theorem parseHead_message :
    parseHead mgz mem m.bytes = .ok (r.toRequestLine, r.header, m.head.length - m.crlfs) := by
  obtain ⟨hsafe, -⟩ := (parse_eq_ok_iff mgz mem m.bytes r).mp h
  obtain ⟨hinit, hheader, -⟩ := parse_of_lines mgz m.linesOf_message m.nil_not_mem_headers h
  rw [parseHead_of_lines mgz hsafe m.linesOf_message m.nil_not_mem_headers hinit, ← hheader,
    m.length_head, Nat.add_sub_cancel]

/-- The body begins one byte before the end of the head for every CRLF. -/
theorem body_message : r.body = m.head.drop (m.head.length - m.crlfs) ++ m.body := by
  obtain ⟨-, -, hbody⟩ := parse_of_lines mgz m.linesOf_message m.nil_not_mem_headers h
  rw [hbody, m.drop_offset]

/-- The body has one byte more than that of the message for every CRLF. -/
theorem length_body_message : r.body.length = m.body.length + m.crlfs := by
  have hcrlfs : m.crlfs ≤ m.head.length := by
    rw [m.length_head]
    omega
  rw [body_message h, List.length_append, List.length_drop]
  omega

/-- The body of a parsed message is the one that was sent, and the offset the end of its head,
exactly when no line up to the empty one ends in CRLF. -/
theorem body_exact_iff :
    (r.body = m.body ∧
        ∃ line header, parseHead mgz mem m.bytes = .ok (line, header, m.head.length)) ↔
      m.EndsInLf := by
  rw [← m.crlfs_eq_zero_iff]
  constructor
  · rintro ⟨hbody, -⟩
    -- a body that is too long by nothing leaves no CRLF
    have hlength := length_body_message h
    rw [hbody] at hlength
    omega
  · intro hzero
    refine ⟨?_, r.toRequestLine, r.header, ?_⟩
    · rw [body_message h, hzero, Nat.sub_zero, List.drop_length, List.nil_append]
    · rw [parseHead_message h, hzero, Nat.sub_zero]

end Parsed

/-! ## Messages made of texts -/

section Texts

variable {eol : Eol} {first : Bytes} {texts : List Bytes} (hfirst : eol.Ends first)
  (htexts : ∀ text ∈ texts, text ≠ [] ∧ eol.Ends text) (body : Bytes)

/-- The message with the given request line and header lines, all ended in the same way. -/
def ofTexts : Message where
  requestLine := .ofText hfirst
  headers := texts.pmap (fun _ h => .ofText h) fun text htext => (htexts text htext).2
  headers_ne_nil l hl := by
    obtain ⟨text, htext, rfl⟩ := List.mem_pmap.mp hl
    exact (htexts text htext).1
  blank := eol
  body := body

/-- The headers of a message that is put together from texts. -/
theorem headers_ofTexts : (ofTexts hfirst htexts body).headers.map Line.text = texts := by
  rw [ofTexts, List.map_pmap]
  exact List.pmap_eq_map .. |>.trans (List.map_id texts)

/-- Every line up to the empty one is ended in the given way. -/
theorem eol_ofTexts : ∀ l ∈ (ofTexts hfirst htexts body).lines, l.eol = eol := by
  intro l hl
  rw [lines, List.mem_append, List.mem_cons, List.mem_singleton] at hl
  rcases hl with (rfl | hl) | rfl
  · rfl
  · obtain ⟨text, htext, rfl⟩ := List.mem_pmap.mp hl
    rfl
  · rfl

/-- And its bytes. -/
theorem bytes_ofTexts :
    (ofTexts hfirst htexts body).bytes =
      first ++ eol.bytes ++ texts.flatMap (· ++ eol.bytes) ++ eol.bytes ++ body := by
  have hheaders : (ofTexts hfirst htexts body).headers.flatMap Line.bytes =
      texts.flatMap (· ++ eol.bytes) := by
    conv_rhs => rw [← headers_ofTexts hfirst htexts body, List.flatMap_map]
    apply List.flatMap_congr
    intro l hl
    obtain ⟨text, htext, rfl⟩ := List.mem_pmap.mp hl
    rfl
  rw [bytes, head, lines, List.cons_append, List.flatMap_cons, List.flatMap_append, hheaders]
  simp [ofTexts, Line.ofText, Line.bytes, Line.blank]

end Texts

/-! ## Two messages -/

/-- A message with one header line and a body of two lines, all ended by the given end of line. -/
def sample (eol : Eol) : Message where
  requestLine :=
    { text := str "POST /form HTTP/1.1", eol
      lf_not_mem := by decide, cr_of_lf := fun _ => by decide }
  headers :=
    [{ text := str "Host: localhost", eol
       lf_not_mem := by decide, cr_of_lf := fun _ => by decide }]
  headers_ne_nil l hl := by
    rw [List.mem_singleton.mp hl]
    show str "Host: localhost" ≠ []
    decide
  blank := eol
  body := str "a\n\nb"

/-- With LF at the end of every line, the body is the one that was sent. -/
theorem body_exact_sample :
    ∃ r, parse .plain .zero (sample .lf).bytes = .ok r ∧ r.body = str "a\n\nb" := by
  have hbody : (parse .plain .zero (sample .lf).bytes).map (·.body) = .ok (str "a\n\nb") := by
    decide
  have hlf : (sample .lf).EndsInLf := by decide
  obtain ⟨r, hparse, -⟩ := Run.exists_ok_of_map hbody
  exact ⟨r, hparse, ((body_exact_iff hparse).mpr hlf).1⟩

/-- With CRLF at the end of every line, three bytes of the head end up in front of the body. -/
theorem body_exact_fails :
    ∃ m : Message, ∃ r, parse .plain .zero m.bytes = .ok r ∧
      m.body = str "a\n\nb" ∧ r.body = str "\n\r\na\n\nb" := by
  have hbody :
      (parse .plain .zero (sample .crlf).bytes).map (·.body) = .ok (str "\n\r\na\n\nb") := by
    decide
  obtain ⟨r, hparse, hbody⟩ := Run.exists_ok_of_map hbody
  exact ⟨sample .crlf, r, hparse, rfl, hbody⟩

end Message

end Lhs.Http
