import LhsServer.Correctness.HeaderFields
import LhsServer.Correctness.Message
import LhsServer.Correctness.Target
import LhsServer.Correctness.Wire

/-!
# Requests that were written

The parser is a left inverse of what a client does to write a request. A header that was written out
by `header::to_string` is read back as it was, in front of any body; a whole request is read back
from its method, target, version, header and body, when its lines end in LF.

- `Header.Readable`: the headers that can be read back;
- `Header.foldl_addHeader_fieldLine`: the header loop undoes `to_string` field by field;
- `parse_toString`: the header of a request is the one that was written;
- `readParams_queryString`: the loop over the parameters undoes the percent-encoding;
- `parse_encodeRequest`: the whole round trip.
-/

namespace Lhs.Http

open Bytes Bindings Lines

/-! ## Header fields -/

namespace Header

/-- Every field can be read back from a line: it has a string under a name without a `:`, both of
them on one line and trimmed. -/
def Readable (mgz : Mgz) (h : Header) : Prop :=
  ∀ name value, h.get? name = some value →
    (colon ∉ name ∧ LF ∉ name ∧ mgz.trim name = name) ∧
      ∃ s, value = .string s ∧ LF ∉ s ∧ mgz.trim s = s

theorem readable_empty (mgz : Mgz) : empty.Readable mgz := by
  simp [Readable]

theorem Readable.assign {mgz : Mgz} {h : Header} (hread : h.Readable mgz) {name s : Bytes}
    (hname : colon ∉ name ∧ LF ∉ name ∧ mgz.trim name = name) (hs : LF ∉ s ∧ mgz.trim s = s) :
    (h.assign name (.string s)).Readable mgz := by
  intro k value hget
  rw [get?_assign] at hget
  split at hget
  -- the field that was assigned, or one of those before
  · rename_i hk
    cases hget
    exact ⟨hk ▸ hname, s, rfl, hs⟩
  · exact hread k value hget

theorem Readable.allStrings {mgz : Mgz} {h : Header} (hread : h.Readable mgz) : h.AllStrings := by
  intro name value hget
  obtain ⟨-, s, rfl, -⟩ := hread name value hget
  rfl

section Trim

variable {mgz : Mgz} (htrim : mgz.TrimsWhitespace)

include htrim

/-- The space behind the `:` is trimmed away. -/
theorem trim_cons_sp (s : Bytes) : mgz.trim (SP :: s) = mgz.trim s := by
  rw [htrim, htrim, List.dropWhile_cons_of_pos (by decide)]

/-- A trimmed text does not end in a CR. -/
theorem getLast?_ne_cr {s : Bytes} (h : mgz.trim s = s) : s.getLast? ≠ some CR := by
  intro hlast
  rw [htrim] at h
  have hne : (s.dropWhile isSpace).rdropWhile isSpace ≠ [] := by
    rw [h]
    rintro rfl
    cases hlast
  have hcr : isSpace CR = true := by decide
  have hnot := List.rdropWhile_last_not isSpace _ hne
  rw [← h, List.getLast?_eq_some_getLast hne, Option.some.injEq] at hlast
  exact hnot (hlast ▸ hcr)

variable {h : Header} (hread : h.Readable mgz) {it : Bytes × Any} (hit : h.get? it.1 = some it.2)

include hread hit

/-- The header loop reads a field from the line it was written on. -/
theorem addHeader_fieldLine (acc : Header) :
    Request.addHeader mgz acc (fieldLine it) = acc.assign it.1 it.2 := by
  obtain ⟨⟨hcolon, -, hname⟩, s, hvalue, -, hs⟩ := hread it.1 it.2 hit
  have hline : fieldLine it = it.1 ++ colon :: SP :: s := by
    simp [fieldLine, hvalue, text, str, colon, SP]
  rw [hline, Request.addHeader_append mgz hcolon, hname, trim_cons_sp htrim, hs, hvalue]

/-- The line of a field can be ended in either way. -/
theorem ends_fieldLine (eol : Eol) : fieldLine it ≠ [] ∧ eol.Ends (fieldLine it) := by
  obtain ⟨⟨-, hname, -⟩, s, hvalue, hlf, hs⟩ := hread it.1 it.2 hit
  have hsep : LF ∉ str ": " := by decide
  refine ⟨by simp [fieldLine, str], ?_, fun _ => ?_⟩
  · simp [fieldLine, hvalue, text, hname, hsep, hlf]
  · rw [fieldLine, hvalue, text]
    rcases eq_or_ne s [] with rfl | hne
    -- behind an empty value stands the space
    · simp [str, CR]
    · rw [List.getLast?_append_of_ne_nil _ hne]
      exact getLast?_ne_cr htrim hs

end Trim

section Fields

variable {mgz : Mgz} (htrim : mgz.TrimsWhitespace) {h : Header} (hread : h.Readable mgz)
  {fields : List (Bytes × Any)} (hfields : fields.Perm h.fields)

include htrim hread hfields

/-- The header loop reads back a header from the lines of its fields, in any order. -/
theorem foldl_addHeader_fieldLine :
    (fields.map fieldLine).foldl (Request.addHeader mgz) empty = h := by
  rw [List.foldl_map]
  refine Eq.trans ?_ (foldl_assign_fields hfields)
  apply List.foldl_ext
  intro acc it hit
  exact addHeader_fieldLine htrim hread (mem_fields_iff.mp (hfields.mem_iff.mp hit)) acc

theorem ends_fieldLines (eol : Eol) :
    ∀ line ∈ fields.map fieldLine, line ≠ [] ∧ eol.Ends line := by
  intro line hline
  obtain ⟨it, hit, rfl⟩ := List.mem_map.mp hline
  exact ends_fieldLine htrim hread (mem_fields_iff.mp (hfields.mem_iff.mp hit)) eol

end Fields

end Header

namespace Request

/-- A header that was written out by `to_string` is read back from the request it stands in, in
front of any body. The request is parsed unless an access to an empty line of the body goes wrong.
-/
theorem parse_toString {mgz : Mgz} (hsplit : mgz.SplitsPieces) (htrim : mgz.TrimsWhitespace)
    (mem : Memory) {h : Header} (hread : h.Readable mgz) :
    ∃ text, h.toString = .ok text ∧ ∀ body,
      ((∃ r, parse mgz mem (str "GET / HTTP/1.1" ++ CRLF ++ text ++ CRLF ++ body) = .ok r) ↔
        SafeAccess mem body) ∧
      ∀ r, parse mgz mem (str "GET / HTTP/1.1" ++ CRLF ++ text ++ CRLF ++ body) = .ok r →
        r.header = h := by
  refine ⟨_, Header.toString_of_allStrings hread.allStrings, fun body => ?_⟩
  have hfirst : Eol.crlf.Ends (str "GET / HTTP/1.1") := ⟨by decide, nofun⟩
  have hlines := Header.ends_fieldLines htrim hread (List.Perm.refl h.fields) .crlf
  let m := Message.ofTexts hfirst hlines body
  have hbytes : m.bytes = str "GET / HTTP/1.1" ++ CRLF ++
      (h.fields.flatMap fun it => Header.field it.1 (Header.text it.2)) ++ CRLF ++ body := by
    rw [Message.bytes_ofTexts, List.flatMap_map]
    rfl
  obtain ⟨line, hinit⟩ : ∃ line, parseInit mgz m.requestLine.text = .ok line :=
    (parseInit_ok_iff hsplit (str "GET / HTTP/1.1")).mpr
      ⟨str "GET", str "/", str "HTTP/1.1", by decide, by decide⟩
  have hsafe : SafeAccess mem m.bytes ↔ SafeAccess mem body :=
    m.safeAccess_iff_of_crlf mem (Message.eol_ofTexts hfirst hlines body)
  have hheader : (m.headers.map Line.text).foldl (addHeader mgz) .empty = h := by
    rw [Message.headers_ofTexts]
    exact Header.foldl_addHeader_fieldLine htrim hread (List.Perm.refl h.fields)
  rw [← hbytes]
  refine ⟨⟨fun ⟨r, hr⟩ => hsafe.mp ((parse_eq_ok_iff mgz mem _ r).mp hr).1, fun hbody => ?_⟩, ?_⟩
  · exact ⟨_, m.parse_message mgz (hsafe.mpr hbody) hinit⟩
  · intro r hr
    have hsafe := ((parse_eq_ok_iff mgz mem _ r).mp hr).1
    rw [m.parse_message mgz hsafe hinit, Except.ok.injEq] at hr
    rw [← hr]
    exact hheader

/-- A header with an empty name, an empty value and a value with a `:`, in front of a body that
looks like more of it. -/
theorem parse_toString_sample :
    let h := ((Header.empty.assign (str "A") (.string [])).assign [] (.string (str "1"))).assign
      (str "Host") (.string (str "localhost:80"))
    ∃ text r, h.toString = .ok text ∧
      parse .plain .zero (str "GET / HTTP/1.1" ++ CRLF ++ text ++ CRLF ++ str "A: 2\n\n") = .ok r ∧
      r.header = h := by
  intro h
  have hread : h.Readable .plain :=
    (((Header.readable_empty .plain).assign (by decide) (by decide)).assign (by decide)
      (by decide)).assign (by decide) (by decide)
  obtain ⟨text, htext, hparse⟩ :=
    parse_toString Mgz.plain_splitsPieces Mgz.plain_trimsWhitespace .zero hread
  obtain ⟨hok, hheader⟩ := hparse (str "A: 2\n\n")
  obtain ⟨r, hr⟩ := hok.mpr fun _ => ⟨NUL, rfl, by decide⟩
  exact ⟨text, r, htext, hr, hheader r hr⟩

/-! ## Targets -/

section Target

variable (encode : Bytes → Bytes)

/-- One parameter as it is written in a query string. -/
def encodeParam (param : Bytes × Bytes) : Bytes := encode param.1 ++ equals :: encode param.2

/-- The query string of a list of parameters. -/
def encodeQuery (params : List (Bytes × Bytes)) : Bytes :=
  [amp].intercalate (params.map (encodeParam encode))

/-- The target of a path and a list of parameters. -/
def encodeTarget (path : Bytes) (params : List (Bytes × Bytes)) : Bytes :=
  if params = [] then path else path ++ question :: encodeQuery encode params

variable {encode} {mgz : Mgz} (hencode : mgz.UndoesEncoding encode)

include hencode

/-- The characters that delimit the parts of a request do not occur in a parameter, but for the one
`=`. -/
theorem not_mem_encodeParam {c : UInt8} (hc : c ∈ [SP, amp, question, CR, LF])
    (param : Bytes × Bytes) : c ∉ encodeParam encode param := by
  have hplain : ∀ d ∈ [SP, amp, question, CR, LF],
      d ≠ equals ∧ d ∈ [SP, amp, equals, question, CR, LF] := by decide +kernel
  obtain ⟨hequals, hall⟩ := hplain c hc
  rw [encodeParam, List.mem_append, List.mem_cons, not_or, not_or]
  exact ⟨fun h => hencode.plain _ c h hall, hequals, fun h => hencode.plain _ c h hall⟩

theorem not_mem_encodeQuery {c : UInt8} (hc : c ∈ [SP, question, CR, LF])
    (params : List (Bytes × Bytes)) : c ∉ encodeQuery encode params := by
  have hplain : ∀ d ∈ [SP, question, CR, LF], d ≠ amp ∧ d ∈ [SP, amp, question, CR, LF] := by
    decide +kernel
  obtain ⟨hamp, hall⟩ := hplain c hc
  intro h
  rcases mem_intercalate h with h | ⟨text, htext, h⟩
  · exact hamp h
  · obtain ⟨param, -, rfl⟩ := List.mem_map.mp htext
    exact not_mem_encodeParam hencode hall param h

/-- The loop of `parse_params` reads a parameter back from its piece. -/
theorem readBinding_encodeParam (param : Bytes × Bytes) :
    readBinding mgz.decode (encodeParam encode param) = param := by
  have hname : equals ∉ encode param.1 := fun h => hencode.plain _ _ h (by decide)
  rw [readBinding, encodeParam, upTo_find hname, after_find hname, hencode.decode_encode,
    hencode.decode_encode]

/-- The loop over the pieces of a query string reads back the parameters, in any order. -/
theorem readParams_encodeQuery (hsplit : mgz.SplitsPieces) {params : Std.ExtTreeMap Bytes Bytes}
    {pairs : List (Bytes × Bytes)} (hpairs : pairs.Perm params.toList) (hne : pairs ≠ []) :
    readParams mgz (encodeQuery encode pairs) = params := by
  have hpieces : (encodeQuery encode pairs).splitOn amp = pairs.map (encodeParam encode) := by
    refine List.splitOn_intercalate _ (fun piece hpiece => ?_) (by simpa using hne)
    obtain ⟨param, -, rfl⟩ := List.mem_map.mp hpiece
    exact not_mem_encodeParam hencode (by decide) param
  have hread : (pairs.map (encodeParam encode)).map (readBinding mgz.decode) = pairs := by
    rw [List.map_map]
    exact (List.map_congr_left fun param _ => readBinding_encodeParam hencode param).trans
      (List.map_id pairs)
  apply Std.ExtTreeMap.ext_getElem?
  intro k
  rw [getElem?_readParams, hsplit, hpieces, hread, getElem?_eq_last? hpairs]

end Target

/-! ## Whole requests -/

/-- The request line. -/
def encodeLine (method : Method) (uri : Bytes) (version : Version) : Bytes :=
  getHttpMethodName method ++ SP :: (uri ++ SP :: getHttpVersionName version)

/-- A request as it is written: the request line, a line for each field, an empty line and the body,
with LF at the end of every line. -/
def encodeRequest (method : Method) (uri : Bytes) (version : Version)
    (fields : List (Bytes × Any)) (body : Bytes) : Bytes :=
  encodeLine method uri version ++ [LF] ++ (fields.map fieldLine).flatMap (· ++ [LF]) ++ [LF] ++
    body

theorem methodName_plain (method : Method) : SP ∉ getHttpMethodName method ∧
    CR ∉ getHttpMethodName method ∧ LF ∉ getHttpMethodName method := by
  cases method <;> decide

/-- A line of three words can be ended in either way. -/
theorem ends_encodeLine (eol : Eol) (method : Method) {uri : Bytes} (version : Version)
    (huri : CR ∉ uri ∧ LF ∉ uri) : eol.Ends (encodeLine method uri version) := by
  obtain ⟨-, hmethodCr, hmethodLf⟩ := methodName_plain method
  have hversion : CR ∉ getHttpVersionName version ∧ LF ∉ getHttpVersionName version := by
    cases version <;> decide
  have hsp : CR ≠ SP ∧ LF ≠ SP := by decide
  refine ⟨by simp [encodeLine, hmethodLf, huri.2, hversion.2, hsp.2], fun _ hlast => ?_⟩
  have hcr : CR ∉ encodeLine method uri version := by
    simp [encodeLine, hmethodCr, huri.1, hversion.1, hsp.1]
  exact hcr (List.mem_of_getLast? hlast)

/-- The three words of the request line are found again. -/
theorem splitOn_encodeLine (method : Method) {uri : Bytes} (version : Version) (huri : SP ∉ uri) :
    (encodeLine method uri version).splitOn SP =
      [getHttpMethodName method, uri, getHttpVersionName version] := by
  rw [encodeLine, List.splitOn_append_cons_self_of_not_mem (methodName_plain method).1,
    List.splitOn_append_cons_self_of_not_mem huri,
    List.splitOn_eq_singleton (versionName_plain version).1]

section RoundTrip

variable {mgz : Mgz} (hsplit : mgz.SplitsPieces) {encode : Bytes → Bytes}
  (hencode : mgz.UndoesEncoding encode)
  {path : Bytes} (hpath : path.head? = some slash)
  (hplain : SP ∉ path ∧ question ∉ path ∧ CR ∉ path ∧ LF ∉ path)
  {params : Std.ExtTreeMap Bytes Bytes} {pairs : List (Bytes × Bytes)}
  (hpairs : pairs.Perm params.toList)

variable (pairs) in
include hencode hplain in
/-- What does not occur in the path does not occur in the target. -/
theorem encodeTarget_plain : SP ∉ encodeTarget encode path pairs ∧
    CR ∉ encodeTarget encode path pairs ∧ LF ∉ encodeTarget encode path pairs := by
  have hquestion : SP ≠ question ∧ CR ≠ question ∧ LF ≠ question := by decide
  rw [encodeTarget]
  split
  · exact ⟨hplain.1, hplain.2.2⟩
  · simp only [List.mem_append, List.mem_cons, not_or]
    exact ⟨⟨hplain.1, hquestion.1, not_mem_encodeQuery hencode (by decide) pairs⟩,
      ⟨hplain.2.2.1, hquestion.2.1, not_mem_encodeQuery hencode (by decide) pairs⟩,
      ⟨hplain.2.2.2, hquestion.2.2, not_mem_encodeQuery hencode (by decide) pairs⟩⟩

include hsplit hencode hplain hpairs in
/-- The target is taken apart into the path and the parameters it was made of. -/
theorem parseParams_encodeTarget :
    parseParams mgz (encodeTarget encode path pairs) =
      (path, encodeQuery encode pairs, params) := by
  rw [encodeTarget]
  split
  · rename_i hnil
    rw [parseParams_of_not_mem hsplit hplain.2.1, hnil]
    refine Prod.ext rfl (Prod.ext rfl ?_)
    apply Std.ExtTreeMap.ext_getElem?
    intro k
    rw [getElem?_eq_last? hpairs, hnil]
    simp
  · rename_i hne
    have hquery : question ∉ encodeQuery encode pairs :=
      not_mem_encodeQuery hencode (by decide) pairs
    rw [parseParams_of_mem hsplit hplain.2.1, untilQuestion_of_not_mem hquery,
      readParams_encodeQuery hencode hsplit hpairs hne]

include hsplit hencode hplain hpairs in
/-- The request line is taken apart into what it was made of. -/
theorem parseInit_encodeLine (method : Method) (version : Version) :
    parseInit mgz (encodeLine method (encodeTarget encode path pairs) version) = .ok
      { method
        uri := encodeTarget encode path pairs
        path
        queryString := encodeQuery encode pairs
        params
        version
        path_head := hpath } := by
  have hsp : SP ∉ encodeTarget encode path pairs := (encodeTarget_plain hencode hplain pairs).1
  simp only [parseInit, hsplit _ _, splitOn_encodeLine method version hsp,
    parseParams_encodeTarget hsplit hencode hplain hpairs, hpath, getHttpMethodByName_name,
    getHttpVersionByName_name]
  rfl

include hsplit hencode hpath hplain hpairs in
/-- A request that was written with LF at the end of its lines is parsed, and every part of it is
what it was. -/
theorem parse_encodeRequest (htrim : mgz.TrimsWhitespace) {mem : Memory}
    (hmem : ∃ c, mem.lineBack = some c ∧ c ≠ CR) (method : Method) (version : Version)
    {h : Header} (hread : h.Readable mgz) {fields : List (Bytes × Any)}
    (hfields : fields.Perm h.fields) (body : Bytes) :
    parse mgz mem (encodeRequest method (encodeTarget encode path pairs) version fields body) =
      .ok
        { method
          uri := encodeTarget encode path pairs
          path
          queryString := encodeQuery encode pairs
          params
          version
          path_head := hpath
          header := h
          body } := by
  have hlines := Header.ends_fieldLines htrim hread hfields .lf
  let m := Message.ofTexts
    (ends_encodeLine .lf method version (encodeTarget_plain hencode hplain pairs).2) hlines body
  have hbytes : m.bytes =
      encodeRequest method (encodeTarget encode path pairs) version fields body :=
    Message.bytes_ofTexts _ _ _
  have hinit := parseInit_encodeLine hsplit hencode hpath hplain hpairs method version
  have hheader : (m.headers.map Line.text).foldl (addHeader mgz) .empty = h := by
    rw [Message.headers_ofTexts]
    exact Header.foldl_addHeader_fieldLine htrim hread hfields
  -- no line ends in CRLF, so that the offset is exact
  have hcrlfs : m.crlfs = 0 :=
    m.crlfs_eq_zero_iff.mpr (Message.eol_ofTexts _ hlines body)
  rw [← hbytes, m.parse_message mgz (fun _ => hmem) hinit, hheader, hcrlfs, Nat.sub_zero,
    List.drop_length, List.nil_append]
  rfl

end RoundTrip

/-- A request with two parameters, one of them with delimiters in its name, and a body with an empty
line in it. -/
theorem parse_encodeRequest_sample :
    let params : Std.ExtTreeMap Bytes Bytes :=
      ((∅ : Std.ExtTreeMap Bytes Bytes).insert (str "a=&b ") (str "A")).insert [] (str "2?")
    let h := Header.empty.assign (str "Host") (.string (str "localhost:80"))
    parse .decoding .zero (encodeRequest .get
        (encodeTarget Percent.encode (str "/toto") params.toList) .http_1_1 h.fields
        (str "c=C\n\nd=4")) =
      .ok
        { method := .get
          uri := encodeTarget Percent.encode (str "/toto") params.toList
          path := str "/toto"
          queryString := encodeQuery Percent.encode params.toList
          params
          version := .http_1_1
          path_head := rfl
          header := h
          body := str "c=C\n\nd=4" } := by
  intro params h
  exact parse_encodeRequest (fun _ _ => rfl) Mgz.decoding_undoesEncoding rfl (by decide)
    (List.Perm.refl _) (fun _ => rfl) ⟨NUL, rfl, by decide⟩ .get .http_1_1
    ((Header.readable_empty .decoding).assign (by decide) (by decide)) (List.Perm.refl _) _

end Request

end Lhs.Http
