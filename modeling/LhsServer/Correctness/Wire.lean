import LhsServer.Library.Framing
import LhsServer.Protocol.Http.Response

/-!
# Reading a response that was written

A reference decoder for responses, and what it reads from the bytes `write` assembles: the status
line, one field for each entry of the header, and the body, whatever bytes the body is made of.

- `decodeResponse`: the decoder;
- `Header.OneLine`: the headers whose fields can be told apart when they are written out;
- `Response.decode_assemble`: decoding gives back the response, with the three fields `write` sets.
-/

namespace Lhs.Http

open Bytes Framing

/-! ## The decoder -/

/-- What a client reads. -/
structure Decoded where
  version : Bytes
  code : ℤ
  reason : Bytes
  fields : List (Bytes × Bytes)
  body : Bytes

/-- `name: value` -/
def decodeField (line : Bytes) : Option (Bytes × Bytes) :=
  match cut colon line with
  -- one space behind the `:` belongs to the frame
  | some (name, 32 :: value) => some (name, value)
  | _ => none

/-- The status line up to the first CRLF, the fields up to the first empty line, and the body. -/
def decodeResponse (data : Bytes) : Option Decoded := do
  let (statusLine, data) ← breakLine data
  let (version, statusLine) ← cut SP statusLine
  let (code, reason) ← cut SP statusLine
  let (lines, body) ← breakBlock data
  let fields ← lines.mapM decodeField
  return { version, code := readDecimal code, reason, fields, body }

/-- The decoder takes a text apart at the separators of the status line and behind the block. -/
theorem decodeResponse_append {version code reason rest body : Bytes} {lines : List Bytes}
    {fields : List (Bytes × Bytes)} (hversion : SP ∉ version) (hcode : SP ∉ code)
    (hcr : CR ∉ version ++ SP :: (code ++ SP :: reason))
    (hblock : breakBlock rest = some (lines, body))
    (hfields : lines.mapM decodeField = some fields) :
    decodeResponse (version ++ SP :: (code ++ SP :: reason) ++ CRLF ++ rest) =
      some { version, code := readDecimal code, reason, fields, body } := by
  rw [decodeResponse, breakLine_append hcr]
  simp [cut_append hversion, cut_append hcode, hblock, hfields]

/-! ## Fields -/

/-- The line of one field, without its end. -/
def fieldLine (it : Bytes × Any) : Bytes := it.1 ++ str ": " ++ Header.text it.2

/-- The line of a field is decoded to its name and its text. -/
theorem decodeField_fieldLine {it : Bytes × Any} (hname : colon ∉ it.1) :
    decodeField (fieldLine it) = some (it.1, Header.text it.2) := by
  have hline : fieldLine it = it.1 ++ colon :: SP :: Header.text it.2 := by
    simp [fieldLine, str, colon, SP]
  rw [decodeField, hline, cut_append hname]
  rfl

/-- So are the lines of all fields. -/
theorem mapM_decodeField {fields : List (Bytes × Any)} (h : ∀ it ∈ fields, colon ∉ it.1) :
    (fields.map fieldLine).mapM decodeField =
      some (fields.map fun it => (it.1, Header.text it.2)) := by
  induction fields with
  | nil => rfl
  | cons it fields ih =>
    obtain ⟨hit, hfields⟩ := List.forall_mem_cons.mp h
    simp [decodeField_fieldLine hit, ih hfields]

namespace Header

/-- Every field can be written on one line and found again there: its name has no `:` and no end of
line in it, and its value is a string without an end of line. -/
def OneLine (h : Header) : Prop :=
  ∀ name value, h.get? name = some value →
    (colon ∉ name ∧ CR ∉ name ∧ LF ∉ name) ∧ ∃ s, value = .string s ∧ CR ∉ s ∧ LF ∉ s

/-- An empty header has only fields that stand on one line. -/
theorem oneLine_empty : empty.OneLine := by
  simp [OneLine]

/-- What stands on a line is a string. -/
theorem OneLine.allStrings {h : Header} (hline : h.OneLine) : h.AllStrings := by
  intro name value hget
  obtain ⟨-, s, rfl, -⟩ := hline name value hget
  rfl

/-- A name and a value without line ends keep the header to one line for each field. -/
theorem OneLine.assign {h : Header} (hline : h.OneLine) {name s : Bytes}
    (hname : colon ∉ name ∧ CR ∉ name ∧ LF ∉ name) (hs : CR ∉ s ∧ LF ∉ s) :
    (h.assign name (.string s)).OneLine := by
  intro k value hget
  rw [get?_assign] at hget
  split at hget
  -- the field that was assigned, or one of those before
  · rename_i hk
    cases hget
    exact ⟨hk ▸ hname, s, rfl, hs⟩
  · exact hline k value hget

/-- Its lines are not empty, and have no CR in them. -/
theorem OneLine.fieldLine {h : Header} (hline : h.OneLine) {it : Bytes × Any}
    (hit : it ∈ h.fields) : fieldLine it ≠ [] ∧ CR ∉ fieldLine it := by
  obtain ⟨⟨-, hname, -⟩, s, hvalue, hs, -⟩ := hline it.1 it.2 (mem_fields_iff.mp hit)
  have hcr : CR ∉ str ": " := by decide
  refine ⟨by simp [Http.fieldLine, str], ?_⟩
  simp [Http.fieldLine, hvalue, text, hname, hcr, hs]

end Header

/-! ## The status line -/

/-- The name of a version has no delimiter of the status line in it. -/
theorem versionName_plain (version : Version) :
    SP ∉ getHttpVersionName version ∧ CR ∉ getHttpVersionName version ∧
      NUL ∉ getHttpVersionName version := by
  cases version <;> decide

/-- Nor has a reason. -/
theorem errorName_plain : ∀ entry ∈ httpErrors, CR ∉ entry.2.1 ∧ NUL ∉ entry.2.1 := by
  rw [httpErrors]
  repeat rw [str_ofList]
  decide +kernel

/-- Every enumerator is in the table of errors. -/
theorem mem_httpErrors (e : Error) : ∃ name, (e, name, e.value) ∈ httpErrors := by
  have hfound : (httpErrors.find? (·.1 = e)).isSome = true := by cases e <;> decide
  obtain ⟨entry, hentry⟩ := Option.isSome_iff_exists.mp hfound
  have he : entry.1 = e := by simpa using List.find?_some hentry
  refine ⟨entry.2.1, ?_⟩
  rw [Error.value, hentry, ← he]
  exact List.mem_of_find?_eq_some hentry

/-- Nor has a number. -/
theorem decimal_plain (n : ℤ) : SP ∉ decimal n ∧ CR ∉ decimal n ∧ LF ∉ decimal n := by
  have hplain : ∀ c : UInt8, c.toNat < 45 → c ∉ decimal n := by
    intro c hc hmem
    rcases mem_decimal hmem with rfl | hdigit
    · exact absurd hc (by decide)
    · omega
  exact ⟨hplain SP (by decide), hplain CR (by decide), hplain LF (by decide)⟩

namespace Response

variable {mgz : Mgz}

section Format

variable (hformat : mgz.FormatsAsPrintf)

include hformat

/-- The status line, with its three parts. -/
theorem statusLine_eq {response : Response} {e : Error} {reason : Bytes}
    (he : (e, reason, response.code) ∈ httpErrors) :
    response.statusLine mgz =
      getHttpVersionName response.version ++ SP :: (decimal response.code ++ SP :: reason) ++
        CRLF := by
  have hargs : ∀ arg ∈ [FormatArg.s (cstr (getHttpVersionName response.version)),
      .d response.code, .s (cstr (getHttpErrorName response.code))], ∀ n, arg ≠ .kilobytes n := by
    simp
  rw [statusLine, hformat _ _ hargs, getHttpErrorName_of_mem he,
    cstr_of_nul_not_mem (versionName_plain response.version).2.2,
    cstr_of_nul_not_mem (errorName_plain _ he).2]
  simp [printf, str, SP, CRLF, CR, LF]

end Format

/-- The header that is written out: that of the response, with three fields set. -/
def writtenField (mgz : Mgz) (response : Response) (name : Bytes) : Option Any :=
  if name = str "Server" then some (.string lhsHost)
  else if name = str "Date" then some (.string mgz.nowToHttp)
  else if name = str "Content-Length" then some (.string (decimal response.body.length))
  else response.header.get? name

/-- The fields that are written: those of the response, but for the three that `write` sets. -/
theorem get?_stamp (hconvert : mgz.ConvertsToDecimal) (response : Response) (name : Bytes) :
    (response.stamp mgz).header.get? name = response.writtenField mgz name := by
  have hserver : str "Server" ≠ str "Date" ∧ str "Server" ≠ str "Content-Length" := by decide
  have hdate : str "Date" ≠ str "Content-Length" := by decide
  have hlength := hconvert response.body.length
  simp only [stamp, header_assign, Header.get?_assign, hlength, writtenField]
  split_ifs <;> simp_all

/-- `write` keeps the header to one line for each field. -/
theorem oneLine_stamp (hconvert : mgz.ConvertsToDecimal) (hdate : mgz.DatesOnOneLine)
    {response : Response} (hline : response.header.OneLine) :
    (response.stamp mgz).header.OneLine := by
  -- the three values stand on one line: a constant, a date and a number
  have hlength := decimal_plain response.body.length
  refine ((hline.assign (by decide) (by decide)).assign (by decide) hdate).assign (by decide) ?_
  rw [hconvert]
  exact ⟨hlength.2.1, hlength.2.2⟩

/-- The fields the decoder finds are those that were written. -/
theorem mem_decoded_fields (hconvert : mgz.ConvertsToDecimal) {response : Response}
    (hstamp : (response.stamp mgz).header.OneLine) (name value : Bytes) :
    (name, value) ∈ (response.stamp mgz).header.fields.map
        (fun it => (it.1, Header.text it.2)) ↔
      response.writtenField mgz name = some (.string value) := by
  rw [← get?_stamp hconvert, ← Header.mem_fields_iff, List.mem_map]
  constructor
  · rintro ⟨it, hit, heq⟩
    obtain ⟨rfl, rfl⟩ := Prod.mk.inj heq
    have hstring := hstamp.allStrings it.1 it.2 (Header.mem_fields_iff.mp hit)
    rwa [← hstring]
  · exact fun hmem => ⟨_, hmem, rfl⟩

section Format

variable (hformat : mgz.FormatsAsPrintf)

include hformat

/-- The decoder takes the bytes apart where they were put together. -/
theorem decodeResponse_frame {response : Response} {e : Error} {reason : Bytes}
    (he : (e, reason, response.code) ∈ httpErrors)
    (hstamp : (response.stamp mgz).header.OneLine) :
    decodeResponse (response.statusLine mgz ++
        ((response.stamp mgz).header.fields.flatMap fun it =>
          Header.field it.1 (Header.text it.2)) ++ str "\r\n" ++ response.body) =
      some
        { version := getHttpVersionName response.version
          code := response.code
          reason
          fields := (response.stamp mgz).header.fields.map fun it => (it.1, Header.text it.2)
          body := response.body } := by
  obtain ⟨hsp, hcr, -⟩ := versionName_plain response.version
  obtain ⟨hcodeSp, hcodeCr, -⟩ := decimal_plain response.code
  have hreason := (errorName_plain _ he).1
  have hstatus : CR ∉ getHttpVersionName response.version ++
      SP :: (decimal response.code ++ SP :: reason) := by
    have hcrsp : CR ≠ SP := by decide
    simp [hcr, hcodeCr, hreason, hcrsp]
  have hlines : ∀ line ∈ (response.stamp mgz).header.fields.map fieldLine,
      line ≠ [] ∧ CR ∉ line := by
    intro line hline
    obtain ⟨it, hit, rfl⟩ := List.mem_map.mp hline
    exact hstamp.fieldLine hit
  have hnames : ∀ it ∈ (response.stamp mgz).header.fields, colon ∉ it.1 := fun it hit =>
    (hstamp it.1 it.2 (Header.mem_fields_iff.mp hit)).1.1
  have hfields : ((response.stamp mgz).header.fields.flatMap fun it =>
      Header.field it.1 (Header.text it.2)) =
        ((response.stamp mgz).header.fields.map fieldLine).flatMap (· ++ CRLF) := by
    rw [List.flatMap_map]
    rfl
  -- the empty line that `write` adds is the end of the block
  have hassoc : ∀ a b c : Bytes, a ++ b ++ str "\r\n" ++ c = a ++ (b ++ CRLF ++ c) := by
    simp [str, CRLF, CR, LF]
  rw [statusLine_eq hformat he, hfields, hassoc,
    decodeResponse_append hsp hcodeSp hstatus (breakBlock_append hlines response.body)
      (mapM_decodeField hnames), readDecimal_decimal]

end Format

/-- The decoder has read what the response holds, with the three fields `write` sets. -/
structure ReadAs (mgz : Mgz) (response : Response) (decoded : Decoded) : Prop where
  version : decoded.version = getHttpVersionName response.version
  code : decoded.code = response.code
  /-- the reason phrase stands beside the code in the table of errors -/
  reason : ∃ e, (e, decoded.reason, response.code) ∈ httpErrors
  /-- no name is read twice -/
  nodup_names : (decoded.fields.map (·.1)).Nodup
  fields : ∀ name value, (name, value) ∈ decoded.fields ↔
    response.writtenField mgz name = some (.string value)
  contentLength : ∀ value, (str "Content-Length", value) ∈ decoded.fields ↔
    value = decimal decoded.body.length
  body : decoded.body = response.body

/-- Every response whose code is an enumerator and whose header fields fit on lines of their own is
assembled, and decoding the bytes gives it back, whatever its body is and whatever was stored under
the three names before. -/
theorem decode_assemble (hformat : mgz.FormatsAsPrintf) (hconvert : mgz.ConvertsToDecimal)
    (hdate : mgz.DatesOnOneLine) {response : Response} {e : Error}
    (hcode : response.code = e.value) (hline : response.header.OneLine) :
    ∃ data decoded, response.assemble mgz = .ok data ∧ decodeResponse data = some decoded ∧
      ReadAs mgz response decoded := by
  obtain ⟨reason, he⟩ := mem_httpErrors e
  rw [← hcode] at he
  have hstamp := oneLine_stamp hconvert hdate hline
  have hassemble := assemble_of_stringsExcept mgz
    ((allStrings_stamp_iff mgz response).mp hstamp.allStrings)
  refine ⟨_, _, hassemble, decodeResponse_frame hformat he hstamp, rfl, rfl, ⟨e, he⟩, ?_, ?_, ?_,
    rfl⟩
  · rw [List.map_map]
    exact Header.nodup_fields _
  · exact mem_decoded_fields hconvert hstamp
  · intro value
    have hmem := mem_decoded_fields hconvert hstamp (str "Content-Length") value
    -- the entry is that of `write`, whatever the header held under the name
    have hserver : str "Content-Length" ≠ str "Server" := by decide
    have hname : str "Content-Length" ≠ str "Date" := by decide
    rw [hmem, writtenField, if_neg hserver, if_neg hname, if_pos rfl]
    simp [eq_comm]

/-- A body that begins like the end of a header, under a Content-Length of its own. -/
theorem decode_assemble_sample :
    let response : Response :=
      { code := 404
        version := .http_1_1
        body := str "\r\n\r\nHost: localhost\r\n\r\n"
        header := Header.empty.assign (str "Content-Length") (.string (str "7")) }
    ∃ data decoded, response.assemble .plain = .ok data ∧ decodeResponse data = some decoded ∧
      ReadAs .plain response decoded := by
  intro response
  exact decode_assemble Mgz.plain_formatsAsPrintf Mgz.plain_convertsToDecimal
    Mgz.plain_datesOnOneLine (e := .notFound) (by decide)
    (Header.oneLine_empty.assign (by decide) (by decide))

end Response

end Lhs.Http
