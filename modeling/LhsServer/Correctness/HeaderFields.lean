import LhsServer.Correctness.Totality
import LhsServer.Library.Bindings
import LhsServer.Library.Framing

/-!
# Header lines

What the header loop of `parse` stores for the lines between the request line and the empty line. A
line is a name, a `:` and a value; the loop takes a line without a `:` for both the name and the
value of a field.

- `Header.get?_foldl_assign`: what a header holds after a list of assignments;
- `get?_foldl_addHeader`: what it holds after the loop;
- `readsFields_iff`: the loop treats the lines as it is to exactly when each of them has a `:`.
-/

namespace Lhs.Http

open Bytes Framing Bindings Lines

namespace Header

/-- After a list of assignments a header holds the last value assigned to each field. -/
theorem get?_foldl_assign (bs : List (Bytes × Any)) (h : Header) (key : Bytes) :
    (bs.foldl (fun h b => h.assign b.1 b.2) h).get? key = (last? key bs).or (h.get? key) := by
  refine get_foldl get? assign (fun h key value k => ?_) bs h key
  rw [get?_assign]
  simp only [eq_comm]

/-- The fields of a header, assigned in any order, give the header. -/
theorem foldl_assign_fields {h : Header} {fields : List (Bytes × Any)}
    (hfields : fields.Perm h.fields) :
    fields.foldl (fun h b => h.assign b.1 b.2) empty = h := by
  ext1 key
  rw [get?_foldl_assign, get?_empty, Option.or_none]
  exact (getElem?_eq_last? hfields key).symm

end Header

namespace Request

variable (mgz : Mgz)

/-- The field on a header line: the trimmed texts before and behind its first `:`. -/
def fieldOf (line : Bytes) : Option (Bytes × Any) :=
  (cut colon line).map fun (name, value) => (mgz.trim name, .string (mgz.trim value))

/-- The fields on the header lines that have a `:`, in order. -/
def fieldsOf (lines : List Bytes) : List (Bytes × Any) := lines.filterMap (fieldOf mgz)

/-- A line is read as a name, a `:` and a value. -/
theorem addHeader_append {name : Bytes} (hname : colon ∉ name) (value : Bytes) (header : Header) :
    addHeader mgz header (name ++ colon :: value) =
      header.assign (mgz.trim name) (.string (mgz.trim value)) := by
  simp only [addHeader, upTo_find hname, after_find hname]

/-- The loop assigns the fields on its lines. -/
theorem foldl_addHeader {lines : List Bytes} (h : ∀ line ∈ lines, colon ∈ line)
    (header : Header) :
    lines.foldl (addHeader mgz) header =
      (fieldsOf mgz lines).foldl (fun h b => h.assign b.1 b.2) header := by
  induction lines generalizing header with
  | nil => rfl
  | cons line lines ih =>
    obtain ⟨hline, hlines⟩ := List.forall_mem_cons.mp h
    obtain ⟨name, value, rfl, hname⟩ := List.eq_append_cons_of_mem hline
    have hfield : fieldOf mgz (name ++ colon :: value) =
        some (mgz.trim name, .string (mgz.trim value)) := by
      rw [fieldOf, cut_append hname]
      rfl
    rw [List.foldl_cons, addHeader_append mgz hname, ih hlines, fieldsOf, fieldsOf,
      List.filterMap_cons_some hfield, List.foldl_cons]

theorem get?_foldl_addHeader {lines : List Bytes} (h : ∀ line ∈ lines, colon ∈ line)
    (key : Bytes) :
    (lines.foldl (addHeader mgz) .empty).get? key = last? key (fieldsOf mgz lines) := by
  rw [foldl_addHeader mgz h, Header.get?_foldl_assign, Header.get?_empty, Option.or_none]

/-! ## The header of a message -/

variable (mem : Memory) (data : Bytes)

/-- The parser treats the header lines of the message `data` as it is to. -/
structure ReadsFields (headers : List Bytes) : Prop where
  /-- a message with a line that has no `:` is rejected -/
  rejects : (∃ line ∈ headers, colon ∉ line) → Rejected mgz mem data
  /-- otherwise the header holds exactly the fields on the lines, the last one of each name -/
  accepts : (∀ line ∈ headers, colon ∈ line) →
    ∃ r, parse mgz mem data = .ok r ∧ ∀ key, r.header.get? key = last? key (fieldsOf mgz headers)
  /-- the text of a line without a `:` is not stored as a value -/
  stores : ∀ r, parse mgz mem data = .ok r → ∀ line ∈ headers, colon ∉ line →
    ∀ key, r.header.get? key ≠ some (.string (mgz.trim line))

variable {mem data} {init : Bytes} {headers rest : List Bytes}

/-- A message with a valid request line and an empty line is never rejected, whatever stands on the
lines between them. -/
theorem not_rejected (hlines : linesOf data = init :: headers ++ [] :: rest)
    (hheaders : [] ∉ headers) (hinit : ∃ line, parseInit mgz init = .ok line) :
    ¬Rejected mgz mem data := by
  rintro ⟨what, hwhat⟩
  obtain ⟨line, hinit⟩ := hinit
  by_cases hsafe : SafeAccess mem data
  · have hencodes : Encodes mgz data
        { toRequestLine := line
          header := headers.foldl (addHeader mgz) .empty
          body := data.drop (offsetOf (init :: headers) + 1) } :=
      ⟨init, headers, rest, hlines, hheaders, hinit, rfl, rfl⟩
    rw [parse_of_encodes mgz hsafe hencodes] at hwhat
    cases hwhat
  · obtain ⟨f, hf, hcases⟩ := readLines_of_unsafe hsafe
    rw [parse, parseHead, hf] at hwhat
    rcases hcases with rfl | rfl <;> cases hwhat

/-- The header lines of a message with a valid request line are treated as they are to be exactly
when each of them has a `:` and the accesses to empty lines are harmless. -/
theorem readsFields_iff (hlines : linesOf data = init :: headers ++ [] :: rest)
    (hheaders : [] ∉ headers) (hinit : ∃ line, parseInit mgz init = .ok line) :
    ReadsFields mgz mem data headers ↔
      SafeAccess mem data ∧ ∀ line ∈ headers, colon ∈ line := by
  constructor
  · intro h
    have hcolon : ∀ line ∈ headers, colon ∈ line := by
      intro line hline
      by_contra hnot
      exact not_rejected mgz hlines hheaders hinit (h.rejects ⟨line, hline, hnot⟩)
    obtain ⟨r, hr, -⟩ := h.accepts hcolon
    exact ⟨((parse_eq_ok_iff mgz mem data r).mp hr).1, hcolon⟩
  · rintro ⟨hsafe, hcolon⟩
    obtain ⟨line, hinit⟩ := hinit
    have hok : parse mgz mem data = .ok
        { toRequestLine := line
          header := headers.foldl (addHeader mgz) .empty
          body := data.drop (offsetOf (init :: headers) + 1) } :=
      parse_of_encodes mgz hsafe ⟨init, headers, rest, hlines, hheaders, hinit, rfl, rfl⟩
    refine ⟨?_, fun _ => ⟨_, hok, get?_foldl_addHeader mgz hcolon⟩, ?_⟩
    · rintro ⟨line, hline, hnot⟩
      exact absurd (hcolon line hline) hnot
    · intro r _ line hline hnot
      exact absurd (hcolon line hline) hnot

/-- Two header lines with the same name. -/
theorem readsFields_sample :
    ReadsFields .plain .zero (str "GET / HTTP/1.1\nA: 1\nA: x:y\n\n")
      [str "A: 1", str "A: x:y"] := by
  have hlines : linesOf (str "GET / HTTP/1.1\nA: 1\nA: x:y\n\n") =
      str "GET / HTTP/1.1" :: [str "A: 1", str "A: x:y"] ++ [] :: [] := by decide
  exact (readsFields_iff .plain hlines (by decide) ⟨_, rfl⟩).mpr
    ⟨fun _ => ⟨NUL, rfl, by decide⟩, by decide⟩

/-- A line without a `:` is not rejected, and its text becomes the value of a field. -/
theorem readsFields_fails :
    linesOf (str "GET / HTTP/1.1\nfoo\n\n") = str "GET / HTTP/1.1" :: [str "foo"] ++ [] :: [] ∧
      (∃ r, parse .plain .zero (str "GET / HTTP/1.1\nfoo\n\n") = .ok r ∧
        r.header.get? (str "foo") = some (.string (str "foo"))) ∧
      ¬ReadsFields .plain .zero (str "GET / HTTP/1.1\nfoo\n\n") [str "foo"] := by
  have hlines : linesOf (str "GET / HTTP/1.1\nfoo\n\n") =
      str "GET / HTTP/1.1" :: [str "foo"] ++ [] :: [] := by decide
  have hstored : (parse .plain .zero (str "GET / HTTP/1.1\nfoo\n\n")).map
      (·.header.get? (str "foo")) = .ok (some (.string (str "foo"))) := by decide
  refine ⟨hlines, Run.exists_ok_of_map hstored, fun h => ?_⟩
  refine not_rejected .plain hlines (by decide) ⟨_, rfl⟩ (h.rejects ⟨str "foo", ?_, ?_⟩)
  · exact List.mem_singleton_self _
  · decide

end Request

end Lhs.Http
