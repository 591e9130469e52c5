import LhsServer.Correctness.Parsing

/-!
# More bytes behind a message

The parser splits the whole input into lines, the body included, before it looks at any of them.
Yet bytes that follow the empty line do not reach the lines in front of it: once that line is
terminated, whatever is appended to the message is appended to its body.

- `HasBlankLine`: an empty line behind the request line, with its LF;
- `linesOf_append_of_terminated`: appended bytes only add lines behind a terminated one;
- `parse_append`: the message with more bytes is the same request with a longer body.
-/

namespace Lhs.Http.Request

open Bytes Lines

/-- An empty line, ended by LF or CRLF, follows the first line. -/
def HasBlankLine (data : Bytes) : Prop :=
  ∃ before after init lines, data = before ++ LF :: after ∧
    linesOf (before ++ [LF]) = init :: lines ++ [[]]

theorem linesOf_append_of_terminated (s t : Bytes) :
    linesOf (s ++ LF :: t) = linesOf (s ++ [LF]) ++ linesOf t := by
  rw [linesOf, getlines_append_of_terminated, List.map_append]
  rfl

/-- The lines up to the first empty one do not depend on what follows the message. -/
theorem linesOf_append_of_hasBlankLine {data : Bytes} (h : HasBlankLine data) :
    ∃ init headers, [] ∉ headers ∧
      ∀ more, ∃ rest, linesOf (data ++ more) = init :: headers ++ [] :: rest := by
  obtain ⟨before, after, init, lines, rfl, hlines⟩ := h
  have hmem : ([] : Bytes) ∈ lines ++ [[]] := by simp
  -- the terminated empty line need not be the first one
  obtain ⟨headers, rest, hfirst, hheaders⟩ := List.eq_append_cons_of_mem hmem
  refine ⟨init, headers, hheaders, fun more => ⟨rest ++ linesOf (after ++ more), ?_⟩⟩
  rw [List.append_assoc, List.cons_append, linesOf_append_of_terminated, hlines, List.cons_append,
    hfirst]
  simp

/-- A message that is accepted and has a terminated empty line is accepted with any bytes behind it:
as the same request, with these bytes behind its body. -/
theorem parse_append {mgz : Mgz} {mem : Memory} (hmem : ∃ c, mem.lineBack = some c ∧ c ≠ CR)
    {data : Bytes} (hblank : HasBlankLine data) {r : Request} (h : parse mgz mem data = .ok r)
    (more : Bytes) :
    parse mgz mem (data ++ more) = .ok { r with body := r.body ++ more } := by
  obtain ⟨init, headers, hheaders, hall⟩ := linesOf_append_of_hasBlankLine hblank
  obtain ⟨rest, hlines⟩ := hall []
  obtain ⟨rest', hlines'⟩ := hall more
  rw [List.append_nil] at hlines
  obtain ⟨hinit, hheader, hbody⟩ := parse_of_lines mgz hlines hheaders h
  have hoffset : offsetOf (init :: headers) + 1 ≤ data.length := offset_le_length hlines
  refine parse_of_encodes mgz (fun _ => hmem) ⟨init, headers, rest', hlines', hheaders, hinit,
    hheader, ?_⟩
  -- the body begins within the message, so that the bytes behind it stay together
  rw [List.drop_append_of_le_length hoffset, ← hbody]

/-- A second request behind the first. -/
theorem parse_append_sample :
    ∃ r, parse .plain .zero (str "GET / HTTP/1.1\r\nHost: a\r\n\r\n") = .ok r ∧
      parse .plain .zero
          (str "GET / HTTP/1.1\r\nHost: a\r\n\r\n" ++ str "Host: b\n\nGET /b HTTP/1.1\n\n") =
        .ok { r with body := r.body ++ str "Host: b\n\nGET /b HTTP/1.1\n\n" } := by
  have hpath : (parse .plain .zero (str "GET / HTTP/1.1\r\nHost: a\r\n\r\n")).map (·.path) =
      .ok (str "/") := by decide
  obtain ⟨r, hparse, -⟩ := Run.exists_ok_of_map hpath
  exact ⟨r, hparse, parse_append ⟨NUL, rfl, by decide⟩
    ⟨str "GET / HTTP/1.1\r\nHost: a\r\n\r", [], str "GET / HTTP/1.1", [str "Host: a"],
      by decide, by decide⟩ hparse _⟩

end Lhs.Http.Request
