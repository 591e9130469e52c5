import LhsServer.Correctness.Target

/-!
# Malformed input

The request constructor is to end with a request or with a `request_error` on every input. It does
so on all but two kinds of input: the header loop only ends at an empty line, and the first line
is taken from the deque without a look at whether there is one.

- `handlesInput_iff`: the inputs on which the constructor does what it is to do;
- `handlesInput_fails`: an input without a line, and one that is cut before its empty line.
-/

namespace Lhs.Http.Request

open Bytes Lines

/-- Three pieces separated by spaces, the second of which starts with `/`. -/
def ValidFirstLine (init : Bytes) : Prop :=
  ∃ method uri version, init.splitOn SP = [method, uri, version] ∧ uri.head? = some slash

/-- The constructor ends with a `request_error`. -/
def Rejected (mgz : Mgz) (mem : Memory) (data : Bytes) : Prop :=
  ∃ what, parse mgz mem data = .error (.throw (.requestError what))

/-- The constructor does what it is to do on the input `data`. -/
structure HandlesInput (mgz : Mgz) (mem : Memory) (data : Bytes) : Prop where
  /-- it ends with a request or with a `request_error` -/
  ends : (∃ request, parse mgz mem data = .ok request) ∨ Rejected mgz mem data
  /-- it does not ask an empty deque for its front -/
  front : parse mgz mem data ≠ .error (.undefined .emptyDeque)
  /-- input without a line is rejected -/
  rejects_no_line : linesOf data = [] → Rejected mgz mem data
  /-- input with an invalid first line is rejected -/
  rejects_first_line : ∀ init lines, linesOf data = init :: lines → ¬ValidFirstLine init →
    Rejected mgz mem data
  /-- input without an empty line behind the first one is rejected -/
  rejects_no_empty_line : ∀ init lines, linesOf data = init :: lines → [] ∉ lines →
    Rejected mgz mem data
  /-- input with a valid first line, header lines with a colon and an empty line is accepted -/
  accepts : ∀ init headers rest, linesOf data = init :: headers ++ [] :: rest →
    ValidFirstLine init → (∀ line ∈ headers, line ≠ [] ∧ colon ∈ line) →
    ∃ request, parse mgz mem data = .ok request

section Split

variable {mgz : Mgz} (hsplit : mgz.SplitsPieces)

include hsplit

/-- The path of a uri starts with `/` exactly when the uri does. -/
theorem head?_path (uri : Bytes) :
    (parseParams mgz uri).1.head? = some slash ↔ uri.head? = some slash := by
  rw [path_parseParams hsplit]
  cases uri with
  | nil => rfl
  | cons c uri =>
    -- a uri that begins with `?` has an empty path, and does not begin with `/`
    by_cases hc : c = question
    · simp [untilQuestion, hc, question, slash]
    · rw [untilQuestion, List.takeWhile_cons_of_pos (by simpa using hc), List.head?_cons,
        List.head?_cons]

/-- `parse_init` accepts the valid first lines. -/
theorem parseInit_ok_iff (init : Bytes) :
    (∃ line, parseInit mgz init = .ok line) ↔ ValidFirstLine init := by
  rw [parseInit, hsplit]
  constructor
  · rintro ⟨line, hline⟩
    split at hline
    · rename_i method uri version hpieces
      dsimp only at hline
      split at hline
      · rename_i hhead
        exact ⟨method, uri, version, hpieces, (head?_path hsplit uri).mp hhead⟩
      · cases hline
    · cases hline
  · rintro ⟨method, uri, version, hpieces, hhead⟩
    rw [hpieces]
    dsimp only
    rw [dif_pos ((head?_path hsplit uri).mpr hhead)]
    exact ⟨_, rfl⟩

/-- A first line that `parse_init` rejects is not valid. -/
theorem not_validFirstLine_of_error {init : Bytes} {fault : Fault}
    (h : parseInit mgz init = .error fault) : ¬ValidFirstLine init := by
  intro hvalid
  obtain ⟨line, hline⟩ := (parseInit_ok_iff hsplit init).mpr hvalid
  rw [h] at hline
  cases hline

variable {mem : Memory} (hmem : ∃ c, mem.lineBack = some c ∧ c ≠ CR)

include hmem

/-- The constructor does what it is to do exactly on the inputs that have a line, and an empty line
behind the first one if that is valid. -/
theorem handlesInput_iff (data : Bytes) :
    HandlesInput mgz mem data ↔
      linesOf data ≠ [] ∧
        ∀ init lines, linesOf data = init :: lines → ValidFirstLine init → [] ∈ lines := by
  have hsafe : SafeAccess mem data := fun _ => hmem
  constructor
  · intro h
    rcases parse_cases mgz hsafe with ⟨-, herror⟩ | ⟨init, lines, what, hlines, hinit, -⟩ |
      ⟨-, -, -, -, -, -, herror⟩ | ⟨request, ⟨init, headers, rest, hlines, -⟩, -⟩
    · exact absurd herror h.front
    · refine ⟨by rw [hlines]; exact List.cons_ne_nil _ _, fun init' lines' hlines' hvalid => ?_⟩
      rw [hlines, List.cons.injEq] at hlines'
      exact absurd (hlines'.1 ▸ hvalid) (not_validFirstLine_of_error hsplit hinit)
    · exact absurd herror h.front
    · refine ⟨by rw [hlines]; exact List.cons_ne_nil _ _, fun init' lines' hlines' _ => ?_⟩
      rw [hlines, List.cons_append, List.cons.injEq] at hlines'
      rw [← hlines'.2]
      simp
  · rintro ⟨hne, hempty⟩
    rcases parse_cases mgz hsafe with ⟨rfl, -⟩ | ⟨init, lines, what, hlines, hinit, herror⟩ |
      ⟨init, lines, line, hlines, hinit, hnot, -⟩ | ⟨request, hencodes, hok⟩
    · exact absurd rfl hne
    · have hrejected : Rejected mgz mem data := ⟨what, herror⟩
      refine ⟨Or.inr hrejected, by rw [herror]; nofun, fun _ => hrejected,
        fun _ _ _ _ => hrejected, fun _ _ _ _ => hrejected, ?_⟩
      intro init' headers rest hlines' hvalid
      rw [hlines, List.cons_append, List.cons.injEq] at hlines'
      exact absurd (hlines'.1 ▸ hvalid) (not_validFirstLine_of_error hsplit hinit)
    · have hvalid := (parseInit_ok_iff hsplit init).mp ⟨line, hinit⟩
      exact absurd (hempty init lines hlines hvalid) hnot
    · obtain ⟨init, headers, rest, hlines, -, hinit, -, -⟩ := hencodes
      have hvalid := (parseInit_ok_iff hsplit init).mp ⟨_, hinit⟩
      refine ⟨Or.inl ⟨request, hok⟩, by rw [hok]; nofun, fun hnil => absurd hnil hne, ?_, ?_,
        fun _ _ _ _ _ _ => ⟨request, hok⟩⟩
      · intro init' lines' hlines' hinvalid
        rw [hlines, List.cons_append, List.cons.injEq] at hlines'
        exact absurd (hlines'.1 ▸ hvalid) hinvalid
      · intro init' lines' hlines' hnot
        rw [hlines, List.cons_append, List.cons.injEq] at hlines'
        refine absurd ?_ hnot
        rw [← hlines'.2]
        simp

end Split

/-- A valid request, and one whose first line is no request line. -/
theorem handlesInput_sample :
    HandlesInput .plain .zero (str "GET / HTTP/1.1\nHost: localhost\n\n") ∧
      HandlesInput .plain .zero (str "GET\n") := by
  have hmem : ∃ c, Memory.zero.lineBack = some c ∧ c ≠ CR := ⟨NUL, rfl, by decide⟩
  constructor
  · refine (handlesInput_iff Mgz.plain_splitsPieces hmem _).mpr ⟨by decide, ?_⟩
    intro init lines hlines _
    have heq : linesOf (str "GET / HTTP/1.1\nHost: localhost\n\n") =
        str "GET / HTTP/1.1" :: [str "Host: localhost", []] := by decide
    rw [heq, List.cons.injEq] at hlines
    rw [← hlines.2]
    decide
  · refine (handlesInput_iff Mgz.plain_splitsPieces hmem _).mpr ⟨by decide, ?_⟩
    rintro init lines hlines ⟨method, uri, version, hpieces, -⟩
    have heq : linesOf (str "GET\n") = str "GET" :: [] := by decide
    have hone : (str "GET").splitOn SP = [str "GET"] := by decide
    rw [heq, List.cons.injEq] at hlines
    rw [← hlines.1, hone] at hpieces
    cases hpieces

/-- No input at all, and a request that is cut before its empty line: in both cases the front of an
empty deque is read. -/
theorem handlesInput_fails :
    (parse .plain .zero [] = .error (.undefined .emptyDeque) ∧ ¬HandlesInput .plain .zero []) ∧
      parse .plain .zero (str "GET / HTTP/1.1\nHost: localhost\n") =
        .error (.undefined .emptyDeque) ∧
      ¬HandlesInput .plain .zero (str "GET / HTTP/1.1\nHost: localhost\n") := by
  have hcut : parse .plain .zero (str "GET / HTTP/1.1\nHost: localhost\n") =
      .error (.undefined .emptyDeque) := by rfl
  exact ⟨⟨rfl, fun h => h.front rfl⟩, hcut, fun h => h.front hcut⟩

end Lhs.Http.Request
