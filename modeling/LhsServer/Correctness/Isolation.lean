import LhsServer.Correctness.Parsing
import LhsServer.Correctness.Stack
import LhsServer.Main

/-!
# What a client can do to the server

The thread of a client is to contain every error and to close the connection once, whatever the
client sends. It does so on the path of a well-formed request and on no other: a failed read returns
without closing, and nothing in the thread catches what the request constructor, the header or
`write` throw.

- `Delivers`: the reads bring the bytes of a message to the loop;
- `serve_of_answersInStrings`, `serve_fails`: the path through the thread behind the loop;
- `clientThread_isolated_iff`: the reads and the applications for which the thread keeps its errors
  to itself;
- `clientThread_escapes`: a rejected request ends the process, and a failed read leaves the
  connection open.
-/

namespace Lhs.Server

open Bytes Http Request

/-! ## Reading -/

/-- The reads bring the bytes `data` before any of them fails: every read but the last fills the
buffer, and the last does not. -/
inductive Delivers : List ReadResult → Bytes → Prop
  | last {bytes : Bytes} (hlength : bytes.length ≤ bufferSize) (rest : List ReadResult)
      (hshort : bytes.length < bufferSize) : Delivers (.received bytes hlength :: rest) bytes
  | more {bytes data : Bytes} (hlength : bytes.length ≤ bufferSize) {reads : List ReadResult}
      (hfull : bytes.length = bufferSize) (h : Delivers reads data) :
      Delivers (.received bytes hlength :: reads) (bytes ++ data)

theorem readLoop_of_delivers {reads : List ReadResult} {data : Bytes} (h : Delivers reads data)
    (buffer : Bytes) : readLoop reads buffer = .done (buffer ++ data) := by
  induction h generalizing buffer with
  | @last bytes hlength rest hshort =>
    simp only [readLoop]
    split
    · next hempty => simp [List.length_eq_zero_iff.mp hempty]
    · rfl
  | @more bytes data hlength reads hfull h ih =>
    have hempty : bytes.length ≠ 0 := by simp [hfull, bufferSize]
    have hnotShort : ¬bytes.length < bufferSize := by omega
    simp only [readLoop, if_neg hempty, if_neg hnotShort]
    rw [ih, List.append_assoc]

theorem delivers_of_readLoop {reads : List ReadResult} {buffer result : Bytes}
    (h : readLoop reads buffer = .done result) :
    ∃ data, Delivers reads data ∧ result = buffer ++ data := by
  induction reads generalizing buffer with
  | nil => cases h
  | cons read reads ih =>
    cases read with
    | failed => cases h
    | received bytes hlength =>
      -- an empty read is a short one: both end the loop
      by_cases hshort : bytes.length < bufferSize
      · refine ⟨bytes, .last hlength reads hshort, ?_⟩
        have hdone := readLoop_of_delivers (.last hlength reads hshort) buffer
        rw [h] at hdone
        exact ReadEnd.done.inj hdone
      · have hempty : bytes.length ≠ 0 := by
          simp only [bufferSize] at hshort
          omega
        simp only [readLoop, if_neg hempty, if_neg hshort] at h
        obtain ⟨data, hdata, rfl⟩ := ih h
        exact ⟨bytes ++ data, .more hlength (by omega) hdata, List.append_assoc _ _ _⟩

/-! ## Answering -/

/-- The application answers the request with a response that can be written: a field whose value is
no string is one of those that are set later. -/
def AnswersInStrings (mem : Memory) (fs : FileSystem) (app : Option Middleware)
    (request : Request) : Prop :=
  ∀ call r, app = some call → (call (Env.ofRequest mem request)).value fs = .ok r →
    r.header.StringsExcept
      (if r.code = 0 then str "Content-Type" :: str "Pragma" :: Response.stampedNames
      else Response.stampedNames)

section Thread

variable (mgz : Mgz) (mem : Memory) {app : Option Middleware} {fs : FileSystem}
  (socketWrite : Bytes → ℤ)

theorem stringsExcept_notFoundPage (uri : Bytes) (response : Response) (names : List Bytes) :
    (notFoundPage mgz uri response).header.StringsExcept names ↔
      response.header.StringsExcept (str "Content-Type" :: str "Pragma" :: names) := by
  rw [header_notFoundPage, Header.stringsExcept_assign_iff, Header.stringsExcept_assign_iff]

variable (happ : ∀ call, app = some call → ∀ env, ∃ r, (call env).value fs = .ok r)

include happ

/-- The thread finds a response for every request, and that response can be written when the answer
of the application can. -/
theorem respond_isOk (request : Request) :
    ∃ response, (respond mgz mem app request).value fs = .ok response ∧
      (response.header.StringsExcept Response.stampedNames ↔
        AnswersInStrings mem fs app request) := by
  cases app with
  | none =>
    refine ⟨_, respond_none mgz mem request fs, ?_⟩
    rw [stringsExcept_notFoundPage]
    exact iff_of_true (Header.stringsExcept_empty _) fun _ _ hcall => nomatch hcall
  | some call =>
    obtain ⟨r, hr⟩ := happ call rfl (Env.ofRequest mem request)
    -- there is only one answer: that of the application to this request
    have hanswers : AnswersInStrings mem fs (some call) request ↔
        r.header.StringsExcept
          (if r.code = 0 then str "Content-Type" :: str "Pragma" :: Response.stampedNames
          else Response.stampedNames) := by
      refine ⟨fun h => h call r rfl hr, fun h call' r' hcall hr' => ?_⟩
      cases hcall
      rw [hr, Except.ok.injEq] at hr'
      rwa [← hr']
    rw [value_respond, hr, Traced.ok_bind, hanswers]
    refine ⟨_, rfl, ?_⟩
    by_cases hcode : r.code = 0
    -- the not-found page sets two more fields
    · rw [orNotFound_of_code_zero mgz _ hcode, stringsExcept_notFoundPage, if_pos hcode]
    · rw [orNotFound_of_code_ne_zero mgz _ hcode, if_neg hcode]

/-- A request that is accepted leads to the attempt to write a response. -/
theorem serve_of_encodes {buffer : Bytes} {request : Request} (hsafe : SafeAccess mem buffer)
    (hencodes : Encodes mgz buffer request) :
    ∃ response : Response, (serve mgz mem app socketWrite buffer).value fs =
        response.write mgz socketWrite ∧
      (response.header.StringsExcept Response.stampedNames ↔
        AnswersInStrings mem fs app request) := by
  obtain ⟨response, hrespond, hstrings⟩ := respond_isOk mgz mem happ request
  have hparse := (parse_eq_ok_iff mgz mem buffer request).mpr ⟨hsafe, hencodes⟩
  exact ⟨response, by simp [serve, hparse, hrespond], hstrings⟩

/-- A request that is accepted and answered in strings is written. -/
theorem serve_of_answersInStrings {buffer : Bytes} {request : Request}
    (hsafe : SafeAccess mem buffer) (hencodes : Encodes mgz buffer request)
    (hanswers : AnswersInStrings mem fs app request) :
    ∃ data, (serve mgz mem app socketWrite buffer).value fs = .ok (data, socketWrite data) := by
  obtain ⟨response, hserve, hstrings⟩ := serve_of_encodes mgz mem socketWrite happ hsafe hencodes
  rw [hserve, Response.write, Response.assemble_of_stringsExcept mgz (hstrings.mpr hanswers)]
  exact ⟨_, rfl⟩

/-- Everything else leaves the thread as a fault. -/
theorem serve_fails {buffer : Bytes}
    (h : ¬∃ request, SafeAccess mem buffer ∧ Encodes mgz buffer request ∧
      AnswersInStrings mem fs app request) :
    ∃ f, (serve mgz mem app socketWrite buffer).value fs = .error f := by
  rcases hparse : parse mgz mem buffer with f | request
  · exact ⟨f, by simp [serve, hparse]⟩
  · obtain ⟨hsafe, hencodes⟩ := (parse_eq_ok_iff mgz mem buffer request).mp hparse
    obtain ⟨response, hserve, hstrings⟩ := serve_of_encodes mgz mem socketWrite happ hsafe hencodes
    have hassemble := Response.assemble_of_not_stringsExcept mgz fun hok =>
      h ⟨request, hsafe, hencodes, hstrings.mp hok⟩
    exact ⟨.throw .badAnyCast, by simp [hserve, Response.write, hassemble]⟩

end Thread

/-! ## The whole thread -/

/-- The thread ends without an exception, and has closed the connection once. -/
structure Isolated (outcome : Outcome) : Prop where
  ends : outcome.ending = .returned ∨ outcome.ending = .exited
  closed : outcome.closes = 1

/-- The thread keeps its errors to itself and closes the connection exactly when the reads bring a
well-formed request before one of them fails, and the application answers it in strings. -/
theorem clientThread_isolated_iff (mgz : Mgz) (mem : Memory) (app : Option Middleware)
    (fs : FileSystem) (reads : List ReadResult) (socketWrite : Bytes → ℤ)
    (happ : ∀ call, app = some call → ∀ env, ∃ r, (call env).value fs = .ok r)
    (hwrite : ∀ data, -1 ≤ socketWrite data) :
    Isolated (clientThread mgz mem app fs reads socketWrite) ↔
      ∃ data, Delivers reads data ∧ ∃ request, SafeAccess mem data ∧ Encodes mgz data request ∧
        AnswersInStrings mem fs app request := by
  constructor
  · intro h
    -- every other path ends before the connection is closed
    by_contra hcon
    have hcloses : (clientThread mgz mem app fs reads socketWrite).closes = 0 := by
      rw [clientThread]
      rcases hread : readLoop reads [] with buffer | - | buffer
      · obtain ⟨data, hdata, hbuffer⟩ := delivers_of_readLoop hread
        rw [List.nil_append] at hbuffer
        obtain ⟨f, hf⟩ := serve_fails mgz mem socketWrite happ fun hrequest =>
          hcon ⟨data, hdata, hrequest⟩
        simp only [hbuffer, hf]
        rfl
      · rfl
      · rfl
    rw [h.closed] at hcloses
    cases hcloses
  · rintro ⟨data, hdata, request, hsafe, hencodes, hanswers⟩
    obtain ⟨written, hserve⟩ := serve_of_answersInStrings mgz mem socketWrite happ hsafe hencodes
      hanswers
    have hresult : ¬-1 > socketWrite written := by
      have := hwrite written
      omega
    rw [clientThread, readLoop_of_delivers hdata, List.nil_append]
    simp only [hserve, if_neg hresult]
    exact ⟨Or.inr rfl, rfl⟩

/-- A request for the application of `main`, in one read. -/
theorem clientThread_isolated_about :
    Isolated (clientThread .plain .zero (some (about none)) (.ofFiles [])
      [.received (str "GET /about HTTP/1.1\n\n") (by decide)] fun data => data.length) := by
  refine (clientThread_isolated_iff .plain .zero (some (about none)) (.ofFiles []) _ _ ?_ ?_).mpr
    ⟨_, .last _ [] (by decide), ?_⟩
  · rintro call ⟨⟩ env
    exact ⟨_, rfl⟩
  · intro data
    have := Int.natCast_nonneg data.length
    omega
  -- the request is read off the bytes by running the parser
  · obtain ⟨request, hparse⟩ :
        ∃ request, parse .plain .zero (str "GET /about HTTP/1.1\n\n") = .ok request := ⟨_, rfl⟩
    obtain ⟨hsafe, hencodes⟩ := (parse_eq_ok_iff _ _ _ _).mp hparse
    refine ⟨request, hsafe, hencodes, ?_⟩
    rintro call r ⟨⟩ ⟨⟩
    exact (Header.stringsExcept_assign_iff _ _ _ _).mpr (Header.stringsExcept_empty _)

/-- A line that is no request line ends the process, and a connection that is reset before a byte
was read is never closed. -/
theorem clientThread_escapes :
    let thread reads := clientThread .plain .zero none (.ofFiles []) reads fun data => data.length
    thread [.received (str "GET\n") (by decide)] =
        .early (.fault (.throw (.requestError "Bad request"))) ∧
      thread [.failed] = { ending := .returned, closes := 0, written := none } ∧
      ¬Isolated (thread [.received (str "GET\n") (by decide)]) ∧
      ¬Isolated (thread [.failed]) := by
  intro thread
  have hrejected : thread [.received (str "GET\n") (by decide)] =
      .early (.fault (.throw (.requestError "Bad request"))) := rfl
  have hreset : thread [.failed] = { ending := .returned, closes := 0, written := none } := rfl
  refine ⟨hrejected, hreset, fun h => ?_, fun h => ?_⟩
  · rw [hrejected] at h
    exact absurd h.closed (by decide)
  · rw [hreset] at h
    exact absurd h.closed (by decide)

end Lhs.Server
