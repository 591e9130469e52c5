import LhsServer.Correctness.Parsing
import LhsServer.Main
import LhsServer.Server.ClientThread
import Mathlib.Data.List.TakeDrop

/-!
# Sending a response

`client_thread` calls `write` once, and takes every result of it from `-1` on for success. So the
client gets the whole response, and the thread fails otherwise, only where that one call takes all
the bytes.

- `WriteResult`: what `write` may return, and `Outcome.delivered`: what then reaches the client;
- `clientThread_of_assembled`: the thread ends normally whatever `write` returns;
- `clientThread_allOrError_iff`: the results for which the thread sends all or fails.
-/

namespace Lhs.Server

open Bytes Http

/-- A result of `write(socket, data, size)` for some bytes: `-1`, or the number of bytes at the
front that were taken, at least one. -/
def WriteResult (data : Bytes) (n : ℤ) : Prop := n = -1 ∨ (1 ≤ n ∧ n ≤ data.length)

/-- The bytes the client receives. -/
def Outcome.delivered (outcome : Outcome) : Bytes :=
  match outcome.written with
  | some (data, n) => data.take n.toNat
  | none => []

/-- Either the client receives all of `data` and the thread ends normally, or the thread reports
`server_error`. -/
def AllOrError (data : Bytes) (outcome : Outcome) : Prop :=
  (outcome.delivered = data ∧ outcome.ending = .exited) ∨
    outcome.ending = .fault (.throw .serverError)

theorem assemble_ne_nil {mgz : Mgz} {response : Response} {data : Bytes}
    (h : response.assemble mgz = .ok data) : data ≠ [] := by
  rw [Response.assemble] at h
  rcases hheader : (response.stamp mgz).header.toString with f | header
  · rw [hheader] at h
    cases h
  · rw [hheader] at h
    cases h
    -- the empty line behind the header is always there
    simp [str]

/-- The bytes taken are all of them exactly when as many were taken as there are. -/
theorem take_toNat_eq_iff {data : Bytes} (hne : data ≠ []) {n : ℤ} (hn : WriteResult data n) :
    data.take n.toNat = data ↔ n = data.length := by
  have hpos := List.length_pos_iff.mpr hne
  rw [List.take_eq_self_iff]
  rcases hn with rfl | ⟨hlow, hhigh⟩ <;> omega

section Thread

variable (mgz : Mgz) (mem : Memory) (app : Option Middleware) (fs : FileSystem)
  {reads : List ReadResult} (socketWrite : Bytes → ℤ) {buffer : Bytes} {request : Request}
  {response : Response} {data : Bytes} (hread : readLoop reads [] = .done buffer)
  (hparse : Request.parse mgz mem buffer = .ok request)
  (hrespond : (respond mgz mem app request).value fs = .ok response)
  (hassemble : response.assemble mgz = .ok data)

include hread hparse hrespond hassemble

/-- Behind the call of `write` the thread ends normally, since no result is below `-1`. -/
theorem clientThread_of_assembled (hresult : WriteResult data (socketWrite data)) :
    clientThread mgz mem app fs reads socketWrite =
      { ending := .exited, closes := 1, written := some (data, socketWrite data) } := by
  have hserve : (serve mgz mem app socketWrite buffer).value fs = .ok (data, socketWrite data) := by
    simp [serve, hparse, hrespond, Response.write, hassemble]
  have hnot : ¬-1 > socketWrite data := by
    rcases hresult with h | ⟨h, -⟩ <;> omega
  rw [clientThread, hread]
  simp only [hserve, if_neg hnot]

/-- The thread sends the whole response or fails exactly when the one call of `write` takes all the
bytes it is given. -/
theorem clientThread_allOrError_iff (hresult : WriteResult data (socketWrite data)) :
    AllOrError data (clientThread mgz mem app fs reads socketWrite) ↔
      socketWrite data = data.length := by
  rw [clientThread_of_assembled mgz mem app fs socketWrite hread hparse hrespond hassemble hresult,
    ← take_toNat_eq_iff (assemble_ne_nil hassemble) hresult]
  simp [AllOrError, Outcome.delivered]

end Thread

/-- The application of `main` answers with a response of more than five bytes. -/
theorem assemble_about :
    ∃ request response data,
      Request.parse .plain .zero (str "GET /about HTTP/1.1\n\n") = .ok request ∧
      (respond .plain .zero (some (about none)) request).value (.ofFiles []) = .ok response ∧
      response.assemble .plain = .ok data ∧ 5 < data.length := by
  obtain ⟨request, hparse⟩ :
      ∃ request, Request.parse .plain .zero (str "GET /about HTTP/1.1\n\n") = .ok request :=
    ⟨_, rfl⟩
  have hstrings : (Header.empty.assign (str "Content-Type")
      (.string (str "text/plain"))).StringsExcept Response.stampedNames :=
    (Header.stringsExcept_assign_iff _ _ _ _).mpr (Header.stringsExcept_empty _)
  refine ⟨request, ⟨200, request.version, str "ABOUT!!!", _⟩, _, hparse, rfl,
    Response.assemble_of_stringsExcept .plain hstrings, ?_⟩
  -- the body alone is long enough
  simp [str]
  omega

/-- A socket that takes everything at once. -/
theorem clientThread_allOrError_about :
    ∃ data, AllOrError data (clientThread .plain .zero (some (about none)) (.ofFiles [])
      [.received (str "GET /about HTTP/1.1\n\n") (by decide)] fun data => data.length) := by
  obtain ⟨request, response, data, hparse, hrespond, hassemble, hlength⟩ := assemble_about
  refine ⟨data, (clientThread_allOrError_iff .plain .zero (some (about none)) (.ofFiles []) _ rfl
    hparse hrespond hassemble (Or.inr ⟨?_, Int.le_refl _⟩)).mpr rfl⟩
  omega

/-- A write that fails, and one that takes only the first five bytes: the thread ends normally, and
the client does not have the response. -/
theorem clientThread_allOrError_fails :
    let thread n := clientThread .plain .zero (some (about none)) (.ofFiles [])
      [.received (str "GET /about HTTP/1.1\n\n") (by decide)] fun _ => n
    ∀ n ∈ [-1, 5], ∃ data, (thread n).written = some (data, n) ∧ WriteResult data n ∧
      (thread n).ending = .exited ∧ ¬AllOrError data (thread n) := by
  intro thread n hn
  obtain ⟨request, response, data, hparse, hrespond, hassemble, hlength⟩ := assemble_about
  have hresult : WriteResult data n ∧ (n = -1 ∨ n = 5) := by
    simp only [List.mem_cons, List.not_mem_nil, or_false] at hn
    rcases hn with rfl | rfl
    · exact ⟨Or.inl rfl, Or.inl rfl⟩
    · exact ⟨Or.inr ⟨by decide, by omega⟩, Or.inr rfl⟩
  have hread : readLoop [.received (str "GET /about HTTP/1.1\n\n") (by decide)] [] =
      .done (str "GET /about HTTP/1.1\n\n") := rfl
  have hrun := clientThread_of_assembled .plain .zero (some (about none)) (.ofFiles []) (fun _ => n)
    hread hparse hrespond hassemble hresult.1
  change thread n = _ at hrun
  refine ⟨data, by rw [hrun], hresult.1, by rw [hrun], ?_⟩
  rw [hrun]
  rintro (⟨hall, -⟩ | hending)
  · have heq := (take_toNat_eq_iff (assemble_ne_nil hassemble) hresult.1).mp hall
    omega
  · cases hending

end Lhs.Server
