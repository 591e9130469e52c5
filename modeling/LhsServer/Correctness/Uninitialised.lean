import LhsServer.Correctness.Layers

/-!
# The code nobody has set

`response.code` is `0` as long as a request is not handled, and `error_404`, `static_file` and the
thread itself all ask for that value, but the response in an environment is made without one. Where
a request ends at a missing inner middleware, or in a `urlmap` without a matching location, the
value found in memory is handed up through the stack.

- `Stack.written`: the response that is written when memory holds a given code;
- `Stack.ignoresMemory_iff`: the requests whose response does not depend on it;
- `Stack.ignoresMemory_fails`: a stack that answers 200 with an empty body, or with a 404 page.
-/

namespace Lhs

open Bytes Http Middleware

/-- The application `call` answers the request without looking at the code it is handed. -/
def Settles (mem : Memory) (request : Request) (fs : FileSystem) (call : Http.Middleware) : Prop :=
  ∀ g, (call (Env.ofRequest (mem.withCode g) request)).value fs =
    (call (Env.ofRequest mem request)).value fs

theorem settles_about (mem : Memory) (request : Request) (fs : FileSystem) :
    Settles mem request fs (about none) := fun _ => rfl

/-- No layer reads the code from memory. -/
theorem finalResponse_withCode (mgz : Mgz) (mem : Memory) (g : ℤ) (fs : FileSystem)
    (request : Request) (layers : List Layer) :
    finalResponse mgz (mem.withCode g) fs request layers =
      finalResponse mgz mem fs request layers := rfl

namespace Stack

variable (mgz : Mgz) (mem : Memory) (fs : FileSystem) (request : Request)

/-- The response that is written where the code of a new response happens to be `g`. -/
def written (stack : Stack) (g : ℤ) : Run Response :=
  (Server.respond mgz (mem.withCode g) (stack.middleware mgz (mem.withCode g)) request).value fs

/-- The response that is written does not depend on the memory. -/
structure IgnoresMemory (stack : Stack) : Prop where
  same : ∀ g g', stack.written mgz mem fs request g = stack.written mgz mem fs request g'
  /-- where no layer and no application answers, it is the not-found page -/
  not_found : stack.leaf mgz request = none →
    (∀ layer ∈ stack.layersOn mgz request, ¬layer.Resolving fs request) →
    ∀ g, stack.written mgz mem fs request g =
      .ok (notFoundPage mgz request.uri (Response.ofVersion mem request.version))

theorem written_eq {stack : Stack} (hne : stack ≠ .null) (g : ℤ) :
    stack.written mgz mem fs request g =
      (getResponse (stack.leaf mgz request) (Env.ofRequest (mem.withCode g) request)).value fs >>=
        fun response => .ok (finalResponse mgz mem fs request (stack.layersOn mgz request)
          response) := by
  obtain ⟨call, hcall⟩ : ∃ call, stack.middleware mgz (mem.withCode g) = some call := by
    cases stack with
    | null => exact absurd rfl hne
    | app call => exact ⟨_, rfl⟩
    | layered layer inner => exact ⟨_, rfl⟩
    | urlmap mapping apps => exact ⟨_, rfl⟩
  rw [written, value_respond_middleware mgz _ hcall, finalResponse_withCode]

/-- Where nothing answers below the layers, they get a response with nothing but the code found in
memory. -/
theorem written_of_leaf_none {stack : Stack} (hne : stack ≠ .null)
    (hleaf : stack.leaf mgz request = none) (g : ℤ) :
    stack.written mgz mem fs request g =
      .ok (finalResponse mgz mem fs request (stack.layersOn mgz request)
        (Response.ofVersion (mem.withCode g) request.version)) := by
  rw [written_eq mgz mem fs request hne, hleaf]
  rfl

/-- A response without a code gets a Content-Type before it is written. -/
theorem contentType_of_code_zero (layers : List Layer) {r : Response} (hcode : r.code = 0) :
    ∃ type, (finalResponse mgz mem fs request layers r).header.get? (str "Content-Type") =
      some (.string type) := by
  have hlaw := writesFor_finalResponse mgz mem fs request layers r
  rcases innermost_or_unresolved fs request layers with ⟨self, inner, hself⟩ | hlayers
  · obtain ⟨type, htype, -⟩ := hlaw.serves (Or.inl hcode) self inner hself
    exact ⟨type, htype⟩
  · obtain ⟨-, -, hpage⟩ := hlaw.not_found (Or.inl hcode) fun self hmem => hlayers _ hmem
    have hne : str "Content-Type" ≠ str "Pragma" := by decide
    rw [hpage hcode, header_notFoundPage, Header.get?_assign_of_ne _ _ hne]
    exact ⟨_, Header.get?_assign_self _ _ _⟩

/-- The response does not depend on the memory exactly where the thread runs without a stack, or the
request is routed to an application; the applications are taken to set the code themselves. -/
theorem ignoresMemory_iff (stack : Stack)
    (hsettles : ∀ call, stack.leaf mgz request = some call → Settles mem request fs call) :
    stack.IgnoresMemory mgz mem fs request ↔
      stack = .null ∨ (stack.leaf mgz request).isSome = true := by
  constructor
  · intro h
    by_contra hcon
    obtain ⟨hne, hleaf⟩ := not_or.mp hcon
    rw [Bool.not_eq_true, Option.isSome_eq_false_iff, Option.isNone_iff_eq_none] at hleaf
    -- with 200 in memory nothing touches the empty response, with 0 it gets a Content-Type
    have hsame := h.same 0 200
    have hdecided : ¬Open (Response.ofVersion (mem.withCode 200) request.version) := by
      rintro (h | h) <;> cases h
    rw [written_of_leaf_none mgz mem fs request hne hleaf,
      written_of_leaf_none mgz mem fs request hne hleaf,
      finalResponse_of_not_open mgz mem fs request hdecided, Except.ok.injEq] at hsame
    obtain ⟨type, htype⟩ := contentType_of_code_zero mgz mem fs request
      (stack.layersOn mgz request) (r := Response.ofVersion (mem.withCode 0) request.version) rfl
    rw [hsame] at htype
    simp [Response.ofVersion] at htype
  · rintro (rfl | hleaf)
    · exact ⟨fun _ _ => rfl, fun _ _ _ => rfl⟩
    · obtain ⟨call, hcall⟩ := Option.isSome_iff_exists.mp hleaf
      have hne : stack ≠ .null := by
        rintro rfl
        cases hcall
      -- the answer of the application does not depend on the code, and no layer reads it
      have hsame : ∀ g, stack.written mgz mem fs request g =
          (call (Env.ofRequest mem request)).value fs >>= fun response =>
            .ok (finalResponse mgz mem fs request (stack.layersOn mgz request) response) := by
        intro g
        rw [written_eq mgz mem fs request hne, hcall, getResponse_some, hsettles call hcall g]
      refine ⟨fun g g' => (hsame g).trans (hsame g').symm, fun hnone => ?_⟩
      rw [hcall] at hnone
      cases hnone

/-- An `error_404` over the application of `main`. -/
theorem ignoresMemory_about :
    (Stack.layered .error404 (.app (about none))).IgnoresMemory .plain .zero (.ofFiles [])
      (.get (str "/about") rfl) := by
  refine (ignoresMemory_iff .plain .zero (.ofFiles []) (.get (str "/about") rfl)
    (.layered .error404 (.app (about none))) ?_).mpr (Or.inr rfl)
  intro call hcall
  cases hcall
  exact settles_about _ _ _

/-- An `error_404` without an inner middleware: with the code 200 in memory an empty response is
written, and with 0 the not-found page. -/
theorem ignoresMemory_fails :
    let written g := (Stack.layered .error404 .null).written .plain .zero (.ofFiles [])
      (.get (str "/") rfl) g
    let read (response : Response) := (response.code, response.body.take 6)
    (written 200).toOption.map read = some (200, []) ∧
      (written 0).toOption.map read = some (404, str "<html>") ∧
      ¬(Stack.layered .error404 .null).IgnoresMemory .plain .zero (.ofFiles [])
        (.get (str "/") rfl) := by
  intro written read
  have hok : (written 200).toOption.map read = some (200, []) := by decide +kernel
  have hnotFound : (written 0).toOption.map read = some (404, str "<html>") := by decide +kernel
  refine ⟨hok, hnotFound, fun h => ?_⟩
  have hsame : written 200 = written 0 := h.same 200 0
  rw [hsame, hnotFound] at hok
  exact absurd hok (by decide)

end Stack

end Lhs
