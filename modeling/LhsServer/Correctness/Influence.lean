import LhsServer.Correctness.Continuation
import LhsServer.Correctness.Stack
import LhsServer.Main
import LhsServer.Server.Process

/-!
# What a request has an influence on

The answer of a tree of middlewares is a function of the target and the version of the request, as
long as that holds of the applications in it. The method, the header fields, the parameters and the
body have no part in it, and neither have the bytes behind the end of the header: a request that is
sent right behind another one is not answered, and does not change the answer to the first.

Two requests are answered by two threads, which need not find the same in memory that was not
written. The code of a response, the status of an entry and its date have an influence
(`SameLeftovers`).

- `Stack.getResponse_congr`: environments with one target get one response, and the same questions
  are put to the file system on the way;
- `respond_congr`: the same for the response of the thread;
- `answer_eq_of_uri`: the same for the bytes that are written, from the bytes that were read;
- `answer_append`: bytes behind the end of the header.
-/

namespace Lhs

open Bytes Http Middleware

/-- Two requests with the same target and version. -/
structure SameTarget (r₁ r₂ : Request) : Prop where
  uri : r₁.uri = r₂.uri
  path : r₁.path = r₂.path
  version : r₁.version = r₂.version

/-- What two threads find in memory is the same in place of the code of a response that was
default-constructed, of the status of an entry whose `stat` fails, and in the buffer of `gmtime`. -/
structure SameLeftovers (mem₁ mem₂ : Memory) : Prop where
  code : mem₁.code = mem₂.code
  status : mem₁.status = mem₂.status
  tm : mem₁.tm = mem₂.tm

/-- The application looks at nothing but the target of the request. -/
def ReadsTarget (call : Http.Middleware) : Prop :=
  ∀ env₁ env₂ : Env, SameTarget env₁.request env₂.request → env₁.response = env₂.response →
    call env₁ = call env₂

theorem readsTarget_about : ReadsTarget (about none) := by
  intro env₁ env₂ _ hresponse
  simp only [about, getResponse_none, hresponse]

namespace Middleware.StaticFile

/-- Of the memory an index shows the status and the dates of its entries. -/
theorem getDirectoryContent_congr (self : StaticFile) (mgz : Mgz) {mem₁ mem₂ : Memory}
    (hmem : SameLeftovers mem₁ mem₂) :
    self.getDirectoryContent mgz mem₁ = self.getDirectoryContent mgz mem₂ := by
  have hentry : self.addEntry mgz mem₁ = self.addEntry mgz mem₂ := by
    funext file result entry
    simp only [addEntry, hmem.status, hmem.tm]
  funext file
  simp only [getDirectoryContent, hentry]

end Middleware.StaticFile

namespace Layer

/-- A layer looks at the target of the request, and at the response of its inner middleware. -/
theorem middleware_congr (mgz : Mgz) {mem₁ mem₂ : Memory} (hmem : SameLeftovers mem₁ mem₂)
    {env₁ env₂ : Env} (hrequest : SameTarget env₁.request env₂.request)
    {app₁ app₂ : Option Http.Middleware} (hinner : getResponse app₁ env₁ = getResponse app₂ env₂)
    (layer : Layer) :
    layer.middleware mgz mem₁ app₁ env₁ = layer.middleware mgz mem₂ app₂ env₂ := by
  cases layer with
  | error404 => simp only [middleware, Middleware.error404, hinner, getRequest, hrequest.uri]
  | staticFile self =>
    simp only [middleware, Middleware.staticFile, hinner, getRequest, hrequest.path,
      self.getDirectoryContent_congr mgz hmem]

end Layer

namespace Stack

/-- Every application in the tree has the property. -/
def AllApps (P : Http.Middleware → Prop) : Stack → Prop
  | .null => True
  | .app call => P call
  | .layered _ inner => inner.AllApps P
  | .urlmap _ apps => ∀ i, (apps i).AllApps P

/-- Environments with one target and one response get one answer, by the same program. -/
theorem getResponse_congr (mgz : Mgz) {mem₁ mem₂ : Memory} (hmem : SameLeftovers mem₁ mem₂)
    {stack : Stack} (hstack : stack.AllApps ReadsTarget) {env₁ env₂ : Env}
    (hrequest : SameTarget env₁.request env₂.request) (hresponse : env₁.response = env₂.response) :
    getResponse (stack.middleware mgz mem₁) env₁ =
      getResponse (stack.middleware mgz mem₂) env₂ := by
  induction stack with
  | null => simp only [middleware, getResponse_none, hresponse]
  | app call => exact hstack env₁ env₂ hrequest hresponse
  | layered layer inner ih => exact layer.middleware_congr mgz hmem hrequest (ih hstack)
  | urlmap mapping apps ih =>
    -- both requests are routed by the same uri
    have hfound : Urlmap.findApp mgz mapping env₁.request =
        Urlmap.findApp mgz mapping env₂.request := by
      simp only [Urlmap.findApp, hrequest.uri]
    simp only [middleware, getResponse_some, Middleware.urlmap, urlmap_getResponse, findApp_map,
      hfound]
    cases Urlmap.findApp mgz mapping env₂.request with
    | none => simp only [Option.bind_none, getResponse_none, hresponse]
    | some i => exact ih i (hstack i)

/-- The memory has no part in whether there is a middleware. -/
theorem middleware_eq_none_iff (mgz : Mgz) (mem₁ mem₂ : Memory) (stack : Stack) :
    stack.middleware mgz mem₁ = none ↔ stack.middleware mgz mem₂ = none := by
  cases stack with
  | null => exact Iff.rfl
  | app _ => simp [middleware]
  | layered _ _ => simp [middleware]
  | urlmap _ _ => simp [middleware]

end Stack

/-! ## The thread -/

section Thread

variable (mgz : Mgz) {mem₁ mem₂ : Memory}

/-- The environments of two requests with one version begin with one response. -/
theorem env_congr (hmem : SameLeftovers mem₁ mem₂) {r₁ r₂ : Request} (h : SameTarget r₁ r₂) :
    (Env.ofRequest mem₁ r₁).response = (Env.ofRequest mem₂ r₂).response := by
  simp only [Env.ofRequest, Response.default, hmem.code, h.version]

/-- Two requests with one target and version get one response, whatever else is in them: over the
same questions to the file system, and the same answers. -/
theorem respond_congr (hmem : SameLeftovers mem₁ mem₂) {stack : Stack}
    (hstack : stack.AllApps ReadsTarget) {r₁ r₂ : Request} (h : SameTarget r₁ r₂) :
    Server.respond mgz mem₁ (stack.middleware mgz mem₁) r₁ =
      Server.respond mgz mem₂ (stack.middleware mgz mem₂) r₂ := by
  have htarget : SameTarget (Env.ofRequest mem₁ r₁).request (Env.ofRequest mem₂ r₂).request := h
  have hanswer := Stack.getResponse_congr mgz hmem hstack htarget (env_congr hmem h)
  cases hcall₁ : stack.middleware mgz mem₁ with
  | none =>
    rw [(stack.middleware_eq_none_iff mgz mem₁ mem₂).mp hcall₁]
    simp only [Server.respond, Response.ofVersion, hmem.code, h.uri, h.version]
  | some call₁ =>
    have hne : stack.middleware mgz mem₂ ≠ none := fun hnone => by
      rw [(stack.middleware_eq_none_iff mgz mem₁ mem₂).mpr hnone] at hcall₁
      cases hcall₁
    obtain ⟨call₂, hcall₂⟩ := Option.ne_none_iff_exists'.mp hne
    rw [hcall₁, hcall₂, getResponse_some, getResponse_some] at hanswer
    simp only [hcall₂, Server.respond, hanswer, h.uri]

/-- The same for the bytes that are written, from the bytes that were read. -/
theorem answer_congr (hmem : SameLeftovers mem₁ mem₂) {stack : Stack}
    (hstack : stack.AllApps ReadsTarget) {data₁ data₂ : Bytes} {r₁ r₂ : Request}
    (h₁ : Request.parse mgz mem₁ data₁ = .ok r₁) (h₂ : Request.parse mgz mem₂ data₂ = .ok r₂)
    (h : SameTarget r₁ r₂) :
    Server.answer mgz mem₁ (stack.middleware mgz mem₁) data₁ =
      Server.answer mgz mem₂ (stack.middleware mgz mem₂) data₂ := by
  simp only [Server.answer, h₁, h₂, Traced.lift_ok_bind, respond_congr mgz hmem hstack h]

/-- The path of a request is a part of its uri. -/
theorem sameTarget_of_uri {data₁ data₂ : Bytes} {r₁ r₂ : Request}
    (h₁ : Request.parse mgz mem₁ data₁ = .ok r₁) (h₂ : Request.parse mgz mem₂ data₂ = .ok r₂)
    (huri : r₁.uri = r₂.uri) (hversion : r₁.version = r₂.version) : SameTarget r₁ r₂ := by
  obtain ⟨-, init₁, headers₁, rest₁, -, -, hinit₁, -⟩ :=
    (Request.parse_eq_ok_iff mgz mem₁ data₁ r₁).mp h₁
  obtain ⟨-, init₂, headers₂, rest₂, -, -, hinit₂, -⟩ :=
    (Request.parse_eq_ok_iff mgz mem₂ data₂ r₂).mp h₂
  obtain ⟨_, _, -, -, -, hparams₁⟩ := Request.parseInit_ok hinit₁
  obtain ⟨_, _, -, -, -, hparams₂⟩ := Request.parseInit_ok hinit₂
  rw [huri, hparams₂] at hparams₁
  exact ⟨huri, (Prod.mk.inj hparams₁).1.symm, hversion⟩

/-- Two messages that are accepted with one uri and one version get the same answer, by the same
questions to the file system: whatever their methods, header fields, parameters and bodies are. -/
theorem answer_eq_of_uri (hmem : SameLeftovers mem₁ mem₂) {stack : Stack}
    (hstack : stack.AllApps ReadsTarget) {data₁ data₂ : Bytes} {r₁ r₂ : Request}
    (h₁ : Request.parse mgz mem₁ data₁ = .ok r₁) (h₂ : Request.parse mgz mem₂ data₂ = .ok r₂)
    (huri : r₁.uri = r₂.uri) (hversion : r₁.version = r₂.version) :
    Server.answer mgz mem₁ (stack.middleware mgz mem₁) data₁ =
      Server.answer mgz mem₂ (stack.middleware mgz mem₂) data₂ :=
  answer_congr mgz hmem hstack h₁ h₂ (sameTarget_of_uri mgz h₁ h₂ huri hversion)

/-- Whatever is sent behind a message that is accepted, a second request for example, makes no
difference to the answer, as long as no empty line in it is read with an access that fails. -/
theorem answer_append (hmem : SameLeftovers mem₁ mem₂) {stack : Stack}
    (hstack : stack.AllApps ReadsTarget) {data : Bytes} (hblank : Request.HasBlankLine data)
    {r : Request} (h : Request.parse mgz mem₁ data = .ok r) {more : Bytes}
    (hsafe : Request.SafeAccess mem₂ (data ++ more)) :
    Server.answer mgz mem₂ (stack.middleware mgz mem₂) (data ++ more) =
      Server.answer mgz mem₁ (stack.middleware mgz mem₁) data := by
  obtain ⟨init, headers, hheaders, hall⟩ := Request.linesOf_append_of_hasBlankLine hblank
  obtain ⟨rest, hlines⟩ := hall []
  obtain ⟨rest', hlines'⟩ := hall more
  rw [List.append_nil] at hlines
  obtain ⟨hinit, hheader, -⟩ := Request.parse_of_lines mgz hlines hheaders h
  -- the longer message is accepted with the same first line
  let longer : Request :=
    { r with body := (data ++ more).drop (Request.offsetOf (init :: headers) + 1) }
  have hlonger : Request.parse mgz mem₂ (data ++ more) = .ok longer :=
    Request.parse_of_encodes mgz hsafe
      ⟨init, headers, rest', hlines', hheaders, hinit, hheader, rfl⟩
  exact (answer_congr mgz hmem hstack h hlonger ⟨rfl, rfl, rfl⟩).symm

end Thread

/-- `about` looks at nothing at all of the request. -/
theorem allApps_mainStack (mgz : Mgz) (sort : List (Mapping ℕ) → List (Mapping ℕ)) :
    (mainStack mgz sort).AllApps ReadsTarget := fun _ => readsTarget_about

/-- Memory in which the access to an empty line is trapped. -/
def Memory.trapped : Memory := { Memory.zero with lineBack := none }

theorem sameLeftovers_trapped : SameLeftovers .trapped .zero := ⟨rfl, rfl, rfl⟩

/-- `HEAD` is answered as `GET` is, and a host that is not ours as the own one. -/
theorem answer_eq_of_uri_head :
    let stack := mainStack .plain id
    Server.answer .plain .trapped (stack.middleware .plain .trapped)
        (str "HEAD /a.txt HTTP/1.1\r\nHost: elsewhere\r\n\r\n") =
      Server.answer .plain .zero (stack.middleware .plain .zero)
        (str "GET /a.txt HTTP/1.1\n\n") := by
  have hhead : (Request.parse .plain .trapped
      (str "HEAD /a.txt HTTP/1.1\r\nHost: elsewhere\r\n\r\n")).map (fun r => (r.uri, r.version)) =
        .ok (str "/a.txt", .http_1_1) := by decide
  have hget : (Request.parse .plain .zero (str "GET /a.txt HTTP/1.1\n\n")).map
      (fun r => (r.uri, r.version)) = .ok (str "/a.txt", .http_1_1) := by decide
  obtain ⟨r₁, h₁, hr₁⟩ := Run.exists_ok_of_map hhead
  obtain ⟨r₂, h₂, hr₂⟩ := Run.exists_ok_of_map hget
  obtain ⟨huri, hversion⟩ := Prod.mk.inj (hr₁.trans hr₂.symm)
  exact answer_eq_of_uri .plain sameLeftovers_trapped (allApps_mainStack .plain id) h₁ h₂ huri
    hversion

/-- A second request behind the first. -/
theorem answer_append_second :
    let stack := mainStack .plain id
    Server.answer .plain .zero (stack.middleware .plain .zero)
        (str "GET /a.txt HTTP/1.1\r\n\r\n" ++ str "GET /b.txt HTTP/1.1\n\n") =
      Server.answer .plain .trapped (stack.middleware .plain .trapped)
        (str "GET /a.txt HTTP/1.1\r\n\r\n") := by
  have hget : (Request.parse .plain .trapped (str "GET /a.txt HTTP/1.1\r\n\r\n")).map (·.uri) =
      .ok (str "/a.txt") := by decide
  obtain ⟨r, h, -⟩ := Run.exists_ok_of_map hget
  exact answer_append .plain sameLeftovers_trapped (allApps_mainStack .plain id)
    ⟨str "GET /a.txt HTTP/1.1\r\n\r", [], str "GET /a.txt HTTP/1.1", [], by decide, by decide⟩ h
    fun _ => ⟨NUL, rfl, by decide⟩

end Lhs
