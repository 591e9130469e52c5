import LhsServer.Correctness.StaticContent
import LhsServer.Middleware.Stack
import LhsServer.Server.ClientThread

/-!
# The response of a stack

The law that the response of a whole stack of middlewares obeys. For a given request only one path
through the tree of objects matters: the layers on it (`Stack.layersOn`) act one after the other on
the answer found at its end (`Stack.leaf`).

- `notFoundPage`: the assignments that `error_404` and the fallback of `client_thread` share;
- `Layer.act`: what one layer makes of the response from below;
- `Stack.value_getResponse`: the response of a stack is that of its leaf, changed by its layers;
- `value_respond`: the fallback of `client_thread` over a stack.
-/

namespace Lhs

open Bytes Http Middleware

/-! ## The not-found page -/

/-- The response with the not-found page for `uri` in it. -/
def notFoundPage (mgz : Mgz) (uri : Bytes) (response : Response) : Response :=
  ({ response with
      code := Error.notFound.value
      body := mgz.format defaultNotFound [.s (cstr uri)] }.assign
    (str "Content-Type") (.string (str "text/html"))).assign
      (str "Pragma") (.string (str "no-cache"))

/-- A response without a code becomes the not-found page. -/
def orNotFound (mgz : Mgz) (uri : Bytes) (response : Response) : Response :=
  if response.code = 0 then notFoundPage mgz uri response else response

section NotFound

variable (mgz : Mgz) (uri : Bytes) (response : Response)

@[simp] theorem code_notFoundPage : (notFoundPage mgz uri response).code = 404 := rfl

@[simp] theorem version_notFoundPage :
    (notFoundPage mgz uri response).version = response.version := rfl

@[simp] theorem body_notFoundPage :
    (notFoundPage mgz uri response).body = mgz.format defaultNotFound [.s (cstr uri)] := rfl

@[simp] theorem header_notFoundPage :
    (notFoundPage mgz uri response).header =
      (response.header.assign (str "Content-Type") (.string (str "text/html"))).assign
        (str "Pragma") (.string (str "no-cache")) := rfl

variable {response}

/-- A response without a code becomes the not-found page. -/
theorem orNotFound_of_code_zero (h : response.code = 0) :
    orNotFound mgz uri response = notFoundPage mgz uri response := if_pos h

/-- Any other response is left as it is. -/
theorem orNotFound_of_code_ne_zero (h : response.code ≠ 0) :
    orNotFound mgz uri response = response := if_neg h

end NotFound

/-- The value of `error_404`. -/
theorem value_error404 (mgz : Mgz) (fs : FileSystem) (app_ : Option Http.Middleware) (env : Env) :
    (error404 mgz app_ env).value fs =
      (getResponse app_ env).value fs >>= fun response =>
        .ok (orNotFound mgz env.request.uri response) := by
  rw [error404, Traced.value_bind]
  congr 1
  funext response
  by_cases hcode : response.code = 0
  · rw [orNotFound_of_code_zero mgz _ hcode]
    simp [hcode, getRequest, notFoundPage]
  · rw [orNotFound_of_code_ne_zero mgz _ hcode]
    simp [hcode]

/-! ## Layers -/

namespace Layer

variable (mgz : Mgz) (mem : Memory)

/-- The layer is a `static_file` that resolves the path of the request. -/
def Resolving (fs : FileSystem) (request : Request) : Layer → Prop
  | .error404 => False
  | .staticFile self => self.Resolves fs request

instance (fs : FileSystem) (request : Request) :
    (layer : Layer) → Decidable (layer.Resolving fs request)
  | .error404 => inferInstanceAs (Decidable False)
  | .staticFile self => inferInstanceAs (Decidable (self.Resolves fs request))

/-- What the layer makes of the response of its inner middleware. -/
def act (fs : FileSystem) (request : Request) : Layer → Response → Response
  | .error404, response => orNotFound mgz request.uri response
  | .staticFile self, response =>
    if (response.code = 0 ∨ response.code = 404) ∧ self.Resolves fs request then
      StaticFile.served (self.page mgz mem fs request) response
    else response

/-- A layer acts on the response of its inner middleware. -/
theorem value_middleware (fs : FileSystem) (layer : Layer) (app_ : Option Http.Middleware)
    (env : Env) :
    (layer.middleware mgz mem app_ env).value fs =
      (getResponse app_ env).value fs >>= fun response =>
        .ok (layer.act mgz mem fs env.request response) := by
  cases layer with
  | error404 => exact value_error404 mgz fs app_ env
  | staticFile self => exact value_staticFile mgz mem fs self app_ env

end Layer

/-! ## Stacks -/

namespace Stack

variable (mgz : Mgz) (mem : Memory)

/-- The application a request is routed to. -/
def leaf : Stack → Request → Option Http.Middleware
  | .null, _ => none
  | .app call, _ => some call
  | .layered _ inner, request => inner.leaf request
  | .urlmap mapping apps, request =>
    match Urlmap.findApp mgz mapping request with
    | some i => (apps i).leaf request
    | none => none

/-- The layers a request passes, the outermost first. -/
def layersOn : Stack → Request → List Layer
  | .null, _ => []
  | .app _, _ => []
  | .layered layer inner, request => layer :: inner.layersOn request
  | .urlmap mapping apps, request =>
    match Urlmap.findApp mgz mapping request with
    | some i => (apps i).layersOn request
    | none => []

@[simp] theorem leaf_ofLayers (layers : List Layer) (call : Http.Middleware) (request : Request) :
    (ofLayers layers call).leaf mgz request = some call := by
  induction layers with
  | nil => rfl
  | cons layer layers ih => exact ih

@[simp] theorem layersOn_ofLayers (layers : List Layer) (call : Http.Middleware)
    (request : Request) : (ofLayers layers call).layersOn mgz request = layers := by
  induction layers with
  | nil => rfl
  | cons layer layers ih => exact congrArg (layer :: ·) ih

/-- Searching a table hands on what the pointers stand for. -/
theorem findApp_map {App App' : Type} (f : App → Option App') (mapping : List (Mapping App))
    (request : Request) :
    Urlmap.findApp mgz (mapping.map fun m => { m with app := m.app.bind f }) request =
      (Urlmap.findApp mgz mapping request).bind f := by
  induction mapping with
  | nil => rfl
  | cons m mapping ih =>
    simp only [Urlmap.findApp, List.map_cons, List.find?_cons] at ih ⊢
    -- the search depends on the patterns only, not on the pointers
    cases (mgz.find m.pattern request.uri).isSome with
    | false => exact ih
    | true => rfl

/-- `urlmap::get_response` does with the app it finds what `middleware::get_response` does with the
inner middleware. -/
theorem urlmap_getResponse (mapping : List (Mapping Http.Middleware)) (env : Env) :
    Urlmap.getResponse mgz mapping env =
      getResponse (Urlmap.findApp mgz mapping env.request) env := by
  rw [Urlmap.getResponse]
  cases Urlmap.findApp mgz mapping env.request <;> rfl

/-- The response of a stack is that of its leaf, changed by the layers on the way back. -/
theorem value_getResponse (fs : FileSystem) (stack : Stack) (env : Env) :
    (getResponse (stack.middleware mgz mem) env).value fs =
      (getResponse (stack.leaf mgz env.request) env).value fs >>= fun response =>
        .ok ((stack.layersOn mgz env.request).foldr (Layer.act mgz mem fs env.request)
          response) := by
  induction stack with
  | null => rfl
  | app call => exact (bind_pure _).symm
  | layered layer inner ih =>
    -- the outermost layer acts last
    show (layer.middleware mgz mem (inner.middleware mgz mem) env).value fs = _
    rw [Layer.value_middleware, ih, bind_assoc]
    rfl
  | urlmap mapping apps ih =>
    -- the request goes on in the stack that is found, or ends here
    show (Urlmap.getResponse mgz _ env).value fs = _
    rw [urlmap_getResponse, findApp_map]
    rcases hfound : Urlmap.findApp mgz mapping env.request with _ | i
    · simp [leaf, layersOn, hfound]
    · rw [Option.bind_some, ih]
      simp only [leaf, layersOn, hfound]

end Stack

/-! ## The fallback of the thread -/

/-- Without an app the thread answers with the not-found page. -/
theorem respond_none (mgz : Mgz) (mem : Memory) (request : Request) (fs : FileSystem) :
    (Server.respond mgz mem none request).value fs =
      .ok (notFoundPage mgz request.uri (Response.ofVersion mem request.version)) := rfl

/-- With an application the fallback does what an outermost `error_404` would do. -/
theorem value_respond (mgz : Mgz) (mem : Memory) (fs : FileSystem) (call : Http.Middleware)
    (request : Request) :
    (Server.respond mgz mem (some call) request).value fs =
      (call (Env.ofRequest mem request)).value fs >>= fun response =>
        .ok (orNotFound mgz request.uri response) := by
  simp only [Server.respond, Traced.value_bind]
  cases (call (Env.ofRequest mem request)).value fs with
  | error f => rfl
  | ok response =>
    by_cases hcode : response.code = 0
    · simp [hcode, orNotFound, notFoundPage]
    · simp [hcode, orNotFound]

/-- What the thread writes when the layers `layers` get the response `response` from below. -/
def finalResponse (mgz : Mgz) (mem : Memory) (fs : FileSystem) (request : Request)
    (layers : List Layer) (response : Response) : Response :=
  orNotFound mgz request.uri (layers.foldr (Layer.act mgz mem fs request) response)

namespace Stack

variable (mgz : Mgz) (mem : Memory)

/-- The response the thread writes for a request to a stack that is not null. -/
theorem value_respond_middleware {stack : Stack} {call : Http.Middleware}
    (hcall : stack.middleware mgz mem = some call) (request : Request) (fs : FileSystem) :
    (Server.respond mgz mem (stack.middleware mgz mem) request).value fs =
      (getResponse (stack.leaf mgz request) (Env.ofRequest mem request)).value fs >>=
        fun response => .ok (finalResponse mgz mem fs request (stack.layersOn mgz request)
          response) := by
  have hstack := value_getResponse mgz mem fs stack (Env.ofRequest mem request)
  rw [hcall, getResponse_some] at hstack
  rw [hcall, value_respond, hstack, bind_assoc]
  rfl

/-- The response of a thread whose app is a row of layers over an application. -/
theorem value_respond_ofLayers (layers : List Layer) (call : Http.Middleware) (request : Request)
    (fs : FileSystem) :
    (Server.respond mgz mem ((ofLayers layers call).middleware mgz mem) request).value fs =
      (call (Env.ofRequest mem request)).value fs >>= fun response =>
        .ok (finalResponse mgz mem fs request layers response) := by
  obtain ⟨m, hm⟩ : ∃ m, (ofLayers layers call).middleware mgz mem = some m := by
    cases layers <;> exact ⟨_, rfl⟩
  rw [value_respond_middleware mgz mem hm, leaf_ofLayers, layersOn_ofLayers]
  rfl

end Stack

end Lhs
