import LhsServer.FileSystem
import LhsServer.Protocol.Http.Request
import LhsServer.Protocol.Http.Response

/-!
# Environments and middleware

A middleware is an object with a virtual method `call` from environments to responses; here it is
that method. A class derived from `lhs::http::middleware` is a function from its fields, the inner
middleware `app_` among them, to a middleware.
-/

namespace Lhs.Http

/-- `lhs::http::env`. -/
structure Env where
  request : Request
  response : Response

/-- `env(req)`: the response is default-constructed and given the version of the request. -/
def Env.ofRequest (mem : Memory) (request : Request) : Env :=
  { request, response := { Response.default mem with version := request.version } }

/-- `lhs::http::middleware`, by its method `call`. -/
abbrev Middleware := Env → OS Response

/-- `middleware::get_request`. -/
def getRequest (env : Env) : Request := env.request

/-- `middleware::get_response`: the answer of the inner middleware, or the response of the
environment where there is none. -/
def getResponse (app_ : Option Middleware) (env : Env) : OS Response :=
  match app_ with
  | some app => app env
  | none => pure env.response

@[simp] theorem getResponse_some (app : Middleware) (env : Env) :
    getResponse (some app) env = app env := rfl

@[simp] theorem getResponse_none (env : Env) :
    getResponse none env = pure env.response := rfl

end Lhs.Http
