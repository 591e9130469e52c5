import LhsServer.Protocol.Http.Middleware

/-!
# The not-found page

`lhs::middleware::error_404`: a response without a code becomes the not-found page.
-/

namespace Lhs.Middleware

open Bytes Http

/-- `error_404::call`. -/
def error404 (mgz : Mgz) (app_ : Option Http.Middleware) : Http.Middleware := fun env => do
  let response ← getResponse app_ env
  let request := getRequest env
  if response.code = 0 then
    let response := { response with code := Error.notFound.value }
    let response :=
      { response with body := mgz.format defaultNotFound [.s (cstr request.uri)] }
    let response := response.assign (str "Content-Type") (.string (str "text/html"))
    return response.assign (str "Pragma") (.string (str "no-cache"))
  else return response

end Lhs.Middleware
