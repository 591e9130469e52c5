import LhsServer.Middleware.Stack

/-!
# The program

`bin/lhs-server.cc`: the application `about`, and the stack that `main` builds over it.
-/

namespace Lhs

open Bytes Http Middleware

/-- `about::call`. -/
def about (app_ : Option Http.Middleware) : Http.Middleware := fun env => do
  let r ← getResponse app_ env
  let r := { r with body := str "ABOUT!!!" }
  let r := { r with code := Error.ok.value }
  return r.assign (str "Content-Type") (.string (str "text/plain"))

/-- The layers that `main` puts over its `urlmap`. -/
def mainLayers : List Layer :=
  [.staticFile (.new true StaticFile.currentDirectory), .error404]

/-- The stack `main` runs the server with. -/
def mainStack (mgz : Mgz) (sort : List (Mapping ℕ) → List (Mapping ℕ)) : Stack :=
  mainLayers.foldr .layered
    (.urlmap (Urlmap.remap mgz sort [(str "/about", some 0)]) fun _ => .app (about none))

end Lhs
