import LhsServer.Middleware.Error404
import LhsServer.Middleware.StaticFile
import LhsServer.Middleware.Urlmap

/-!
# Stacks of middlewares

How the objects of the middleware classes are put together over applications. A `Stack` is the tree
of objects, `Stack.middleware` the pointer to its root.
-/

namespace Lhs

open Bytes Http Middleware

/-- A middleware with one inner middleware. -/
inductive Layer where
  | error404
  | staticFile (self : StaticFile)
  deriving DecidableEq

/-- The layer over the inner middleware `app_`. -/
def Layer.middleware (mgz : Mgz) (mem : Memory) :
    Layer → Option Http.Middleware → Http.Middleware
  | .error404, app_ => Middleware.error404 mgz app_
  | .staticFile self, app_ => Middleware.staticFile mgz mem self app_

/-- Middlewares as they are put together: nothing at all, an application, a layer over a stack, or
a `urlmap`. The pointers in the table of a `urlmap` are numbers that `apps` gives a meaning. -/
inductive Stack where
  | null
  | app (call : Http.Middleware)
  | layered (layer : Layer) (inner : Stack)
  | urlmap (mapping : List (Mapping ℕ)) (apps : ℕ → Stack)

namespace Stack

/-- The layers in the order in which a request passes them, over an application. -/
def ofLayers (layers : List Layer) (call : Http.Middleware) : Stack :=
  layers.foldr .layered (.app call)

/-- The pointer to the outermost object. -/
def middleware (mgz : Mgz) (mem : Memory) : Stack → Option Http.Middleware
  | .null => none
  | .app call => some call
  | .layered layer inner => some (layer.middleware mgz mem (inner.middleware mgz mem))
  | .urlmap mapping apps =>
    some (Middleware.urlmap mgz (mapping.map fun m =>
      { m with app := m.app.bind fun i => (apps i).middleware mgz mem }))

end Stack

end Lhs
