import LhsServer.Library.Heap
import LhsServer.Middleware.Stack

/-!
# Middleware objects

The middlewares as they are in memory: objects that hold pointers. `lhs::http::middleware` has one
pointer, `app_`, and its destructor deletes what is behind it. `urlmap` is constructed without an
`app_`, and its destructor leaves the pointers of its table alone.

A call through a pointer to an object that is not alive is undefined. What happens then is a
parameter of `callAt`, the function `dead`.
-/

namespace Lhs

open Bytes Http Middleware

/-- An object of a class derived from `lhs::http::middleware`. -/
inductive Object where
  /-- of a class outside of the library, by its method `call` -/
  | app (call : Option Http.Middleware → Http.Middleware) (app_ : Option ℕ)
  | layer (layer : Layer) (app_ : Option ℕ)
  | urlmap (mapping_ : List (Mapping ℕ))

namespace Object

/-- The field `app_`. -/
def app_ : Object → Option ℕ
  | .app _ app_ => app_
  | .layer _ app_ => app_
  | .urlmap _ => none

/-- The pointers in the fields of the object. -/
def pointers : Object → List ℕ
  | .app _ app_ => app_.toList
  | .layer _ app_ => app_.toList
  | .urlmap mapping_ => mapping_.filterMap (·.app)

/-- The virtual method `call`, given what a call through a pointer does. -/
def call (mgz : Mgz) (mem : Memory) (pointer : ℕ → Http.Middleware) : Object → Http.Middleware
  | .app call app_ => call (app_.map pointer)
  | .layer self app_ => self.middleware mgz mem (app_.map pointer)
  | .urlmap mapping_ =>
    Middleware.urlmap mgz (mapping_.map fun m => { m with app := m.app.map pointer })

end Object

/-- A call through the pointer `a`, with room on the stack for so many nested calls. -/
def callAt (mgz : Mgz) (mem : Memory) (dead : ℕ → Http.Middleware) (heap : Heap Object) :
    ℕ → ℕ → Http.Middleware
  | 0, a => dead a
  | depth + 1, a =>
    match heap[a]? with
    | some o => o.call mgz mem (callAt mgz mem dead heap depth)
    | none => dead a

/-- `~middleware`, on the object behind a pointer. -/
def deleteAt (heap : Heap Object) (p : Option ℕ) : Option (Heap Object) :=
  heap.delete Object.app_ p

end Lhs
