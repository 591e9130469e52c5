import LhsServer.Main
import LhsServer.Middleware.Objects
import LhsServer.Server.Process

/-!
# The end of the program

`main` behind `server.run`, and the signal handler `terminate`, around the process of
`Server.Process`. Both ways out call `server.quit`, delete the middleware object behind the global
variable `app`, and end the program. Nothing waits for the client threads, and nothing keeps the two
ways apart: `terminate` can be called at any time, by one thread while the others go on, and again
while it is running.

The record and the threads hold the pointer `app`. What a call through it does depends on the
objects that are alive when the call is made (`Program.called`).
-/

namespace Lhs

open Bytes Http Middleware

/-- The objects of `main`, at the addresses that `new` returns. -/
def mainObjects (mgz : Mgz) (sort : List (Mapping ℕ) → List (Mapping ℕ))
    (about urlmap error404 staticFile : ℕ) : Option (Heap Object) := do
  let objects ← Heap.new ∅ about (.app Lhs.about none)
  let objects ← Heap.new objects urlmap
    (.urlmap (Urlmap.remap mgz sort [(str "/about", some about)]))
  let objects ← Heap.new objects error404 (.layer .error404 (some urlmap))
  Heap.new objects staticFile
    (.layer (.staticFile (.new true StaticFile.currentDirectory)) (some error404))

namespace Server

/-- What a way out of the program does next. -/
inductive Leaving where
  | quit
  | delete
  | exit

/-- How the program has ended, unless by an exception. -/
inductive Ended where
  | exited
  /-- an object was deleted that is not alive -/
  | undefined

/-- The state of the program. -/
structure Program where
  process : Process (Option ℕ)
  objects : Heap Object
  /-- the ways out that have been taken -/
  leaving : List Leaving
  ended : Option Ended

/-- The steps of the program. -/
inductive ProgramLabel where
  | process (l : ProcessLabel (Option ℕ))
  /-- `terminate` is called -/
  | signal
  /-- the next step on a way out -/
  | leave (j : ℕ)

/-- The ways out that a step of the process opens: `main` catches the exception that leaves
`run`. -/
def ProcessLabel.leaving {App : Type} : ProcessLabel App → List Leaving
  | .accept sockfd _ => if 0 > sockfd then [.quit] else []
  | _ => []

namespace Program

/-- The program when `main` calls `run`. -/
def start (socket_ : ℤ) (objects : Heap Object) : Program :=
  { process := .start socket_, objects, leaving := [], ended := none }

/-- The program has not ended. -/
def live (g : Program) : Bool := g.process.running && g.ended.isNone

/-- `server::quit`. The field `socket_` keeps its value, so that a second call closes whatever has
got the descriptor in the meantime. -/
def quit (socket_ : ℤ) (g : Program) : Program :=
  if socket_ > 0 then
    { g with process := { g.process with kernel := g.process.kernel.close socket_ } }
  else g

variable (mgz : Mgz) (dead : ℕ → Http.Middleware) (room : ℕ) (socket_ : ℤ) (app : Option ℕ)

/-- What a call through a pointer does. -/
def called (g : Program) (mem : Memory) (pointer : Option ℕ) : Option Http.Middleware :=
  pointer.map (callAt mgz mem dead g.objects room)

/-- The state after a step, if the step can be taken. -/
def next (g : Program) : ProgramLabel → Option Program
  | .process l =>
    if g.live then
      (g.process.next mgz (g.called mgz dead room) app l).map fun process =>
        { g with process, leaving := g.leaving ++ l.leaving }
    else none
  | .signal => if g.live then some { g with leaving := g.leaving ++ [.quit] } else none
  | .leave j =>
    match g.live, g.leaving[j]? with
    | true, some .quit => some { g.quit socket_ with leaving := g.leaving.set j .delete }
    | true, some .delete =>
      match deleteAt g.objects app with
      | some objects => some { g with objects, leaving := g.leaving.set j .exit }
      | none => some { g with ended := some .undefined }
    | true, some .exit => some { g with ended := some .exited }
    | _, _ => none

end Program

/-- The program from the call of `run` on. -/
def program (mgz : Mgz) (dead : ℕ → Http.Middleware) (room : ℕ) (socket_ : ℤ) (app : Option ℕ)
    (objects : Heap Object) : TransitionSystem Program ProgramLabel :=
  .ofNext (.start socket_ objects) (Program.next mgz dead room socket_ app)

end Server

end Lhs
