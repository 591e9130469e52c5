import LhsServer.Server.Run

/-!
# The record field by field

The accept loop of `Server.Run` once more, with the assignments to the fields of `data` and the
reads of a thread as steps of their own. `run` assigns `server`, `connection`, `app` and `client`;
`client_thread_helper` reads `server`, and `client_thread` then reads `connection`, `client` and
`app`.
-/

namespace Lhs.Server

variable {This App : Type}

/-- The fields of the record; `none` before a field is first written. -/
structure Fields (This App : Type) where
  server : Option This
  /-- the descriptor, and the number of the connection behind it -/
  connection : Option (ℕ × ℤ)
  app : Option App
  client : Option Peer
  deriving DecidableEq

/-- The next assignment in the main loop. -/
inductive NextWrite where
  | server
  | connection
  | app
  | client
  deriving DecidableEq

/-- The next read of a thread. -/
inductive NextRead where
  | server
  | connection
  | client
  | app
  | done
  deriving DecidableEq

/-- Where the main loop is. -/
inductive FieldLoop where
  | accept
  | write (c : Connection) (field : NextWrite)
  | create (c : Connection)
  deriving DecidableEq

/-- A started thread, with what it has read of the record so far. -/
structure FieldThread (This App : Type) where
  startedFor : Connection
  field : NextRead
  copied : Fields This App
  deriving DecidableEq

/-- The state of the server. -/
structure FieldState (This App : Type) where
  main : FieldLoop
  accepted : List Connection
  data : Fields This App
  threads : List (FieldThread This App)
  deriving DecidableEq

/-- The steps of the main loop and of the threads. -/
inductive FieldLabel where
  | accept (sockfd : ℤ) (client : Peer)
  | write
  | create
  | read (i : ℕ)
  deriving DecidableEq

/-- A record of which nothing was written. -/
def Fields.blank : Fields This App :=
  { server := none, connection := none, app := none, client := none }

/-- One read of a thread. -/
def FieldThread.read (data : Fields This App) (t : FieldThread This App) :
    Option (FieldThread This App) :=
  match t.field with
  | .server =>
    some { t with field := .connection, copied := { t.copied with server := data.server } }
  | .connection =>
    some { t with field := .client, copied := { t.copied with connection := data.connection } }
  | .client => some { t with field := .app, copied := { t.copied with client := data.client } }
  | .app => some { t with field := .done, copied := { t.copied with app := data.app } }
  | .done => none

namespace FieldState

/-- The state after a step, if the step can be taken. -/
def next (this : This) (app : App) (s : FieldState This App) :
    FieldLabel → Option (FieldState This App)
  | .accept sockfd client =>
    match s.main with
    | .accept =>
      let c : Connection := { number := s.accepted.length, sockfd, client }
      some { s with main := .write c .server, accepted := s.accepted ++ [c] }
    | _ => none
  | .write =>
    match s.main with
    | .write c .server =>
      some { s with main := .write c .connection, data := { s.data with server := some this } }
    | .write c .connection =>
      some { s with
        main := .write c .app
        data := { s.data with connection := some (c.number, c.sockfd) } }
    | .write c .app =>
      some { s with main := .write c .client, data := { s.data with app := some app } }
    | .write c .client =>
      some { s with main := .create c, data := { s.data with client := some c.client } }
    | _ => none
  | .create =>
    match s.main with
    | .create c =>
      some { s with
        main := .accept
        threads := s.threads ++ [{ startedFor := c, field := .server, copied := .blank }] }
    | _ => none
  | .read i =>
    match s.threads[i]? with
    | some t => (t.read s.data).map fun t' => { s with threads := s.threads.set i t' }
    | none => none

/-- The server before the first iteration. -/
def start : FieldState This App :=
  { main := .accept, accepted := [], data := .blank, threads := [] }

end FieldState

/-- `server::run` with its client threads, field by field. -/
def runFields (this : This) (app : App) : TransitionSystem (FieldState This App) FieldLabel :=
  .ofNext .start (FieldState.next this app)

end Lhs.Server
