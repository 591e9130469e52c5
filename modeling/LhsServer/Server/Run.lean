import LhsServer.Library.TransitionSystem
import LhsServer.Protocol.Http.Middleware

/-!
# The accept loop

`lhs::server::run` and the first steps of the client threads, as a transition system. The main loop
accepts a connection, writes it into the record `data`, and starts a thread with the address of
that record. The record is a local variable of the loop body, so all iterations use one cell. A
started thread first copies the record.

Connections are numbered in the order in which they are accepted: descriptors are reused, numbers
are not. The number of a connection and the connection a thread was started for are ghost state
that no step reads.
-/

namespace Lhs.Server

/-- `lhs::peer`. -/
structure Peer where
  port : ℤ
  ip : Bytes
  deriving DecidableEq

/-- An accepted connection: what `accept` returned, and its number. -/
structure Connection where
  number : ℕ
  sockfd : ℤ
  client : Peer
  deriving DecidableEq

/-- `t_server_data`: the fields `connection` and `client` of one accepted connection, and the
app. -/
structure ServerData (App : Type) where
  connection : Connection
  app : App
  deriving DecidableEq

/-- Where the main loop is. -/
inductive MainLoop where
  /-- about to call `accept` -/
  | accept
  /-- about to write the connection into the record -/
  | write (c : Connection)
  /-- about to call `pthread_create` -/
  | create (c : Connection)
  deriving DecidableEq

/-- A started thread. -/
structure Thread (App : Type) where
  /-- the connection it was started for -/
  startedFor : Connection
  /-- what its first step has copied out of the record -/
  copied : Option (ServerData App)
  deriving DecidableEq

/-- The state of the server. -/
structure State (App : Type) where
  main : MainLoop
  /-- the connections accepted so far -/
  accepted : List Connection
  /-- the record `data`; `none` before it is first written -/
  data : Option (ServerData App)
  threads : List (Thread App)
  deriving DecidableEq

/-- The steps of the main loop and of the threads. -/
inductive Label where
  | accept (sockfd : ℤ) (client : Peer)
  | write
  | create
  /-- the first step of a thread -/
  | first (i : ℕ)
  deriving DecidableEq

namespace State

variable {App : Type}

/-- The state after a step, if the step can be taken. -/
def next (app : App) (s : State App) : Label → Option (State App)
  | .accept sockfd client =>
    match s.main with
    | .accept =>
      let c : Connection := { number := s.accepted.length, sockfd, client }
      some { s with main := .write c, accepted := s.accepted ++ [c] }
    | _ => none
  | .write =>
    match s.main with
    | .write c => some { s with main := .create c, data := some { connection := c, app } }
    | _ => none
  | .create =>
    match s.main with
    | .create c =>
      some { s with main := .accept, threads := s.threads ++ [{ startedFor := c, copied := none }] }
    | _ => none
  | .first i =>
    match s.threads[i]? with
    | some { startedFor, copied := none } =>
      -- the thread copies what the record holds now, not what it held when the thread was started
      some { s with threads := s.threads.set i { startedFor, copied := s.data } }
    | _ => none

/-- The server before the first iteration. -/
def start : State App := { main := .accept, accepted := [], data := none, threads := [] }

end State

/-- `server::run` with its client threads. -/
def run {App : Type} (app : App) : TransitionSystem (State App) Label :=
  .ofNext .start (State.next app)

end Lhs.Server
