import LhsServer.Server.ClientThread
import LhsServer.Server.Run

/-!
# The process

The whole server while it runs: the accept loop of `Server.Run`, the client threads with everything
`client_thread` does after its first step, and the table of descriptors in the kernel. A system call
names a descriptor, and acts on what the descriptor stands for at that moment; a descriptor that was
closed can be handed out again by `accept` and by `opendir`.

What a thread does between two system calls is one step (`Client.next`), and so is a system call.
Between the last `read` and the `write` the threads share the buffer of `gmtime`; what a thread
finds there is told by its `Memory` (`Memory.tm`). Files are opened and closed again within the
step, while a directory that was opened is never closed.

An exception that leaves a thread ends the process, and so does `SIGPIPE`. A failed `accept` makes
`run` throw, which `main` catches: the threads go on, but the record `data` is gone.

The log of the kernel, what a client remembers of its reads, writes and directories, and the number
of its calls of `close` are ghost state that no step reads.
-/

namespace Lhs.Server

open Bytes Http

/-! ## The kernel -/

/-- What an open descriptor stands for. -/
inductive File where
  /-- the listening socket -/
  | listener
  /-- the connection with this number -/
  | socket (number : ℕ)
  | directory
  deriving DecidableEq

/-- A system call that reached the connection with the given number. -/
inductive Event where
  | read (number : ℕ) (result : ReadResult)
  | write (number : ℕ) (data : Bytes) (result : ℤ)
  | close (number : ℕ)

/-- The descriptors that the server has open, and the calls on its connections so far. -/
structure Kernel where
  files : Std.ExtTreeMap ℤ File
  log : List Event

namespace Kernel

variable (kernel : Kernel) (sockfd : ℤ)

/-- `accept` gives a new connection a descriptor that is not open. A call that waits can do so even
when the listening socket was closed in the meantime. -/
def accept (number : ℕ) : Option Kernel :=
  if kernel.files[sockfd]? = none then
    some { kernel with files := kernel.files.insert sockfd (.socket number) }
  else none

/-- `opendir` takes a descriptor that is not open. -/
def opendir (fd : ℤ) : Option Kernel :=
  if kernel.files[fd]? = none then
    some { kernel with files := kernel.files.insert fd .directory }
  else none

/-- `read` with a given result. On anything else than a connection it fails. -/
def read (result : ReadResult) : Option Kernel :=
  match kernel.files[sockfd]?, result with
  | some (.socket number), _ => some { kernel with log := kernel.log ++ [.read number result] }
  | _, .failed => some kernel
  | _, .received _ _ => none

/-- `write` with a given result: `-1`, or how many of the bytes were written. -/
def write (data : Bytes) (result : ℤ) : Option Kernel :=
  match kernel.files[sockfd]? with
  | some (.socket number) =>
    if -1 ≤ result ∧ result ≤ data.length then
      some { kernel with log := kernel.log ++ [.write number data result] }
    else none
  | _ => if result = -1 then some kernel else none

/-- A `write` to this descriptor can raise `SIGPIPE`: nobody reads what is written there. -/
def pipes : Bool :=
  match kernel.files[sockfd]? with
  | some (.socket _) => true
  | some .listener => true
  | _ => false

/-- `close`. -/
def close : Kernel :=
  match kernel.files[sockfd]? with
  | some (.socket number) =>
    { files := kernel.files.erase sockfd, log := kernel.log ++ [.close number] }
  | some _ => { kernel with files := kernel.files.erase sockfd }
  | none => kernel

end Kernel

/-! ## The threads -/

/-- Where a client thread is after its first step. -/
inductive Phase where
  /-- in the read loop, with the bytes read so far -/
  | reading (buffer : Bytes)
  /-- behind the read loop -/
  | serving (buffer : Bytes)
  /-- about to call `write` -/
  | writing (data : Bytes)
  /-- about to call `close` -/
  | closing
  | ended (ending : Ending)
  /-- `SIGPIPE` was raised in `write` -/
  | killed (data : Bytes)

/-- The phase after a `read` in the loop. -/
def Phase.afterRead (buffer : Bytes) : ReadResult → Phase
  | .failed => .ended .returned
  | .received bytes _ =>
    let readSize := bytes.length
    if readSize = 0 then .serving buffer
    else if readSize < bufferSize then .serving (buffer ++ bytes)
    else .reading (buffer ++ bytes)

/-- Parsing, answering and assembling: the part of `client_thread` between the last `read` and the
call of `write`. -/
def answer (mgz : Mgz) (mem : Memory) (app : Option Middleware) (buffer : Bytes) : OS Bytes := do
  let request ← Traced.lift (Request.parse mgz mem buffer)
  let response ← respond mgz mem app request
  Traced.lift (response.assemble mgz)

/-- The phase after the answer was computed, or an exception was thrown on the way. -/
def Phase.afterAnswer : Run Bytes → Phase
  | .ok data => .writing data
  | .error f => .ended (.fault f)

/-- The question opens a directory. -/
def opensDirectory (fs : FileSystem) : OsCall → Bool
  | .opendir path => (fs.opendir path).isSome
  | _ => false

/-- The question opens a file. -/
def opensFile (fs : FileSystem) : OsCall → Bool
  | .ifstream path => (fs.ifstream path).isSome
  | _ => false

/-- A client thread. -/
structure Client (App : Type) extends Thread App where
  phase : Phase
  reads : List ReadResult
  /-- the directories that were opened for its index -/
  opened : List ℤ
  written : Option (Bytes × ℤ)
  closes : ℕ

/-- A thread that `pthread_create` has started. -/
def Client.start {App : Type} (c : Connection) : Client App :=
  { startedFor := c, copied := none, phase := .reading [], reads := [], opened := [],
    written := none, closes := 0 }

/-- The steps of a client thread after the first. -/
inductive Action where
  | read (result : ReadResult)
  /-- from the bytes read to those to be written, with this memory and this file system; the
  directories that are opened get these descriptors -/
  | answer (mem : Memory) (fs : FileSystem) (fds : List ℤ)
  | write (result : ℤ)
  /-- `SIGPIPE` in `write` -/
  | sigpipe
  | close

namespace Client

variable {App : Type}

/-- An exception, undefined behaviour or a signal has ended the thread, and the process with it. -/
def stopped (t : Client App) : Bool :=
  match t.phase with
  | .ended (.fault _) => true
  | .killed _ => true
  | _ => false

/-- A step of a client thread behind the first: with `sockfd` for `c_socket`, and with what a call
through the pointer `app` does. -/
def next (mgz : Mgz) (call : Memory → Option Middleware) (sockfd : ℤ) (t : Client App)
    (kernel : Kernel) : Action → Option (Client App × Kernel)
  | .read result =>
    match t.phase with
    | .reading buffer =>
      (kernel.read sockfd result).map fun kernel =>
        ({ t with phase := .afterRead buffer result, reads := t.reads ++ [result] }, kernel)
    | _ => none
  | .answer mem fs fds =>
    match t.phase with
    | .serving buffer =>
      let data := answer mgz mem (call mem) buffer
      if fds.length = (data.trace fs).countP (opensDirectory fs) then
        (fds.foldlM Kernel.opendir kernel).map fun kernel =>
          ({ t with phase := .afterAnswer (data.value fs), opened := t.opened ++ fds }, kernel)
      else none
    | _ => none
  | .write result =>
    match t.phase with
    | .writing data =>
      (kernel.write sockfd data result).map fun kernel =>
        ({ t with
            phase := if -1 > result then .ended (.fault (.throw .serverError)) else .closing
            written := some (data, result) }, kernel)
    | _ => none
  | .sigpipe =>
    match t.phase with
    | .writing data => if kernel.pipes sockfd then some ({ t with phase := .killed data }, kernel)
      else none
    | _ => none
  | .close =>
    match t.phase with
    | .closing =>
      some ({ t with phase := .ended .exited, closes := t.closes + 1 }, kernel.close sockfd)
    | _ => none

end Client

/-! ## The whole process -/

/-- The state of the process. -/
structure Process (App : Type) where
  main : MainLoop
  accepted : List Connection
  /-- the record `data`; `none` before it is first written -/
  data : Option (ServerData App)
  clients : List (Client App)
  kernel : Kernel
  /-- no exception has left `run` -/
  inRun : Bool
  /-- neither an exception in a thread nor a signal has ended the process -/
  running : Bool

/-- The steps of the process. -/
inductive ProcessLabel (App : Type) where
  /-- with what `::accept` returns -/
  | accept (sockfd : ℤ) (client : Peer)
  | write
  | create
  /-- the first step of a thread -/
  | first (i : ℕ)
  /-- the first step of a thread behind `run`: it copies what stands where the record was -/
  | stray (i : ℕ) (d : ServerData App)
  /-- a later step of a thread -/
  | thread (i : ℕ) (action : Action)

namespace Process

variable {App : Type}

/-- The server before the first iteration, with the descriptor of the listening socket. -/
def start (socket_ : ℤ) : Process App :=
  { main := .accept, accepted := [], data := none, clients := []
    kernel := ⟨Std.ExtTreeMap.insert ∅ socket_ .listener, []⟩, inRun := true, running := true }

/-- A first step of thread `i`, which copies `data`. -/
def begin (p : Process App) (i : ℕ) (data : Option (ServerData App)) : Option (Process App) :=
  match p.clients[i]? with
  | some t =>
    match t.copied with
    | none => some { p with clients := p.clients.set i { t with copied := data } }
    | some _ => none
  | none => none

/-- The state after a step, if the step can be taken. What a call through a pointer does is told by
`called`. -/
def next (mgz : Mgz) (called : Memory → App → Option Middleware) (app : App) (p : Process App) :
    ProcessLabel App → Option (Process App)
  | .accept sockfd client =>
    match p.running && p.inRun, p.main with
    | true, .accept =>
      -- the exception leaves `run`
      if 0 > sockfd then some { p with inRun := false }
      else
        let c : Connection := { number := p.accepted.length, sockfd, client }
        (p.kernel.accept sockfd c.number).map fun kernel =>
          { p with main := .write c, accepted := p.accepted ++ [c], kernel }
    | _, _ => none
  | .write =>
    match p.running && p.inRun, p.main with
    | true, .write c => some { p with main := .create c, data := some { connection := c, app } }
    | _, _ => none
  | .create =>
    match p.running && p.inRun, p.main with
    | true, .create c => some { p with main := .accept, clients := p.clients ++ [.start c] }
    | _, _ => none
  | .first i => if p.running && p.inRun then p.begin i p.data else none
  | .stray i d => if p.running && !p.inRun then p.begin i (some d) else none
  | .thread i action =>
    match p.running, p.clients[i]? with
    | true, some t =>
      match t.copied with
      | some d =>
        (t.next mgz (called · d.app) d.connection.sockfd p.kernel action).map fun (t', kernel) =>
          { p with clients := p.clients.set i t', kernel, running := !t'.stopped }
      | none => none
    | _, _ => none

/-- The accept loop and the first steps of the threads, as `run` describes them. -/
def toState (p : Process App) : State App :=
  { main := p.main, accepted := p.accepted, data := p.data,
    threads := p.clients.map Client.toThread }

end Process

/-- `server::run` with the client threads as a whole. -/
def process {App : Type} (mgz : Mgz) (called : Memory → App → Option Middleware) (app : App)
    (socket_ : ℤ) : TransitionSystem (Process App) (ProcessLabel App) :=
  .ofNext (.start socket_) (Process.next mgz called app)

end Lhs.Server
