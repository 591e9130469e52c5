import LhsServer.Protocol.Http.Middleware

/-!
# The client thread

`lhs::server::client_thread` after its first step, which copies the connection (`Server.Run` is
about that step): read the request (`readLoop`), answer it (`respond`), write the response, close
the connection. The results of the socket calls are given: a list of results of `read`, after which
a further read waits for ever, and one result for each call of `write`.

`clientThread` tells how the thread ends (`Ending`), how often it has closed the connection, and
what it has written.
-/

namespace Lhs.Server

open Bytes Http

/-- `BUFFER_SIZE`. -/
def bufferSize : ℕ := 1024

/-! ## Reading -/

/-- The result of one `read(c_socket, &_buffer[0], BUFFER_SIZE)`: `-1`, or the bytes stored. No
bytes at all is the end of the stream. -/
inductive ReadResult where
  | failed
  | received (bytes : Bytes) (hlength : bytes.length ≤ bufferSize)

/-- How the read loop ends. -/
inductive ReadEnd where
  /-- `break`, with the bytes read -/
  | done (buffer : Bytes)
  /-- `return NULL` after a negative result -/
  | reset
  /-- a read waits for bytes that never come -/
  | blocked (buffer : Bytes)
  deriving DecidableEq, Repr

/-- The read loop, from the results of the reads to come and the bytes read so far. -/
def readLoop : List ReadResult → Bytes → ReadEnd
  | [], buffer => .blocked buffer
  | .failed :: _, _ => .reset
  | .received bytes _ :: reads, buffer =>
    let readSize := bytes.length
    -- the end of the stream: everything has been read
    if readSize = 0 then .done buffer
    -- a short read is taken for the end of the message
    else if readSize < bufferSize then .done (buffer ++ bytes)
    else readLoop reads (buffer ++ bytes)

/-! ## Answering -/

/-- The response for a request: that of the app, or the not-found page where there is no app or it
leaves the code at `0`. -/
def respond (mgz : Mgz) (mem : Memory) (app : Option Middleware) (request : Request) :
    OS Response := do
  let response := Response.ofVersion mem request.version
  let env := Env.ofRequest mem request
  let (response, internal404) ←
    match app with
    | some app => do
      let response ← app env
      pure (response, decide (response.code = 0))
    -- `internal_404` keeps its initial value
    | none => pure (response, true)
  if internal404 then
    let response := { response with code := Error.notFound.value }
    let response :=
      { response with body := mgz.format defaultNotFound [.s (cstr request.uri)] }
    let response := response.assign (str "Content-Type") (.string (str "text/html"))
    return response.assign (str "Pragma") (.string (str "no-cache"))
  else return response

/-! ## The whole thread -/

/-- How the thread ends. -/
inductive Ending where
  /-- `return NULL` -/
  | returned
  /-- `pthread_exit(NULL)` -/
  | exited
  /-- an exception leaves the start routine, or the behaviour is undefined -/
  | fault (f : Fault)
  /-- a read waits for ever -/
  | blocked
  deriving DecidableEq, Repr

/-- What a thread has done when it ends. -/
structure Outcome where
  ending : Ending
  /-- how often the accepted connection was closed -/
  closes : ℕ
  /-- the bytes handed to `write`, and its result -/
  written : Option (Bytes × ℤ)
  deriving DecidableEq

/-- A thread that ends before it writes or closes anything. -/
def Outcome.early (ending : Ending) : Outcome := { ending, closes := 0, written := none }

/-- The part of `client_thread` behind the read loop, up to the test of what `write` returned. -/
def serve (mgz : Mgz) (mem : Memory) (app : Option Middleware) (socketWrite : Bytes → ℤ)
    (buffer : Bytes) : OS (Bytes × ℤ) := do
  let request ← Traced.lift (Request.parse mgz mem buffer)
  let response ← respond mgz mem app request
  Traced.lift (response.write mgz socketWrite)

/-- `client_thread`, given the results of the reads and of the write. -/
def clientThread (mgz : Mgz) (mem : Memory) (app : Option Middleware) (fs : FileSystem)
    (reads : List ReadResult) (socketWrite : Bytes → ℤ) : Outcome :=
  match readLoop reads [] with
  -- `return NULL` in front of `close`
  | .reset => .early .returned
  | .blocked _ => .early .blocked
  | .done buffer =>
    match (serve mgz mem app socketWrite buffer).value fs with
    | .error f => .early (.fault f)
    | .ok (data, result) =>
      -- a failed `write` returns `-1`, which does not enter the branch that throws
      if -1 > result then
        { ending := .fault (.throw .serverError), closes := 0, written := some (data, result) }
      else { ending := .exited, closes := 1, written := some (data, result) }

end Lhs.Server
