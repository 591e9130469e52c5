import LhsServer.Library.TransitionSystem
import LhsServer.Server.ClientThread
import LhsServer.Server.Run

/-!
# The access log

The lines that `client_thread` and `main` insert in `std::cerr`, and `getpeer`, which makes the
address of the client into text.

Every line is inserted by a statement of its own, the text first and then `std::endl`. Nothing keeps
the threads apart while they insert: the stream gets whole characters, and those of different
statements can come in any order (`Cerr.next`). Which lines are complete is ghost state that no step
reads.
-/

namespace Lhs.Server

open Bytes Http

/-- The four bytes of an IPv4 address. -/
abbrev InAddr : Type := UInt8 × UInt8 × UInt8 × UInt8

/-- `sockaddr_in` as `accept` fills it in, with the bytes in network order. -/
structure SockaddrIn where
  sinPort : UInt8 × UInt8
  sinAddr : InAddr
  deriving DecidableEq

/-- `INET6_ADDRSTRLEN`. -/
def inet6AddrStrLen : ℕ := 46

/-- `inet_ntoa`. -/
def inetNtoa (addr : InAddr) : Bytes :=
  let (a, b, c, d) := addr
  digits a.toNat ++ dot :: (digits b.toNat ++ dot :: (digits c.toNat ++ dot :: digits d.toNat))

/-- `ntohs`. -/
def ntohs (port : UInt8 × UInt8) : ℤ := 256 * port.1.toNat + port.2.toNat

/-- `server::getpeer`: the text is copied without its NUL to the start of an array of zeros. -/
def getpeer (client : SockaddrIn) : Peer :=
  let ip := inetNtoa client.sinAddr
  { port := ntohs client.sinPort, ip := ip ++ List.replicate (inet6AddrStrLen - ip.length) NUL }

/-- The text that is logged for a request, with the date `now`. -/
def accessText (mgz : Mgz) (now : Bytes) (client : Peer) (request : Request) : Bytes :=
  mgz.format (str "%s:%d [%s] - - %s %s %s")
    [.s (cstr client.ip), .d client.port, .s (cstr now),
      .s (cstr (getHttpMethodName request.method)), .s (cstr request.uri),
      .s (cstr (getHttpVersionName request.version))]

/-- A statement that inserts a line in `std::cerr`. -/
inductive Report where
  /-- `client_thread`, after a `read` that failed -/
  | reset
  /-- `client_thread`, about a request -/
  | access (now : Bytes) (client : SockaddrIn) (request : Request)
  /-- `main`, about the exception that has left `run` -/
  | error (what : Bytes)

namespace Report

variable (mgz : Mgz)

/-- The text that is inserted. -/
def text : Report → Bytes
  | .reset => str "Connexion reset by peer!"
  | .access now client request => accessText mgz now (getpeer client) request
  | .error what => str "Error: " ++ what

/-- The text, and `std::endl`. -/
def line (report : Report) : Bytes := report.text mgz ++ [LF]

end Report

/-! ## The stream -/

/-- A statement that has begun, and how many characters of its line it has inserted. -/
structure Insertion where
  report : Report
  inserted : ℕ

/-- `std::cerr`. -/
structure Cerr where
  stream : Bytes
  insertions : List Insertion
  /-- the reports whose lines are complete, in the order in which they were completed -/
  complete : List Report

/-- The steps of the statements. -/
inductive CerrLabel where
  | start (report : Report)
  /-- the next character of a statement -/
  | put (i : ℕ)

/-- The state after a step, if the step can be taken. -/
def Cerr.next (mgz : Mgz) (s : Cerr) : CerrLabel → Option Cerr
  | .start report => some { s with insertions := s.insertions ++ [⟨report, 0⟩] }
  | .put i =>
    match s.insertions[i]? with
    | some w =>
      let chars := w.report.line mgz
      chars[w.inserted]?.map fun c =>
        { stream := s.stream ++ [c]
          insertions := s.insertions.set i { w with inserted := w.inserted + 1 }
          complete :=
            if w.inserted + 1 = chars.length then s.complete ++ [w.report] else s.complete }
    | none => none

/-- `std::cerr` and the statements that write there. -/
def cerr (mgz : Mgz) : TransitionSystem Cerr CerrLabel :=
  .ofNext ⟨[], [], []⟩ (Cerr.next mgz)

end Lhs.Server
