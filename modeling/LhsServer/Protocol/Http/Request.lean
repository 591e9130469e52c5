import LhsServer.Library.Lines
import LhsServer.Protocol.Http.Header

/-!
# Requests

The constructor of `lhs::http::request`. It reads the whole input into lines, takes the first as
the request line (`parseInit`, `parseParams`), the following ones up to the first empty line as
header fields (`parseHeaders`), and what lies behind the offset `nbchar` as the body. The offset is
not measured on the input: each line adds its length, without the CR that was removed from it, and
one.

A `Request` carries the fact that its path starts with `/`, which `parseInit` checks.
-/

namespace Lhs.Http

open Bytes

/-- What `parse_init` reads from the request line. -/
structure RequestLine where
  method : Method
  uri : Bytes
  path : Bytes
  queryString : Bytes
  params : Std.ExtTreeMap Bytes Bytes
  version : Version
  path_head : path.head? = some slash

/-- `lhs::http::request`. -/
structure Request extends RequestLine where
  header : Header
  body : Bytes

namespace Request

/-- The request `GET path HTTP/1.1` without header fields and body. -/
def get (path : Bytes) (path_head : path.head? = some slash) : Request where
  method := .get
  uri := path
  path := path
  queryString := []
  params := ∅
  version := .http_1_1
  path_head := path_head
  header := .empty
  body := []

/-- `request[key]`. -/
def subscript (request : Request) (key : Bytes) : Any × Request :=
  ((request.header.subscript key).1, { request with header := (request.header.subscript key).2 })

/-- `request::to_string`. -/
def toString (request : Request) : Run Bytes := do
  let result := str "<lhs::http::request:\n"
  let result := result ++ str "<header: \n"
  let header ← request.header.toString
  let result := result ++ header ++ str "\n"
  let result := result ++ str ">\n"
  let result := result ++ str "<method: " ++ getHttpMethodName request.method ++ str " >\n"
  let result := result ++ str "<uri: " ++ request.uri ++ str " >\n"
  let result := result ++ str "<query_string: " ++ request.queryString ++ str " >\n"
  let result := result ++ str "<path: " ++ request.path ++ str " >\n"
  let result := result ++ str "<version: " ++ getHttpVersionName request.version ++ str " >\n"
  return result ++ str ">"

/-! ## The request line -/

section RequestLine

variable (mgz : Mgz)

/-- The body of the loop over the parameters. -/
def addParam (params : Std.ExtTreeMap Bytes Bytes) (it : Bytes) : Std.ExtTreeMap Bytes Bytes :=
  let found := find it equals
  let paramName := upTo it found
  let paramValue := after it found
  params.insert (mgz.decode paramName) (mgz.decode paramValue)

/-- `parse_params`: the path, the query string and the parameters of a uri. -/
def parseParams (uri : Bytes) : Bytes × Bytes × Std.ExtTreeMap Bytes Bytes :=
  match mgz.split uri question with
  | path :: queryString :: _ =>
    (path, queryString, (mgz.split queryString amp).foldl (addParam mgz) ∅)
  | _ => (uri, [], ∅)

/-- `parse_init`. On an empty path `path[0]` is the terminating NUL, and so not `/`. -/
def parseInit (init : Bytes) : Run RequestLine :=
  match mgz.split init SP with
  | [method, uri, version] =>
    let target := parseParams mgz uri
    if h : target.1.head? = some slash then
      .ok
        { method := getHttpMethodByName method
          uri
          path := target.1
          queryString := target.2.1
          params := target.2.2
          version := getHttpVersionByName version
          path_head := h }
    else .error (.throw (.requestError "Invalide request path"))
  | _ => .error (.throw (.requestError "Bad request"))

end RequestLine

/-! ## The lines of the input -/

/-- `line[line.size() - 1]`. On an empty line the index wraps around and the access falls outside
of the string. -/
def lastChar (mem : Memory) (line : Bytes) : Run UInt8 :=
  match line.getLast? with
  | some c => .ok c
  | none =>
    match mem.lineBack with
    | some c => .ok c
    | none => .error (.undefined .stringIndex)

/-- The body of the `getline` loop: remove a CR from the end of the line. `resize` to
`line.size() - 1` throws when that is not a size a string can have. -/
def chomp (mem : Memory) (line : Bytes) : Run Bytes := do
  let c ← lastChar mem line
  if c = CR then
    -- the size of an empty line is 0, so that `line.size() - 1` wraps around
    if line = [] then .error (.throw .lengthError) else return line.dropLast
  else return line

/-- The deque of lines the header is read from. -/
def readLines (mem : Memory) (data : Bytes) : Run (List Bytes) :=
  (Lines.getlines LF data).mapM (chomp mem)

/-! ## The header -/

/-- `header_[trim(header_name)] = trim(header_value)` for one line. -/
def addHeader (mgz : Mgz) (header : Header) (line : Bytes) : Header :=
  let found := find line colon
  let headerName := upTo line found
  let headerValue := after line found
  header.assign (mgz.trim headerName) (.string (mgz.trim headerValue))

/-- The loop over the header lines, from the deque, the fields and the offset it has reached: it
ends at an empty line, and asks an empty deque for its front when there is none. -/
def parseHeaders (mgz : Mgz) : List Bytes → Header → ℕ → Run (Header × ℕ)
  | [], _, _ => .error (.undefined .emptyDeque)
  | line :: result, header, nbchar =>
    -- `while(!(line = result.front()).empty())`, with the `pop_front` at the end of the body
    if line = [] then .ok (header, nbchar)
    else parseHeaders mgz result (addHeader mgz header line) (nbchar + line.length + 1)

/-! ## The whole request -/

/-- `parse` up to the empty line: the request line, the header fields and the offset `nbchar`. -/
def parseHead (mgz : Mgz) (mem : Memory) (data : Bytes) : Run (RequestLine × Header × ℕ) := do
  let result ← readLines mem data
  match result with
  | [] => .error (.undefined .emptyDeque)
  | init :: result =>
    let line ← parseInit mgz init
    -- `nbchar` counts one byte for the end of a line, whether that was LF or CRLF
    let (header, nbchar) ← parseHeaders mgz result .empty (0 + init.length + 1)
    return (line, header, nbchar + 1)

/-- The bytes from `data_.begin() + nbchar` to `data_.end()`. -/
def bodyFrom (data : Bytes) (nbchar : ℕ) : Run Bytes :=
  if nbchar ≤ data.length then .ok (data.drop nbchar)
  else .error (.undefined .iteratorRange)

/-- `lhs::http::request::parse`, which the constructor calls. -/
def parse (mgz : Mgz) (mem : Memory) (data : Bytes) : Run Request := do
  let (line, header, nbchar) ← parseHead mgz mem data
  let body ← bodyFrom data nbchar
  return { toRequestLine := line, header, body }

end Request

end Lhs.Http
