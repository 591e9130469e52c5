import LhsServer.Protocol.Http.Header

/-!
# Responses

`lhs::http::response` and the bytes `response::write` assembles. `write` first sets three fields of
the header, so a response on which it was called is no longer the response it was (`stamp`).
-/

namespace Lhs.Http

open Bytes

/-- `LHS_HOST`. -/
def lhsHost : Bytes := str "LHS/0.1"

/-- `DEFAULT_NOT_FOUND`. -/
def defaultNotFound : Bytes :=
  str "<html>" ++
  str "  <head>" ++
  str "    <title>404 Not Found</title>" ++
  str "  </head>" ++
  str "  <body>" ++
  str "    <h1>Sorry dude!</h1>" ++
  str "    <p>The requested URL %s was not found on this server.</p>" ++
  str "  </body>" ++
  str " </html>"

/-- `lhs::http::response`. The field `code` is the storage of an `error`: a response that was not
given one holds whatever was there. -/
@[ext] structure Response where
  code : ℤ
  version : Version
  body : Bytes
  header : Header

namespace Response

/-- `response()`: neither the code nor the version is set. -/
def default (mem : Memory) : Response :=
  { code := mem.code, version := mem.version, body := [], header := .empty }

/-- `response(v)`: the code is not set. -/
def ofVersion (mem : Memory) (version : Version) : Response :=
  { code := mem.code, version, body := [], header := .empty }

/-- `response[key] = value`. -/
def assign (response : Response) (key : Bytes) (value : Any) : Response :=
  { response with header := response.header.assign key value }

/-- `response[key]`. -/
def subscript (response : Response) (key : Bytes) : Any × Response :=
  ((response.header.subscript key).1,
    { response with header := (response.header.subscript key).2 })

variable (mgz : Mgz)

/-- The fields `write` sets before it writes anything. -/
def stamp (response : Response) : Response :=
  ((response.assign (str "Server") (.string lhsHost)).assign
    (str "Date") (.string mgz.nowToHttp)).assign
      (str "Content-Length") (.string (mgz.convert response.body.length))

/-- The status line `write` begins with. -/
def statusLine (response : Response) : Bytes :=
  mgz.format (str "%s %d %s\r\n")
    [.s (cstr (getHttpVersionName response.version)), .d response.code,
      .s (cstr (getHttpErrorName response.code))]

/-- The bytes `write` hands to the socket. -/
def assemble (response : Response) : Run Bytes := do
  -- the three fields are set before anything is written
  let response := response.stamp mgz
  -- the casts of the header can throw; nothing has been sent by then
  let header ← response.header.toString
  return response.statusLine mgz ++ header ++ str "\r\n" ++ response.body

/-- `response::write` on a socket whose next write call returns `socketWrite data`: the bytes
handed over and the result. -/
def write (response : Response) (socketWrite : Bytes → ℤ) : Run (Bytes × ℤ) := do
  let data ← response.assemble mgz
  return (data, socketWrite data)

/-! ## Reading the fields of a response after an assignment -/

section Fields

variable (response : Response) (key : Bytes) (value : Any)

@[simp] theorem code_assign : (response.assign key value).code = response.code := rfl

@[simp] theorem version_assign : (response.assign key value).version = response.version := rfl

@[simp] theorem body_assign : (response.assign key value).body = response.body := rfl

@[simp] theorem header_assign :
    (response.assign key value).header = response.header.assign key value := rfl

@[simp] theorem code_stamp : (response.stamp mgz).code = response.code := rfl

@[simp] theorem version_stamp : (response.stamp mgz).version = response.version := rfl

@[simp] theorem body_stamp : (response.stamp mgz).body = response.body := rfl

end Fields

/-! ## When a response can be written -/

/-- The names of the fields `write` sets. -/
def stampedNames : List Bytes := [str "Server", str "Date", str "Content-Length"]

/-- The stamped header has only strings when the other fields of the response are strings. -/
theorem allStrings_stamp_iff (response : Response) :
    (response.stamp mgz).header.AllStrings ↔ response.header.StringsExcept stampedNames := by
  rw [← Header.stringsExcept_nil]
  simp only [stamp, header_assign, Header.stringsExcept_assign_iff, stampedNames]

/-- What is written then: the status line, the fields and the body. -/
theorem assemble_of_stringsExcept {response : Response}
    (h : response.header.StringsExcept stampedNames) :
    response.assemble mgz = .ok (response.statusLine mgz ++
      ((response.stamp mgz).header.fields.flatMap fun it =>
        Header.field it.1 (Header.text it.2)) ++ str "\r\n" ++ response.body) := by
  have hheader := Header.toString_of_allStrings ((allStrings_stamp_iff mgz response).mpr h)
  rw [assemble, hheader]
  rfl

/-- A field that holds no string makes `write` throw. -/
theorem assemble_of_not_stringsExcept {response : Response}
    (h : ¬response.header.StringsExcept stampedNames) :
    response.assemble mgz = .error (.throw .badAnyCast) := by
  have hheader := Header.toString_of_not_allStrings fun hall =>
    h ((allStrings_stamp_iff mgz response).mp hall)
  rw [assemble, hheader]
  rfl

end Response

end Lhs.Http
