import LhsServer.Library.Bytes
import Mathlib.Data.Int.Notation
import Mathlib.Data.List.Nodup

/-!
# Methods, versions and errors

The enumerations of `protocol/http.h` with the tables that give each value its name, and the
lookups of `protocol/http.cc`. The three tables are read by the same two functions: `getByName`
returns a default for a name that is not in the table, `getName` the empty string for a value that
is not.

A response stores its error as an `int` (`Response.code`), since that field can hold a value that
is none of the enumerators; `getHttpErrorName` therefore takes an integer.
-/

namespace Lhs.Http

open Bytes

/-- `lhs::http::method`. -/
inductive Method where
  | unknow
  | option
  | get
  | head
  | post
  | put
  | delete
  | trace
  | connect
  deriving DecidableEq, Repr

/-- `lhs::http::version`. -/
inductive Version where
  | httpUnknow
  | http_1_0
  | http_1_1
  deriving DecidableEq, Repr

/-- `lhs::http::error`. -/
inductive Error where
  | errorUnknow
  | continue
  | switchingProtocols
  | processing
  | connectionTimedOut
  | ok
  | created
  | accepted
  | nonAuthoritativeInformation
  | noContent
  | resetContent
  | partialContent
  | multiStatus
  | contentDifferent
  | multipleChoices
  | movedPermanently
  | movedTemporarily
  | seeOther
  | notModified
  | useProxy
  | temporaryRedirect
  | tooManyRedirects
  | badRequest
  | unauthorized
  | paymentRequired
  | forbidden
  | notFound
  | methodNotAllowed
  | notAcceptable
  | proxyAuthenticationRequired
  | requestTimeout
  | conflict
  | gone
  | lengthRequired
  | preconditionFailed
  | requestEntityTooLarge
  | requestURITooLong
  | unsupportedMediaType
  | requestedRangeUnsatisfiable
  | expectationFailed
  | iMATeapot
  | unprocessableEntity
  | locked
  | methodFailure
  | unorderedCollection
  | upgradeRequired
  | retryWith
  | blockedByWindowsParentalControls
  | internalServerError
  | notImplemented
  | badGatewayOuProxyError
  | serviceUnavailable
  | gatewayTimeout
  | httpVersionNotSupported
  | insufficientStorage
  | bandwidthLimitExceeded
  deriving DecidableEq, Repr

/-! ## The tables -/

def httpMethods : List (Method × Bytes) :=
  [(.unknow, str "UNKNOW"), (.option, str "OPTION"), (.get, str "GET"), (.head, str "HEAD"),
    (.post, str "POST"), (.put, str "PUT"), (.delete, str "DELETE"), (.trace, str "TRACE"),
    (.connect, str "CONNECT")]

def httpVersions : List (Version × Bytes) :=
  [(.httpUnknow, str "HTTP/unknow"), (.http_1_0, str "HTTP/1.0"), (.http_1_1, str "HTTP/1.1")]

def httpErrors : List (Error × Bytes × ℤ) :=
  [(.errorUnknow, str "ERROR_UNKNOW", 0),
    (.continue, str "Continue", 100),
    (.switchingProtocols, str "Switching Protocols", 101),
    (.processing, str "Processing", 102),
    (.connectionTimedOut, str "Connection timed out", 118),
    (.ok, str "OK", 200),
    (.created, str "Created", 201),
    (.accepted, str "Accepted", 202),
    (.nonAuthoritativeInformation, str "Non-Authoritative Information", 203),
    (.noContent, str "No Content", 204),
    (.resetContent, str "Reset Content", 205),
    (.partialContent, str "Partial Content", 206),
    (.multiStatus, str "Multi-Status", 207),
    (.contentDifferent, str "Content Different", 210),
    (.multipleChoices, str "Multiple Choices", 300),
    (.movedPermanently, str "Moved Permanently", 301),
    (.movedTemporarily, str "Moved Temporarily", 302),
    (.seeOther, str "See Other", 303),
    (.notModified, str "Not Modified", 304),
    (.useProxy, str "Use Proxy", 305),
    (.temporaryRedirect, str "Temporary Redirect", 307),
    (.tooManyRedirects, str "Too many Redirects", 310),
    (.badRequest, str "Bad Request", 400),
    (.unauthorized, str "Unauthorized", 401),
    (.paymentRequired, str "Payment Required", 402),
    (.forbidden, str "Forbidden", 403),
    (.notFound, str "Not Found", 404),
    (.methodNotAllowed, str "Method Not Allowed", 405),
    (.notAcceptable, str "Not Acceptable", 406),
    (.proxyAuthenticationRequired, str "Proxy Authentication Required", 407),
    (.requestTimeout, str "Request Time-out", 408),
    (.conflict, str "Conflict", 409),
    (.gone, str "Gone", 410),
    (.lengthRequired, str "Length Required", 411),
    (.preconditionFailed, str "Precondition Failed", 412),
    (.requestEntityTooLarge, str "Request Entity Too Large", 413),
    (.requestURITooLong, str "Request-URI Too Long", 414),
    (.unsupportedMediaType, str "Unsupported Media Type", 415),
    (.requestedRangeUnsatisfiable, str "Requested range unsatisfiable", 416),
    (.expectationFailed, str "Expectation failed", 417),
    (.iMATeapot, str "I'm a teapot", 418),
    (.unprocessableEntity, str "Unprocessable entity", 422),
    (.locked, str "Locked", 423),
    (.methodFailure, str "Method failure", 424),
    (.unorderedCollection, str "Unordered Collection", 425),
    (.upgradeRequired, str "Upgrade Required", 426),
    (.retryWith, str "Retry With", 449),
    (.blockedByWindowsParentalControls, str "Blocked by Windows Parental Controls", 450),
    (.internalServerError, str "Internal Server Error", 500),
    (.notImplemented, str "Not Implemented", 501),
    (.badGatewayOuProxyError, str "Bad Gateway", 502),
    (.serviceUnavailable, str "Service Unavailable", 503),
    (.gatewayTimeout, str "Gateway Time-out", 504),
    (.httpVersionNotSupported, str "HTTP Version not supported", 505),
    (.insufficientStorage, str "Insufficient storage", 507),
    (.bandwidthLimitExceeded, str "Bandwidth Limit Exceeded", 509)]

/-- The integer an enumerator of `error` stands for. -/
def Error.value (e : Error) : ℤ :=
  match httpErrors.find? (·.1 = e) with
  | some entry => entry.2.2
  | none => 0

/-! ## The lookups -/

/-- `GET_BY_NAME_I(m, d)`: the value of that name, or `d`. -/
def getByName {α : Type} (str_to_value : List (Bytes × α)) (d : α) (name : Bytes) : α :=
  match str_to_value.find? (·.1 = name) with
  | some entry => entry.2
  | none => d

/-- `GET_NAME_I(m)`: the name of that value, or the empty string. -/
def getName {α : Type} [DecidableEq α] (value_to_str : List (α × Bytes)) (value : α) : Bytes :=
  match value_to_str.find? (·.1 = value) with
  | some entry => entry.2
  | none => []

def getHttpMethodByName : Bytes → Method :=
  getByName (httpMethods.map fun e => (e.2, e.1)) .unknow

def getHttpMethodName : Method → Bytes := getName httpMethods

def getHttpVersionByName : Bytes → Version :=
  getByName (httpVersions.map fun e => (e.2, e.1)) .httpUnknow

def getHttpVersionName : Version → Bytes := getName httpVersions

def getHttpErrorName : ℤ → Bytes := getName (httpErrors.map fun e => (e.2.2, e.2.1))

/-! ## What the tables hold -/

/-- In a table whose keys are distinct, the entry of a key is found. -/
theorem find?_of_mem {α β : Type} [DecidableEq α] {table : List (α × β)}
    (hnodup : (table.map (·.1)).Nodup) {key : α} {value : β} (h : (key, value) ∈ table) :
    table.find? (·.1 = key) = some (key, value) := by
  induction table with
  | nil => simp at h
  | cons entry table ih =>
    obtain ⟨hnot, hnodup⟩ := List.nodup_cons.mp hnodup
    rcases List.mem_cons.mp h with rfl | h
    · simp
    -- the first entry has another key: the keys are distinct
    · have hne : entry.1 ≠ key := by
        rintro rfl
        exact hnot (List.mem_map_of_mem (f := (·.1)) h)
      simpa [List.find?_cons, hne] using ih hnodup h

theorem getName_of_mem {α : Type} [DecidableEq α] {table : List (α × Bytes)}
    (hnodup : (table.map (·.1)).Nodup) {value : α} {name : Bytes} (h : (value, name) ∈ table) :
    getName table value = name := by
  rw [getName, find?_of_mem hnodup h]

/-- No two errors share a value. -/
theorem nodup_error_values : (httpErrors.map (·.2.2)).Nodup := by decide +kernel

/-- The reason phrase of every error of the table is the one beside its value. -/
theorem getHttpErrorName_of_mem {e : Error} {name : Bytes} {value : ℤ}
    (h : (e, name, value) ∈ httpErrors) : getHttpErrorName value = name := by
  refine getName_of_mem ?_ (List.mem_map_of_mem (f := fun e => (e.2.2, e.2.1)) h)
  rw [List.map_map]
  exact nodup_error_values

/-- Every method is found again under its own name. -/
theorem getHttpMethodByName_name (m : Method) :
    getHttpMethodByName (getHttpMethodName m) = m := by
  cases m <;> decide

/-- Every version is found again under its own name. -/
theorem getHttpVersionByName_name (v : Version) :
    getHttpVersionByName (getHttpVersionName v) = v := by
  cases v <;> decide

end Lhs.Http
