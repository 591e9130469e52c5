import LhsServer.Protocol.Http.Middleware

/-!
# Routing

`lhs::middleware::urlmap`: a table of locations, tried in order against the uri of a request. The
constructor enters the locations one by one and sorts the table by length after each. `std::sort`
does not say in which order it leaves locations of one length, so it is a parameter of `remap`.

The table holds pointers to middlewares. Their type `App` is a parameter: building and searching a
table only hands them on, and `urlmap` uses it at the middlewares themselves.
-/

namespace Lhs.Middleware

open Bytes Http

/-- `lhs::middleware::mapping`, whose field `match` is called `pattern` here; an `app` that is
`none` is a null pointer. -/
structure Mapping (App : Type) where
  host : Bytes
  location : Bytes
  pattern : Bytes
  app : Option App

namespace Urlmap

variable {App : Type}

/-- `sortmapping`: the longer location comes first. -/
def sortmapping (a b : Mapping App) : Bool := b.location.length < a.location.length

variable (mgz : Mgz)

/-- The mapping `remap` makes of one entry of its argument. -/
def mappingOf (key : Bytes) (app : Option App) : Mapping App :=
  let (host, location) :=
    match mgz.find (str "https?://(.*)(/.*)") key with
    -- the groups of the match: host and location
    | some re => (re.getD 0 [], re.getD 1 [])
    | none => ([], key)
  { host, location, app
    pattern :=
      str "^" ++ mgz.replaceAll (mgz.quote location) (str "/") (str "/+") ++ str "(.*)" }

/-- `remap`, on a `std::map` given by its entries in the order of their keys. -/
def remap (sort : List (Mapping App) → List (Mapping App)) (maps : List (Bytes × Option App)) :
    List (Mapping App) :=
  maps.foldl (fun mapping it => sort (mapping ++ [mappingOf mgz it.1 it.2])) []

/-- `find_app`: the app of the first mapping whose pattern is found in the uri. -/
def findApp (mapping : List (Mapping App)) (req : Request) : Option App :=
  match mapping.find? fun m => (mgz.find m.pattern req.uri).isSome with
  | some m => m.app
  | none => none

/-- `urlmap::get_response`. -/
def getResponse (mapping : List (Mapping Http.Middleware)) (env : Env) : OS Response :=
  match findApp mgz mapping env.request with
  | some app => app env
  | none => pure env.response

end Urlmap

/-- `urlmap::call`, on the table `mapping_`. -/
def urlmap (mgz : Mgz) (mapping : List (Mapping Http.Middleware)) : Http.Middleware := fun env =>
  Urlmap.getResponse mgz mapping env

end Lhs.Middleware
