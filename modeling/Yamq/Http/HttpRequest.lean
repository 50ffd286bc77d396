import Yamq.Machine
import Yamq.Lib.SortedMap

/-! `rpc/http/http_request.h`. -/
namespace Yamq

inductive Method where
  | kInvalid | kGet | kPost | kHead | kPut | kDelete
deriving DecidableEq, Repr

inductive Version where
  | kUnknown | kHttp10 | kHttp11
deriving DecidableEq, Repr

structure HttpRequest where
  method : Method := .kInvalid
  version : Version := .kUnknown
  path : Bytes := []
  query : Bytes := []
  headers : List (Bytes × Bytes) := []
deriving DecidableEq, Repr

/-- `isspace` in the C locale. -/
def isspace (c : Byte) : Bool := (9 ≤ c && c ≤ 13) || c == 32

namespace HttpRequest

def setVersion (r : HttpRequest) (v : Version) : HttpRequest := { r with version := v }

def methodOf (m : Bytes) : Method :=
  if m = ascii "GET" then .kGet
  else if m = ascii "POST" then .kPost
  else if m = ascii "HEAD" then .kHead
  else if m = ascii "PUT" then .kPut
  else if m = ascii "DELETE" then .kDelete
  else .kInvalid

def methodString (r : HttpRequest) : Bytes :=
  match r.method with
  | .kGet => ascii "GET"
  | .kPost => ascii "POST"
  | .kHead => ascii "HEAD"
  | .kPut => ascii "PUT"
  | .kDelete => ascii "DELETE"
  | .kInvalid => ascii "UNKNOWN"

def setMethod (r : HttpRequest) (m : Bytes) : Except Fault (Bool × HttpRequest) :=
  if r.method = .kInvalid then
    .ok (methodOf m != .kInvalid, { r with method := methodOf m })
  else .error .assertion

def setPath (r : HttpRequest) (path : Bytes) : HttpRequest := { r with path := path }
def setQuery (r : HttpRequest) (query : Bytes) : HttpRequest := { r with query := query }

/-- `addHeader`, given the bytes before and behind the colon. -/
def addHeader (r : HttpRequest) (field behind : Bytes) : HttpRequest :=
  let value := ((behind.dropWhile isspace).reverse.dropWhile isspace).reverse
  { r with headers := SortedMap.insert field value r.headers }

end HttpRequest
end Yamq
