import HydrogenWeb.HyBuffer

set_option autoImplicit false

/-!
# HttpRequest

A string is the list of its bytes. `std::map<string, string>` is a tree map under the
lexicographic order. The setters are those of a build without assertions.
-/
namespace HydrogenWeb

abbrev StringMap : Type := Std.ExtTreeMap (List UInt8) (List UInt8) compare

def byte (c : Char) : UInt8 := c.toUInt8

/-- `isspace` in the "C" locale. -/
def isspace (c : UInt8) : Bool := c = 32 || (9 ≤ c && c ≤ 13)

namespace HttpRequest

inductive Method where
  | INVALID
  | GET
  | POST
deriving DecidableEq

inductive Version where
  | UNKNOWN
  | HTTP10
  | HTTP11
deriving DecidableEq

end HttpRequest

structure HttpRequest where
  method : HttpRequest.Method
  version : HttpRequest.Version
  path : List UInt8
  query : List UInt8
  receiveTime : ℤ
  headers : StringMap
  bodys : StringMap

namespace HttpRequest

def empty : HttpRequest := ⟨.INVALID, .UNKNOWN, [], [], 0, ∅, ∅⟩

def setMethod (r : HttpRequest) (m : List UInt8) : Bool × HttpRequest :=
  let method : Method :=
    if m = bytes "GET" then .GET else if m = bytes "POST" then .POST else .INVALID
  (method ≠ .INVALID, { r with method })

def methodString : Method → List UInt8
  | .GET => bytes "GET"
  | .POST => bytes "POST"
  | .INVALID => bytes "UNKNOWN"

def setVersion (r : HttpRequest) (version : Version) : HttpRequest := { r with version }
def setPath (r : HttpRequest) (path : List UInt8) : HttpRequest := { r with path }
def setQuery (r : HttpRequest) (query : List UInt8) : HttpRequest := { r with query }
def setReceiveTime (r : HttpRequest) (t : ℤ) : HttpRequest := { r with receiveTime := t }

/-- `while (colon < end && isspace(*colon)) ++colon;` on the bytes from `colon` up to and
with `end`; the loop that moves `end` back is the same from the other side. -/
def trimFront : List UInt8 → List UInt8
  | c :: d :: l => if isspace c then trimFront (d :: l) else c :: d :: l
  | l => l

def trimBack (l : List UInt8) : List UInt8 := (trimFront l.reverse).reverse

/-- `data` are the bytes from `begin` on; the value also takes the byte at `end`. -/
def addHeader (r : HttpRequest) (data : List UInt8) (colon last : ℕ) : HttpRequest :=
  let name := data.take colon
  let value := trimBack (trimFront ((data.take (last + 1)).drop (colon + 1)))
  { r with headers := r.headers.insert name value }

def getHeader (r : HttpRequest) (name : List UInt8) : List UInt8 := (r.headers[name]?).getD []

def addBody (r : HttpRequest) (data : List UInt8) (assignment last : ℕ) : HttpRequest :=
  let name := data.take assignment
  let value := (data.take last).drop (assignment + 1)
  { r with headers := r.headers.insert name value }

def getBody (r : HttpRequest) (name : List UInt8) : List UInt8 := (r.headers[name]?).getD []

/-- The part of `swap` that `r` gets from `other`. -/
def swap (r other : HttpRequest) : HttpRequest :=
  ⟨other.method, other.version, other.path, other.query, other.receiveTime, other.headers, r.bodys⟩

end HttpRequest

inductive StoiException where
  | invalid_argument
  | out_of_range
deriving DecidableEq

def isdigit (c : UInt8) : Bool := byte '0' ≤ c && c ≤ byte '9'

def decimal (digits : List UInt8) : ℕ :=
  digits.foldl (fun n c => 10 * n + (c.toNat - (byte '0').toNat)) 0

/-- `std::stoi` in base ten: leading white space, a sign, digits; what follows is ignored. -/
def stoi (s : List UInt8) : Except StoiException ℤ :=
  let s := s.dropWhile isspace
  let (sign, s) : ℤ × List UInt8 :=
    match s with
    | [] => (1, [])
    | c :: rest =>
      if c = byte '-' then (-1, rest) else if c = byte '+' then (1, rest) else (1, s)
  let digits := s.takeWhile isdigit
  if digits = [] then .error .invalid_argument
  else
    let value := sign * decimal digits
    if -2 ^ 31 ≤ value ∧ value < 2 ^ 31 then .ok value else .error .out_of_range

end HydrogenWeb
