import HydrogenWeb.HttpRequest
import HydrogenWeb.ListSearch

set_option autoImplicit false

/-!
# HttpContext

A pointer is its distance from `payload()`. The parser only looks at the unread bytes of
its buffer and clears some, so it is written for anything that can do both; an ideal
queue is the list of its unread bytes.
-/
namespace HydrogenWeb
open ListSearch

class ByteBuffer (β : Type) where
  payload : β → List UInt8
  clear : β → ℕ → β
  payload_clear : ∀ b k, payload (clear b k) = (payload b).drop k
  clear_zero : ∀ b, clear b 0 = b
  clear_clear : ∀ b j k, clear (clear b j) k = clear b (j + k)

instance : ByteBuffer (List UInt8) where
  payload b := b
  clear b k := b.drop k
  payload_clear _ _ := rfl
  clear_zero _ := rfl
  clear_clear _ _ _ := List.drop_drop

instance : ByteBuffer HyBuffer where
  payload b := b.unread
  clear b k := b.clear k
  payload_clear b k := by
    show (b.buffer.take b.writerIndex).drop (b.readerIndex + k) = _
    rw [HyBuffer.unread, List.drop_drop]
  clear_zero _ := rfl
  clear_clear b j k := by simp [HyBuffer.clear, Nat.add_assoc]

namespace ByteBuffer

attribute [simp] payload_clear clear_zero clear_clear

variable {β : Type} [ByteBuffer β]

def CR : UInt8 := 13
def LF : UInt8 := 10
def CRLF : List UInt8 := [CR, LF]

def getCRLF (b : β) : Option ℕ := findPair CR LF (payload b)
def getAND (b : β) : Option ℕ := find (byte '&') (payload b)
def getAssignment (b : β) : Option ℕ := find (byte '=') (payload b)
def getEOL (b : β) : ℕ := (payload b).length

end ByteBuffer
open ByteBuffer

namespace HttpContext

inductive HttpRequestState where
  | EXPECTREQUESTLINE
  | EXPECTHEADERS
  | EXPECTBODY
  | ALLOK
deriving DecidableEq

end HttpContext

structure HttpContext where
  state : HttpContext.HttpRequestState
  request : HttpRequest

namespace HttpContext

def fresh : HttpContext := ⟨.EXPECTREQUESTLINE, HttpRequest.empty⟩

theorem fresh_live : fresh.state ≠ .ALLOK := HttpRequestState.noConfusion

def allOk (c : HttpContext) : Bool := c.state = .ALLOK

def reset (c : HttpContext) : HttpContext :=
  ⟨.EXPECTREQUESTLINE, c.request.swap HttpRequest.empty⟩

def setTarget (r : HttpRequest) (target : List UInt8) : HttpRequest :=
  match find (byte '?') target with
  | some question => (r.setPath (target.take question)).setQuery (target.drop (question + 1))
  | none => r.setPath target

def parseRequestLine (r : HttpRequest) (line : List UInt8) : Bool × HttpRequest :=
  match find (byte ' ') line with
  | none => (false, r)
  | some space =>
    let (known, r) := r.setMethod (line.take space)
    if known then
      let rest := line.drop (space + 1)
      match find (byte ' ') rest with
      | none => (false, r)
      | some space =>
        let target := rest.take space
        let r := setTarget r target
        let version := rest.drop (space + 1)
        if version.length = 8 ∧ version.take 7 = bytes "HTTP/1." then
          if version.getLast? = some (byte '1') then (true, r.setVersion .HTTP11)
          else if version.getLast? = some (byte '0') then (true, r.setVersion .HTTP10)
          else (false, r)
        else (false, r)
    else (false, r)

/-- How `parseRequest` ends: with its return value, with an exception of `std::stoi`, or
with a string built over a range whose end is before its begin. -/
inductive Outcome where
  | returned (correct : Bool)
  | threw (e : StoiException)
  | badRange
deriving DecidableEq

/-- The loop whose condition is tested next: the one of `parseRequest` or the one over a body. -/
inductive Loop where
  | outer
  | body
deriving DecidableEq

inductive Turn (β : Type) where
  | again (l : Loop) (c : HttpContext) (b : β)
  | finished (o : Outcome) (c : HttpContext) (b : β)

variable {β : Type} [ByteBuffer β]

def requestLineTurn (t : ℤ) (c : HttpContext) (b : β) : Turn β :=
  match getCRLF b with
  | none => .finished (.returned true) c b
  | some crlf =>
    let (correct, request) := parseRequestLine c.request ((payload b).take crlf)
    if correct then
      .again .outer ⟨.EXPECTHEADERS, request.setReceiveTime t⟩ (clear b (crlf + 2))
    else .finished (.returned false) { c with request } b

def headersTurn (c : HttpContext) (b : β) : Turn β :=
  match getCRLF b with
  | none => .finished (.returned true) c b
  | some crlf =>
    match find (byte ':') ((payload b).take crlf) with
    | some colon =>
      .again .outer { c with request := c.request.addHeader (payload b) colon crlf }
        (clear b (crlf + 2))
    | none =>
      if c.request.method = .GET then
        .finished (.returned true) { c with state := .ALLOK } (clear b (crlf + 2))
      else .again .outer { c with state := .EXPECTBODY } (clear b (crlf + 2))

/-- The check before the loop over the body; both lengths are of type `int`. -/
def lengthTurn (c : HttpContext) (b : β) : Turn β :=
  match stoi (c.request.getHeader (bytes "Content-Length")) with
  | .error e => .finished (.threw e) c b
  | .ok contentLength =>
    let actualLength : ℤ := Int.bmod (getEOL b) (2 ^ 32)
    if contentLength ≠ actualLength then .finished (.returned false) c b
    else .again .body c b

def bodyTurn (c : HttpContext) (b : β) : Turn β :=
  match getAssignment b with
  | none => .finished (.returned false) c b
  | some assignment =>
    match getAND b with
    | some andOp =>
      if andOp < assignment + 1 then .finished .badRange c b
      else
        .again .body { c with request := c.request.addBody (payload b) assignment andOp }
          (clear b (andOp + 1))
    | none =>
      .finished (.returned true)
        ⟨.ALLOK, c.request.addBody (payload b) assignment (getEOL b)⟩ (clear b (getEOL b + 1))

def turn (t : ℤ) (l : Loop) (c : HttpContext) (b : β) : Turn β :=
  match l, c.state with
  | .body, _ => bodyTurn c b
  | .outer, .EXPECTREQUESTLINE => requestLineTurn t c b
  | .outer, .EXPECTHEADERS => headersTurn c b
  | .outer, .EXPECTBODY => lengthTurn c b
  -- no branch applies, and the loop goes on
  | .outer, .ALLOK => .again .outer c b

def turns (t : ℤ) : ℕ → Loop → HttpContext → β → Option (Outcome × HttpContext × β)
  | 0, _, _, _ => none
  | fuel + 1, l, c, b =>
    match turn t l c b with
    | .again l c b => turns t fuel l c b
    | .finished o c b => some (o, c, b)

/-- `none` where the loop does not end. -/
def parseRequest (t : ℤ) (c : HttpContext) (b : β) : Option (Outcome × HttpContext × β) :=
  turns t (getEOL b + 2) .outer c b

end HttpContext
end HydrogenWeb
