import HydrogenWeb.HttpContext

set_option autoImplicit false

/-!
# HttpServer

`onMessage` on one connection. What it calls on the connection, and its calls of the HTTP
callback, are listed in order. The response is written into an ideal queue.
-/
namespace HydrogenWeb
open ByteBuffer

namespace HttpResponse

/-- `unset` is the value-initialised code. -/
inductive HttpStatusCode where
  | unset
  | OK200
  | BADREQUEST400
  | NOTFOUND404
  | INTERNAL500
  | UNKNOWN
deriving DecidableEq

def HttpStatusCode.value : HttpStatusCode → ℕ
  | unset => 0
  | OK200 => 200
  | BADREQUEST400 => 400
  | NOTFOUND404 => 404
  | INTERNAL500 => 500
  | UNKNOWN => 501

end HttpResponse

structure HttpResponse where
  headers : StringMap
  statusCode : HttpResponse.HttpStatusCode
  statusMsg : List UInt8
  closeConnection : Bool
  body : List UInt8

namespace HttpResponse

def create (close : Bool) : HttpResponse := ⟨∅, .unset, [], close, []⟩

def nonPersistent (r : HttpResponse) : Bool := r.closeConnection

/-- `snprintf` into `char buf[32]`. -/
def snprintf32 (s : String) : List UInt8 := (bytes s).take 31

def appendToBuffer (r : HttpResponse) (outputBuffer : List UInt8) : List UInt8 :=
  outputBuffer ++ snprintf32 ("HTTP/1.1 " ++ toString r.statusCode.value ++ " ") ++ r.statusMsg ++
    CRLF ++
    (if r.closeConnection then bytes "Connection: close\r\n"
      else snprintf32 ("Content-Length: " ++ toString r.body.length ++ "\r\n") ++
        bytes "Connection: keep-alive\r\n") ++
    r.headers.toList.flatMap (fun header => header.1 ++ bytes ": " ++ header.2 ++ CRLF) ++
    CRLF ++ r.body

end HttpResponse

namespace HttpServer

inductive Call where
  | send (data : List UInt8)
  | shutdown
  | httpCallback (request : HttpRequest)

abbrev HttpCallback : Type := HttpRequest → HttpResponse → HttpResponse

def processRequest (callback : HttpCallback) (request : HttpRequest) : List Call :=
  let connection := request.getHeader (bytes "Connection")
  let close := connection = bytes "closed" ∨
    (request.version = .HTTP10 ∧ connection ≠ bytes "keep-alive")
  let response := callback request (HttpResponse.create (decide close))
  [.httpCallback request, .send (response.appendToBuffer [])] ++
    if response.nonPersistent then [.shutdown] else []

def badRequestText : List UInt8 := bytes "HTTP/1.1 400 Bad Request\r\n\r\n"

def badRequest : List Call := [.send badRequestText, .shutdown]

variable {β : Type} [ByteBuffer β]

/-- `none` where `parseRequest` does not return. -/
def onMessage (callback : HttpCallback) (context : HttpContext) (buffer : β) (receiveTime : ℤ) :
    Option (List Call × HttpContext × β) :=
  match context.parseRequest receiveTime buffer with
  | some (.returned correct, context, buffer) =>
    let rejected := if correct then [] else badRequest
    if context.allOk then
      some (rejected ++ processRequest callback context.request, context.reset, buffer)
    else some (rejected, context, buffer)
  | _ => none

structure Chunk where
  data : List UInt8
  receiveTime : ℤ
  callback : HttpCallback

structure Session (β : Type) where
  context : HttpContext
  inputBuffer : β
  calls : List Call

def Session.fresh (inputBuffer : β) : Session β := ⟨HttpContext.fresh, inputBuffer, []⟩

def Session.message (s : Session β) (inputBuffer : β) (chunk : Chunk) : Option (Session β) :=
  (onMessage chunk.callback s.context inputBuffer chunk.receiveTime).map fun (calls, context, b) =>
    ⟨context, b, s.calls ++ calls⟩

/-- A chunk arrives in an ideal queue. -/
def Session.receive (s : Session (List UInt8)) (chunk : Chunk) : Option (Session (List UInt8)) :=
  s.message (s.inputBuffer ++ chunk.data) chunk

end HttpServer
end HydrogenWeb
