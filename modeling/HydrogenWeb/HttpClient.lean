import HydrogenWeb.HttpConnection
import HydrogenWeb.HttpConnectionHeader

set_option autoImplicit false

/-!
# What the client reads

A client reads a connection up to the end of the stream: responses with a length, and at most
one without, whose body is the rest. It gets the answers of the server up to the first one that
closes the connection, each one as the callback made it.
-/
namespace HydrogenWeb
open ListSearch ByteBuffer TransitionRuns

namespace HttpResponse

theorem statusLine_free {r : HttpResponse} (h : CR ∉ r.statusMsg) : CR ∉ r.statusLine := by
  have hversion : CR ∉ httpVersion := by decide
  have hnumber := not_mem_toString (c := CR) (by decide) r.statusCode.value
  simp only [statusLine, List.mem_append, List.mem_cons, not_or]
  exact ⟨⟨hversion, hnumber⟩, by decide, h⟩

end HttpResponse

namespace HttpServer

/-- An answer of `onMessage`: to a request that cannot be parsed, or the response that the
callback has made for one. -/
inductive Answer where
  | badRequest
  | response (request : HttpRequest) (r : HttpResponse)

namespace Answer

def calls : Answer → List Call
  | badRequest => HttpServer.badRequest
  | response request r => [.httpCallback request, .send (r.appendToBuffer [])] ++
      if r.nonPersistent then [.shutdown] else []

def closes : Answer → Bool
  | badRequest => true
  | response _ r => r.nonPersistent

def text : Answer → List UInt8
  | badRequest => badRequestText
  | response _ r => r.appendToBuffer []

def received : Answer → ReceivedResponse
  | badRequest => ⟨400, bytes "Bad Request", ∅, []⟩
  | response _ r => r.received

/-- The answers up to the first one that closes the connection. -/
def heard : List Answer → List Answer
  | [] => []
  | a :: as => if a.closes then [a] else a :: heard as

def Made (chunks : List Chunk) : Answer → Prop
  | badRequest => True
  | response request r => ∃ chunk ∈ chunks, r = chunk.callback request (HttpResponse.create (closeFlag request))

theorem Made.mono {chunks more : List Chunk} {a : Answer} (h : Made chunks a)
    (hsub : chunks ⊆ more) : Made more a := by
  cases a with
  | badRequest => trivial
  | response request r =>
    obtain ⟨chunk, hchunk, hr⟩ := h
    exact ⟨chunk, hsub hchunk, hr⟩

end Answer

end HttpServer
end HydrogenWeb
