import HydrogenWeb.HttpFormBody
import HydrogenWeb.HttpHeaderSection
import HydrogenWeb.HttpResponseWire

set_option autoImplicit false

/-!
# The Connection header

The server writes `close` and `keep-alive` under Connection, and reads the field back to
decide whether a connection stays open. `reply` is what it does for a decision; the decision
of the protocol is taken from the text of the request.
-/
namespace HydrogenWeb
open ListSearch ByteBuffer HttpContext HttpRequest MapUpdates

namespace HttpResponse

def closingWire (r : HttpResponse) : List UInt8 :=
  r.statusLine ++ CRLF ++ fieldLines ((connectionName, bytes "close") :: r.headers.toList) ++ CRLF ++
    r.body

theorem appendToBuffer_closing {r : HttpResponse} (h : r.closeConnection = true)
    (out : List UInt8) : r.appendToBuffer out = out ++ r.closingWire := by
  have hclose : bytes "Connection: close\r\n" =
      fieldLine (connectionName, bytes "close") ++ CRLF := by decide
  rw [appendToBuffer, h, if_pos rfl, r.snprintf32_status, hclose, closingWire, statusLine, fieldLines]
  simp [fieldLine]

/-- The buffer of 32 bytes has room for thirteen digits. -/
theorem length_line_fits_iff (n : ℕ) :
    (bytes ("Content-Length: " ++ toString n ++ "\r\n")).length ≤ 31 ↔ n < 10 ^ 13 := by
  have hdigits : (bytes (toString n)).length = (Nat.toDigits 10 n).length := by
    rw [bytes_toString, List.length_map]
  have hname : (bytes "Content-Length: ").length = 16 := by decide
  have hend : (bytes "\r\n").length = 2 := by decide
  rw [← Nat.length_toDigits_le_iff (by decide) (by decide), bytes_append, bytes_append,
    List.length_append, List.length_append, hdigits, hname, hend]
  omega

theorem appendToBuffer_eq_wire_iff {r : HttpResponse} (h : r.closeConnection = false) :
    r.appendToBuffer [] = r.wire ↔ r.body.length < 10 ^ 13 := by
  rw [appendToBuffer_persistent h, wire_eq, List.nil_append, List.append_cancel_left_eq,
    List.append_cancel_right_eq, snprintf32, List.take_eq_self_iff, length_line_fits_iff]

end HttpResponse

namespace HttpServer

/-- The decision that `processRequest` takes before it makes the response. -/
def closeFlag (request : HttpRequest) : Bool :=
  decide (request.getHeader (bytes "Connection") = bytes "closed" ∨
    (request.version = .HTTP10 ∧ request.getHeader (bytes "Connection") ≠ bytes "keep-alive"))

/-- The last response with `Connection: close` and the shutdown, or a response with its length
and `Connection: keep-alive`. -/
def reply (callback : HttpCallback) (close : Bool) (request : HttpRequest) : List Call :=
  let response := callback request (HttpResponse.create close)
  .httpCallback request ::
    if close then [.send response.closingWire, .shutdown] else [.send response.wire]

def KeepsClose (callback : HttpCallback) : Prop :=
  ∀ request response, (callback request response).closeConnection = response.closeConnection

/-- What `processRequest` does, with the decision before the response. -/
theorem processRequest_of_flag {callback : HttpCallback} (h : KeepsClose callback)
    {request : HttpRequest} {close : Bool} (hclose : closeFlag request = close) :
    processRequest callback request = .httpCallback request ::
      .send ((callback request (HttpResponse.create close)).appendToBuffer []) ::
        if close then [.shutdown] else [] := by
  have hresponse := h request (HttpResponse.create close)
  change [Call.httpCallback request, Call.send ((callback request
      (HttpResponse.create (closeFlag request))).appendToBuffer [])] ++
    (if (callback request (HttpResponse.create (closeFlag request))).closeConnection then
      [Call.shutdown] else []) = _
  rw [hclose, hresponse]
  rfl

theorem processRequest_of_close {callback : HttpCallback} (h : KeepsClose callback)
    {request : HttpRequest} (hclose : closeFlag request = true) :
    processRequest callback request = reply callback true request := by
  have hresponse := h request (HttpResponse.create true)
  rw [processRequest_of_flag h hclose, HttpResponse.appendToBuffer_closing hresponse]
  rfl

theorem processRequest_of_keep {callback : HttpCallback} (h : KeepsClose callback)
    {request : HttpRequest} (hclose : closeFlag request = false) :
    processRequest callback request = [.httpCallback request,
      .send ((callback request (HttpResponse.create false)).appendToBuffer [])] :=
  processRequest_of_flag h hclose

/-- The number of calls shows which decision was taken. -/
theorem processRequest_eq_reply_iff {callback : HttpCallback} (h : KeepsClose callback)
    (request : HttpRequest) (close : Bool) :
    processRequest callback request = reply callback close request ↔ closeFlag request = close ∧
      (close = false → (callback request (HttpResponse.create false)).body.length < 10 ^ 13) := by
  have hresponse := h request (HttpResponse.create false)
  cases hflag : closeFlag request with
  | true =>
    rw [processRequest_of_close h hflag]
    cases close with
    | true => simp
    | false => simp [reply]
  | false =>
    rw [processRequest_of_keep h hflag]
    cases close with
    | true => simp [reply]
    | false =>
      simp only [reply, Bool.false_eq_true, if_false, List.cons.injEq, true_and, and_true,
        Call.send.injEq, forall_const]
      exact HttpResponse.appendToBuffer_eq_wire_iff hresponse

end HttpServer

section Wire

def RequestHead.value (head : RequestHead) (name : List UInt8) : Option (List UInt8) :=
  last (head.fields.map fun f => (f.name, trimmed f.rest)) name

def RequestHead.closes (head : RequestHead) : Bool :=
  decide (head.version = .HTTP11 ∧ head.value connectionName = some (bytes "close") ∨
    head.version = .HTTP10 ∧ head.value connectionName ≠ some (bytes "keep-alive"))

/-- A GET request with anything behind it, or a POST request with its form. -/
inductive Arrives (unread : List UInt8) : RequestHead → List FormPair → Prop
  | get {head : RequestHead} (hget : head.method = .GET) (tail : List UInt8)
      (text : unread = head.text ++ tail) : Arrives unread head []
  | post {head : RequestHead} (hpost : head.method = .POST) (p : FormPair) (pairs : List FormPair)
      (text : unread = head.text ++ formText p pairs) : Arrives unread head (p :: pairs)

/-- What the parser has under Connection: a parameter of the body goes before the header. -/
def storedConnection (head : RequestHead) (pairs : List FormPair) : Option (List UInt8) :=
  (last (pairs.map FormPair.entry) connectionName).or (head.value connectionName)

def TokensAgree (head : RequestHead) (pairs : List FormPair) : Prop :=
  (head.version = .HTTP11 → (storedConnection head pairs = some (bytes "closed") ↔
    head.value connectionName = some (bytes "close"))) ∧
  (head.version = .HTTP10 → (storedConnection head pairs = some (bytes "keep-alive") ↔
    head.value connectionName = some (bytes "keep-alive")))

theorem fieldValue_eq_iff {value : List UInt8} (hne : value ≠ []) (hcr : value ≠ [CR])
    (rest : List UInt8) : fieldValue rest = value ↔ trimmed rest = value := by
  by_cases h : ∃ x ∈ rest, isspace x = false
  · rw [fieldValue_of_visible h]
  · have hblank : ∀ x ∈ rest, isspace x = true := by
      intro x hx
      by_contra hvisible
      exact h ⟨x, hx, by simpa using hvisible⟩
    have htrimmed : trimmed rest = [] := by
      rw [trimmed, List.dropWhile_eq_nil_iff.2 hblank]
      rfl
    rw [fieldValue_of_blank hblank, htrimmed]
    exact iff_of_false hcr.symm hne.symm

theorem map_fieldValue_eq_iff {value : List UInt8} (hne : value ≠ []) (hcr : value ≠ [CR])
    (rest : Option (List UInt8)) :
    rest.map fieldValue = some value ↔ rest.map trimmed = some value := by
  cases rest with
  | none => simp
  | some rest => simpa using fieldValue_eq_iff hne hcr rest

variable {β : Type} [ByteBuffer β] {t : ℤ} {c c' : HttpContext} {b b' : β} {o : Outcome}
  {head : RequestHead} {pairs : List FormPair}

/-- The accepted request: its version, and what its map holds. -/
theorem request_of_arrives (hs : c.state = .EXPECTREQUESTLINE) (hc : c.request.headers = ∅)
    (hp : Arrives (payload b) head pairs) (hrun : parseRequest t c b = some (o, c', b'))
    (hok : c'.state = .ALLOK) :
    c'.request.version = head.version ∧ ∀ name, c'.request.headers[name]? =
      (last (pairs.map FormPair.entry) name).or (last (head.fields.map HeaderField.entry) name) := by
  have hversion : (head.request t c.request).version = head.version := by
    rw [RequestHead.request, RequestHead.addFields_eq]
    rfl
  cases hp with
  | get hget tail text =>
    have hlive : c.state ≠ .ALLOK := by simp [hs]
    have hget := head.parses_get (t := t) hget hs text
    obtain ⟨-, rfl, -⟩ := ((parseRequest_iff hlive).1 hrun).unique hget
    refine ⟨hversion, fun name => ?_⟩
    rw [head_request_headers head t hc]
    rfl
  | post hpost p pairs text =>
    refine ⟨?_, headers_of_post head hpost p pairs hs hc text hrun hok⟩
    rw [context_of_post head hpost p pairs hs text hrun hok]
    exact hversion

theorem getHeader_eq_iff_stored (value : List UInt8) (hne : value ≠ []) (hcr : value ≠ [CR])
    {request : HttpRequest}
    (hmap : ∀ name, request.headers[name]? =
      (last (pairs.map FormPair.entry) name).or (last (head.fields.map HeaderField.entry) name)) :
    request.getHeader (bytes "Connection") = value ↔ storedConnection head pairs = some value := by
  have hfields : last (head.fields.map HeaderField.entry) connectionName =
      (last (head.fields.map fun f => (f.name, f.rest)) connectionName).map fieldValue := by
    rw [← last_map, List.map_map]
    rfl
  have hvalue : head.value connectionName =
      (last (head.fields.map fun f => (f.name, f.rest)) connectionName).map trimmed := by
    rw [← last_map, List.map_map]
    rfl
  rw [getHeader, hmap]
  change ((last (pairs.map FormPair.entry) connectionName).or
    (last (head.fields.map HeaderField.entry) connectionName)).getD [] = value ↔ _
  rw [storedConnection, hfields, hvalue]
  cases last (pairs.map FormPair.entry) connectionName with
  | some v => simp
  | none =>
    rw [Option.none_or, Option.none_or, ← map_fieldValue_eq_iff hne hcr, Option.getD_eq_iff]
    simp [hne.symm]

theorem closeFlag_eq_closes_iff {request : HttpRequest} (hversion : request.version = head.version)
    (hmap : ∀ name, request.headers[name]? =
      (last (pairs.map FormPair.entry) name).or (last (head.fields.map HeaderField.entry) name)) :
    HttpServer.closeFlag request = head.closes ↔ TokensAgree head pairs := by
  have hclosed := getHeader_eq_iff_stored (bytes "closed") (by decide) (by decide) hmap
  have hkeep := getHeader_eq_iff_stored (bytes "keep-alive") (by decide) (by decide) hmap
  have hdistinct : storedConnection head pairs = some (bytes "closed") →
      storedConnection head pairs ≠ some (bytes "keep-alive") := by
    intro h
    rw [h]
    decide
  rw [HttpServer.closeFlag, RequestHead.closes, decide_eq_decide, hversion, hclosed, ne_eq, hkeep,
    TokensAgree]
  cases hv : head.version with
  | UNKNOWN => exact absurd hv head.supported
  | HTTP10 =>
    simp only [true_and, reduceCtorEq, false_and, false_or, forall_true_left, IsEmpty.forall_iff]
    rw [or_iff_right_of_imp hdistinct, not_iff_not]
  | HTTP11 => simp

/-- For every accepted request the answer follows the Connection header exactly where the
stored token and the header agree, and the length line of an open connection fits. -/
theorem answer_follows_connection_iff (hs : c.state = .EXPECTREQUESTLINE)
    (hc : c.request.headers = ∅) (hp : Arrives (payload b) head pairs)
    (hrun : parseRequest t c b = some (o, c', b')) (hok : c'.state = .ALLOK)
    (callback : HttpServer.HttpCallback) (hkeep : HttpServer.KeepsClose callback) :
    HttpServer.processRequest callback c'.request =
        HttpServer.reply callback head.closes c'.request ↔
      TokensAgree head pairs ∧ (head.closes = false →
        (callback c'.request (HttpResponse.create false)).body.length < 10 ^ 13) := by
  obtain ⟨hversion, hmap⟩ := request_of_arrives hs hc hp hrun hok
  rw [HttpServer.processRequest_eq_reply_iff hkeep, closeFlag_eq_closes_iff hversion hmap]

def userPair : FormPair := ⟨bytes "user", bytes "hydrogenWeb1", by decide, by decide⟩

def okCallback : HttpServer.HttpCallback := fun _ response => { response with statusCode := .OK200 }

theorem okCallback_keepsClose : HttpServer.KeepsClose okCallback := fun _ _ => rfl

/-- A form behind `Connection: keep-alive`. -/
theorem answer_follows_keep_alive : ∃ (o : Outcome) (c' : HttpContext) (b' : List UInt8),
    parseRequest 0 HttpContext.fresh ((postOf [keepAlive, ownLength]).text ++ formText userPair []) =
      some (o, c', b') ∧
    HttpServer.processRequest okCallback c'.request =
      HttpServer.reply okCallback (postOf [keepAlive, ownLength]).closes c'.request := by
  have hend : (parseRequest 0 HttpContext.fresh
      ((postOf [keepAlive, ownLength]).text ++ formText userPair [])).map (fun r => r.2.1.state) =
        some .ALLOK := by
    decide +kernel
  obtain ⟨⟨o, c', b'⟩, hrun, hok⟩ := Option.map_eq_some_iff.1 hend
  have hagree : TokensAgree (postOf [keepAlive, ownLength]) [userPair] := by
    unfold TokensAgree
    decide +kernel
  refine ⟨o, c', b', hrun, (answer_follows_connection_iff rfl rfl (.post rfl userPair [] rfl)
    hrun hok okCallback okCallback_keepsClose).2 ⟨hagree, fun _ => ?_⟩⟩
  change 0 < 10 ^ 13
  decide

def closingGet : RequestHead :=
  { rootGet with fields := [⟨bytes "Connection", bytes " close", connection_free, by decide⟩] }

/-- The token that is written is `close`, and the one that is looked for is `closed`. -/
theorem close_request_kept_open : ∃ (o : Outcome) (c' : HttpContext) (b' : List UInt8),
    Arrives closingGet.text closingGet [] ∧
    parseRequest 0 HttpContext.fresh closingGet.text = some (o, c', b') ∧ c'.state = .ALLOK ∧
    HttpServer.processRequest okCallback c'.request ≠
      HttpServer.reply okCallback closingGet.closes c'.request := by
  have hend : (parseRequest 0 HttpContext.fresh closingGet.text).map (fun r =>
      (r.2.1.state, HttpServer.closeFlag r.2.1.request)) = some (.ALLOK, false) := by
    decide +kernel
  obtain ⟨⟨o, c', b'⟩, hrun, hpair⟩ := Option.map_eq_some_iff.1 hend
  rw [Prod.mk.injEq] at hpair
  have htext : closingGet.text = closingGet.text ++ [] := (List.append_nil _).symm
  have hcloses : closingGet.closes = true := by decide +kernel
  refine ⟨o, c', b', .get rfl [] htext, hrun, hpair.1, fun heq => ?_⟩
  have hflag := ((HttpServer.processRequest_eq_reply_iff okCallback_keepsClose _ _).1 heq).1
  rw [hpair.2, hcloses] at hflag
  cases hflag

end Wire
end HydrogenWeb
