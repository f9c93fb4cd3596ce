import HydrogenWeb.HttpParsing
import HydrogenWeb.MapUpdates

set_option autoImplicit false

/-!
# What the parser accepts

`Completes` describes, without the parser, the unread bytes that bring a connection to
the end of a request. Of the context it only needs the state, the method and the value
stored under Content-Length.
-/
namespace HydrogenWeb
open MapUpdates

structure FormPair where
  name : List UInt8
  value : List UInt8
  name_free : byte '=' ∉ name ∧ byte '&' ∉ name
  value_free : byte '&' ∉ value

def FormPair.text (p : FormPair) : List UInt8 := p.name ++ byte '=' :: p.value

/-- `n1=v1&n2=v2&...` -/
def formText : FormPair → List FormPair → List UInt8
  | p, [] => p.text
  | p, q :: pairs => p.text ++ byte '&' :: formText q pairs

def FormPair.entry (p : FormPair) : List UInt8 × List UInt8 := (p.name, p.value)

def withEntries (r : HttpRequest) (entries : List (List UInt8 × List UInt8)) : HttpRequest :=
  { r with headers := updates r.headers entries }

namespace HttpContext
open ListSearch ByteBuffer HttpRequest

def versionString : Version → List UInt8
  | .HTTP10 => bytes "HTTP/1.0"
  | .HTTP11 => bytes "HTTP/1.1"
  | .UNKNOWN => []

structure RequestLine (line : List UInt8) (m : Method) (target : List UInt8) (v : Version) :
    Prop where
  known : m ≠ .INVALID
  supported : v ≠ .UNKNOWN
  target_free : byte ' ' ∉ target
  text : line = methodString m ++ byte ' ' :: (target ++ byte ' ' :: versionString v)

theorem setMethod_methodString (r : HttpRequest) {m : Method} (h : m ≠ .INVALID) :
    r.setMethod (methodString m) = (true, { r with method := m }) := by
  cases m with
  | INVALID => exact absurd rfl h
  | GET => rfl
  | POST => rfl

theorem setMethod_known {r : HttpRequest} {m : List UInt8} (h : (r.setMethod m).1 = true) :
    ∃ k : Method, k ≠ .INVALID ∧ m = methodString k := by
  by_cases hget : m = bytes "GET"
  · exact ⟨.GET, by simp, hget⟩
  · by_cases hpost : m = bytes "POST"
    · exact ⟨.POST, by simp, hpost⟩
    · simp [setMethod, hget, hpost] at h

theorem parseRequestLine_of (r : HttpRequest) {line target : List UInt8} {m : Method} {v : Version}
    (h : RequestLine line m target v) :
    parseRequestLine r line =
      (true, (setTarget { r with method := m } target).setVersion v) := by
  have hmethod : byte ' ' ∉ methodString m := by
    cases m <;> decide
  rw [h.text, parseRequestLine, find_append_cons hmethod]
  simp only [List.take_left, setMethod_methodString r h.known, if_true, drop_past,
    find_append_cons h.target_free]
  cases v with
  | UNKNOWN => exact absurd rfl h.supported
  | HTTP10 => rfl
  | HTTP11 => rfl

theorem requestLine_of_parse {r : HttpRequest} {line : List UInt8}
    (h : (parseRequestLine r line).1 = true) : ∃ m target v, RequestLine line m target v := by
  rw [parseRequestLine] at h
  cases hfind : find (byte ' ') line with
  | none =>
    rw [hfind] at h
    cases h
  | some space =>
    obtain ⟨method, rest, rfl, -, rfl⟩ := find_eq_some hfind
    rw [hfind] at h
    simp only [List.take_left, drop_past] at h
    split at h
    · rename_i hknown
      obtain ⟨m, hm, rfl⟩ := setMethod_known hknown
      cases hfind₂ : find (byte ' ') rest with
      | none =>
        rw [hfind₂] at h
        cases h
      | some space₂ =>
        obtain ⟨target, version, rfl, htarget, rfl⟩ := find_eq_some hfind₂
        rw [hfind₂] at h
        simp only [List.take_left, drop_past] at h
        split at h
        · rename_i hversion
          have hsplit : ∀ c, version.getLast? = some c → version = bytes "HTTP/1." ++ [c] := by
            intro c hc
            have hdrop : version.drop 7 = [c] := by
              rw [List.getLast?_eq_getElem?, hversion.1] at hc
              rw [List.drop_eq_getElem_cons (by omega), List.drop_eq_nil_of_le (by omega)]
              exact congrArg (fun x => [x]) (List.getElem_eq_iff _ |>.2 hc)
            rw [← hversion.2, ← hdrop, List.take_append_drop]
          split at h
          · rename_i hlast
            exact ⟨m, target, .HTTP11, hm, by simp, htarget, by rw [hsplit _ hlast]; rfl⟩
          · split at h
            · rename_i hlast
              exact ⟨m, target, .HTTP10, hm, by simp, htarget, by rw [hsplit _ hlast]; rfl⟩
            · cases h
        · cases h
    · cases h

/-- `n1=v1&n2=v2&...`, one pair or more. -/
inductive FormBody : List UInt8 → Prop
  | last {name value : List UInt8} (hassign : byte '=' ∉ name) (hand : byte '&' ∉ name)
      (hvalue : byte '&' ∉ value) : FormBody (name ++ byte '=' :: value)
  | pair {name value rest : List UInt8} (hassign : byte '=' ∉ name) (hand : byte '&' ∉ name)
      (hvalue : byte '&' ∉ value) (hrest : FormBody rest) :
      FormBody (name ++ byte '=' :: value ++ byte '&' :: rest)

/-- In state `s` of a request with method `m` and the value `length` under
Content-Length, the bytes contain the rest of the request. -/
inductive Completes : HttpRequestState → Method → List UInt8 → List UInt8 → Prop
  | requestLine {m k : Method} {length line target rest : List UInt8} {v : Version}
      (hno : NoPair CR LF line) (hline : RequestLine line k target v)
      (hrest : Completes .EXPECTHEADERS k length rest) :
      Completes .EXPECTREQUESTLINE m length (line ++ CR :: LF :: rest)
  | field {m : Method} {length name value rest : List UInt8}
      (hno : NoPair CR LF (name ++ byte ':' :: value)) (hname : byte ':' ∉ name)
      (hrest : Completes .EXPECTHEADERS m
        (if name = bytes "Content-Length" then fieldValue value else length) rest) :
      Completes .EXPECTHEADERS m length (name ++ byte ':' :: value ++ CR :: LF :: rest)
  | endOfGet {length line rest : List UInt8} (hno : NoPair CR LF line)
      (hcolon : byte ':' ∉ line) :
      Completes .EXPECTHEADERS .GET length (line ++ CR :: LF :: rest)
  | endOfHead {m : Method} {length line rest : List UInt8} (hno : NoPair CR LF line)
      (hcolon : byte ':' ∉ line) (hm : m ≠ .GET) (hrest : Completes .EXPECTBODY m length rest) :
      Completes .EXPECTHEADERS m length (line ++ CR :: LF :: rest)
  | body {m : Method} {length rest : List UInt8}
      (hlength : stoi length = .ok (Int.bmod rest.length (2 ^ 32))) (hform : FormBody rest) :
      Completes .EXPECTBODY m length rest

variable {β : Type} [ByteBuffer β] {t : ℤ} {l : Loop} {c c' : HttpContext} {b b' : β} {o : Outcome}

theorem getHeader_withHeader (r : HttpRequest) (name value key : List UInt8) :
    (withHeader r name value).getHeader key = if name = key then value else r.getHeader key := by
  simp only [withHeader, getHeader, Std.ExtTreeMap.getElem?_insert,
    Std.LawfulEqCmp.compare_eq_iff_eq]
  split <;> rfl

@[simp] theorem setTarget_method (r : HttpRequest) (target : List UInt8) :
    (setTarget r target).method = r.method := by
  unfold setTarget
  split <;> rfl

@[simp] theorem setTarget_headers (r : HttpRequest) (target : List UInt8) :
    (setTarget r target).headers = r.headers := by
  unfold setTarget
  split <;> rfl

@[simp] theorem setTarget_bodys (r : HttpRequest) (target : List UInt8) :
    (setTarget r target).bodys = r.bodys := by
  unfold setTarget
  split <;> rfl

theorem requestLineTurn_of {line target rest : List UInt8} {m : Method} {v : Version}
    (hp : payload b = line ++ CR :: LF :: rest) (hno : NoPair CR LF line)
    (h : RequestLine line m target v) :
    requestLineTurn t c b = .again .outer
      ⟨.EXPECTHEADERS,
        ((setTarget { c.request with method := m } target).setVersion v).setReceiveTime t⟩
      (clear b (line.length + 2)) := by
  rw [requestLineTurn_of_line t c hp hno, parseRequestLine_of c.request h]
  rfl

def CompletesFrom (c : HttpContext) (unread : List UInt8) : Prop :=
  Completes c.state c.request.method (c.request.getHeader (bytes "Content-Length")) unread

theorem formBody_of_parses (h : Parses t l c b o c' b') (hl : l = .body) (hs : c.state ≠ .ALLOK)
    (hok : c'.state = .ALLOK) : FormBody (payload b) := by
  induction h with
  | @finish l c c' b b' o hturn =>
    subst hl
    have hcases := bodyTurn_of_turn hturn
    cases hcases with
    | fails => exact absurd hok hs
    | last hp h1 h2 h3 =>
      rw [hp]
      exact .last h1 h2 h3
  | @again l l₁ c c₁ c' b b₁ b' o hturn tail ih =>
    subst hl
    have hcases := bodyTurn_of_turn hturn
    cases hcases with
    | pair hp h1 h2 h3 =>
      have hrest := ih rfl hs hok
      rw [payload_clear, hp, drop_past] at hrest
      rw [hp]
      exact .pair h1 h2 h3 hrest

theorem formText_form (p : FormPair) (pairs : List FormPair) : FormBody (formText p pairs) := by
  induction pairs generalizing p with
  | nil => exact .last p.name_free.1 p.name_free.2 p.value_free
  | cons q pairs ih => exact .pair p.name_free.1 p.name_free.2 p.value_free (ih q)

theorem FormBody.exists_text {w : List UInt8} (h : FormBody w) : ∃ p pairs, w = formText p pairs := by
  induction h with
  | @last name value h1 h2 h3 => exact ⟨⟨name, value, ⟨h1, h2⟩, h3⟩, [], rfl⟩
  | @pair name value rest h1 h2 h3 _ ih =>
    obtain ⟨p, pairs, rfl⟩ := ih
    exact ⟨⟨name, value, ⟨h1, h2⟩, h3⟩, p :: pairs, rfl⟩

theorem parses_formText (p : FormPair) (pairs : List FormPair) (t : ℤ) (c : HttpContext) (b : β)
    (hp : payload b = formText p pairs) :
    Parses t .body c b (.returned true)
      ⟨.ALLOK, withEntries c.request ((p :: pairs).map FormPair.entry)⟩
      (clear b ((formText p pairs).length + 1)) := by
  induction pairs generalizing p c b with
  | nil =>
    refine .finish ?_
    rw [turn, bodyTurn_of_last c hp p.name_free.1 p.name_free.2 p.value_free, getEOL, hp]
    rfl
  | cons q pairs ih =>
    have hrest : payload (clear b (p.text.length + 1)) = formText q pairs := by
      rw [payload_clear, hp, formText, drop_past]
    have hlen : p.text.length + 1 + ((formText q pairs).length + 1) =
        (formText p (q :: pairs)).length + 1 := by
      simp only [formText, List.length_append, List.length_cons]
      omega
    have hrun := ih q { c with request := withHeader c.request p.name p.value } _ hrest
    rw [clear_clear, hlen] at hrun
    refine .again ?_ hrun
    rw [turn]
    exact bodyTurn_of_pair c hp p.name_free.1 p.name_free.2 p.value_free

theorem parses_of_formBody {w : List UInt8} (h : FormBody w) (t : ℤ) (c : HttpContext) (b : β)
    (hp : payload b = w) :
    ∃ c', Parses t .body c b (.returned true) c' (clear b (w.length + 1)) ∧
      c'.state = .ALLOK := by
  obtain ⟨p, pairs, rfl⟩ := h.exists_text
  exact ⟨_, parses_formText p pairs t c b hp, rfl⟩

theorem completes_of_parses (h : Parses t l c b o c' b') (hl : l = .outer)
    (hs : c.state ≠ .ALLOK) (hok : c'.state = .ALLOK) : CompletesFrom c (payload b) := by
  unfold CompletesFrom
  induction h with
  | @finish l c c' b b' o hturn =>
    subst hl
    have hcases := outerTurn_of_turn hs hturn
    cases hcases with
    | endOfGet hstate hp hno hcolon hget =>
      rw [hstate, hget, hp]
      exact .endOfGet hno hcolon
    | wait => exact absurd hok hs
    | badLine => exact absurd hok hs
    | threw => exact absurd hok hs
    | wrongLength => exact absurd hok hs
  | @again l l₁ c c₁ c' b b₁ b' o hturn tail ih =>
    subst hl
    have hcases := outerTurn_of_turn hs hturn
    cases hcases with
    | requestLine hstate hp hno hgood =>
      obtain ⟨m, target, v, hline⟩ := requestLine_of_parse hgood
      have hrest := ih rfl (by simp) hok
      rw [drop_line hp, parseRequestLine_of c.request hline] at hrest
      rw [hstate, hp]
      refine .requestLine hno hline ?_
      simpa [HttpRequest.setReceiveTime, HttpRequest.setVersion, getHeader] using hrest
    | field hstate hp hno hname =>
      have hrest := ih rfl (by simp [hstate]) hok
      rw [drop_line hp, getHeader_withHeader, hstate] at hrest
      rw [hstate, hp]
      exact .field hno hname hrest
    | endOfHead hstate hp hno hcolon hget =>
      have hrest := ih rfl (by simp) hok
      rw [drop_line hp] at hrest
      rw [hstate, hp]
      exact .endOfHead hno hcolon hget hrest
    | rightLength hstate hstoi hn =>
      have hform := formBody_of_parses tail rfl hs hok
      rw [hn] at hstoi
      rw [hstate]
      exact .body hstoi hform

theorem parses_of_completes {s : HttpRequestState} {m : Method} {length w : List UInt8}
    (h : Completes s m length w) (t : ℤ) (c : HttpContext) (b : β) (hs : c.state = s)
    (hm : c.request.method = m) (hlength : c.request.getHeader (bytes "Content-Length") = length)
    (hp : payload b = w) :
    ∃ c' b', Parses t .outer c b (.returned true) c' b' ∧ c'.state = .ALLOK := by
  induction h generalizing c b with
  | @requestLine m k length line target rest v hno hline _ ih =>
    obtain ⟨c', b', hrun, hok⟩ := ih
      ⟨.EXPECTHEADERS,
        ((setTarget { c.request with method := k } target).setVersion v).setReceiveTime t⟩
      (clear b (line.length + 2)) rfl (by simp [setReceiveTime, setVersion])
      (by simpa [setReceiveTime, setVersion, getHeader] using hlength) (drop_line hp)
    refine ⟨c', b', .again ?_ hrun, hok⟩
    rw [turn_requestLine t b hs]
    exact requestLineTurn_of hp hno hline
  | @field m length name value rest hno hname _ ih =>
    obtain ⟨c', b', hrun, hok⟩ := ih
      { c with request := withHeader c.request name (fieldValue value) }
      (clear b ((name ++ byte ':' :: value).length + 2)) hs hm
      (by rw [getHeader_withHeader, hlength]) (drop_line hp)
    refine ⟨c', b', .again ?_ hrun, hok⟩
    rw [turn_headers t b hs]
    exact headersTurn_of_field c hp hno hname
  | @endOfGet length line rest hno hcolon =>
    refine ⟨{ c with state := .ALLOK }, clear b (line.length + 2), .finish ?_, rfl⟩
    rw [turn_headers t b hs, headersTurn_of_end c hp hno hcolon, if_pos hm]
  | endOfHead hno hcolon hget _ ih =>
    obtain ⟨c', b', hrun, hok⟩ := ih { c with state := .EXPECTBODY } _ rfl hm hlength (drop_line hp)
    refine ⟨c', b', .again ?_ hrun, hok⟩
    rw [turn_headers t b hs, headersTurn_of_end c hp hno hcolon, if_neg (by rw [hm]; exact hget)]
  | body hstoi hform =>
    obtain ⟨c', hrun, hok⟩ := parses_of_formBody hform t c b hp
    refine ⟨c', _, .again ?_ hrun, hok⟩
    rw [← hlength, ← hp] at hstoi
    rw [turn_length t b hs, lengthTurn_of_ok b hstoi]
    exact if_neg (by simp [getEOL])

/-- The parser reaches ALLOK exactly where a request is complete. -/
theorem completes_iff (t : ℤ) {c : HttpContext} (b : β) (hs : c.state ≠ .ALLOK) :
    CompletesFrom c (payload b) ↔
      ∃ o c' b', Parses t .outer c b o c' b' ∧ c'.state = .ALLOK := by
  constructor
  · intro h
    obtain ⟨c', b', hrun, hok⟩ := parses_of_completes h t c b rfl rfl rfl rfl
    exact ⟨_, c', b', hrun, hok⟩
  · rintro ⟨o, c', b', hrun, hok⟩
    exact completes_of_parses hrun rfl hs hok

theorem returned_of_allOk (h : Parses t .outer c b o c' b') (hs : c.state ≠ .ALLOK)
    (hok : c'.state = .ALLOK) : o = .returned true := by
  have hcompletes := completes_of_parses h rfl hs hok
  obtain ⟨c₂, b₂, hrun, -⟩ := parses_of_completes hcompletes t c b rfl rfl rfl rfl
  exact (h.unique hrun).1

end HttpContext
end HydrogenWeb
