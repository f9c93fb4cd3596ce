import HydrogenWeb.HttpConnectionHeader

set_option autoImplicit false

/-!
# The case of header names

Two byte strings that differ in the case of header names only, each delivered to a fresh
connection. The map of the header fields is keyed by the names as they were sent.
-/
namespace HydrogenWeb
open ListSearch ByteBuffer HttpContext HttpRequest MapUpdates

/-- A header line as the bytes have it; `rest` may hold a CR or an LF alone. -/
structure FieldLine where
  name : List UInt8
  rest : List UInt8
  name_free : byte ':' ∉ name
  line_free : NoPair CR LF (name ++ byte ':' :: rest)

def FieldLine.entry (f : FieldLine) : List UInt8 × List UInt8 := (f.name, fieldValue f.rest)

/-- `g` is the line `f`, its name perhaps in other letters. -/
def FieldLine.Recased (f g : FieldLine) : Prop :=
  f.name.map toLower = g.name.map toLower ∧ f.rest = g.rest

inductive HeadEnd : List UInt8 → Prop
  | unfinished {tail : List UInt8} (hnone : findPair CR LF tail = none) : HeadEnd tail
  | ended {line rest : List UInt8} (hno : NoPair CR LF line) (hcolon : byte ':' ∉ line) :
      HeadEnd (line ++ CR :: LF :: rest)

/-- The bytes of a request from its first line on, and all of its complete header lines. -/
structure RequestText where
  line : List UInt8
  fields : List FieldLine
  tail : List UInt8
  line_free : NoPair CR LF line
  ends : HeadEnd tail

namespace RequestText

def fieldText (fields : List FieldLine) : List UInt8 :=
  fields.flatMap fun f => f.name ++ byte ':' :: f.rest ++ CRLF

def text (r : RequestText) : List UInt8 := r.line ++ CR :: LF :: (fieldText r.fields ++ r.tail)

/-- A header line that is not there as a whole yet may have another name, too. -/
def TailRecased (u v : List UInt8) : Prop :=
  u = v ∨ findPair CR LF u = none ∧ findPair CR LF v = none ∧ ∃ name other rest,
    byte ':' ∉ name ∧ name.map toLower = other.map toLower ∧
      u = name ++ byte ':' :: rest ∧ v = other ++ byte ':' :: rest

structure Recased (r s : RequestText) : Prop where
  line : r.line = s.line
  fields : List.Forall₂ FieldLine.Recased r.fields s.fields
  tail : TailRecased r.tail s.tail

def stored (r : RequestText) (name : List UInt8) : Option (List UInt8) :=
  last (r.fields.map FieldLine.entry) name

def request (r : RequestText) (t : ℤ) : HttpRequest :=
  withEntries ((parseRequestLine HttpRequest.empty r.line).2.setReceiveTime t)
    (r.fields.map FieldLine.entry)

def IsParameter (r : RequestText) (name : List UInt8) : Prop :=
  ∃ target v line p pairs, RequestLine r.line .POST target v ∧ NoPair CR LF line ∧
    byte ':' ∉ line ∧ r.tail = line ++ CR :: LF :: formText p pairs ∧
    ∃ q ∈ p :: pairs, q.name = name

end RequestText

theorem fieldLines_exist (unread : List UInt8) : ∃ (fields : List FieldLine) (tail : List UInt8),
    HeadEnd tail ∧ unread = RequestText.fieldText fields ++ tail := by
  induction hlen : unread.length using Nat.strong_induction_on generalizing unread with
  | _ n ih =>
    subst hlen
    cases hfind : findPair CR LF unread with
    | none => exact ⟨[], unread, .unfinished hfind, rfl⟩
    | some i =>
      obtain ⟨line, rest, rfl, hno, -⟩ := findPair_eq_some hfind
      rcases line_cases line with hcolon | ⟨name, value, rfl, hname⟩
      · exact ⟨[], _, .ended hno hcolon, rfl⟩
      · have hless : rest.length < (name ++ byte ':' :: value ++ CR :: LF :: rest).length := by
          simp only [List.length_append, List.length_cons]
          omega
        obtain ⟨fields, tail, hend, rfl⟩ := ih _ hless rest rfl
        refine ⟨⟨name, value, hname, hno⟩ :: fields, tail, hend, ?_⟩
        simp [RequestText.fieldText, CRLF]

/-- Every byte string with a complete first line is the text of a request. -/
theorem requestText_exists {s : List UInt8} (h : findPair CR LF s ≠ none) :
    ∃ r : RequestText, r.text = s := by
  obtain ⟨i, hi⟩ := Option.ne_none_iff_exists'.1 h
  obtain ⟨line, rest, rfl, hno, -⟩ := findPair_eq_some hi
  obtain ⟨fields, tail, hend, rfl⟩ := fieldLines_exist rest
  exact ⟨⟨line, fields, tail, hno, hend⟩, rfl⟩

inductive Decision where
  | waits
  | rejects
  | answers
deriving DecidableEq

def decisionOf : List HttpServer.Call → Decision
  | [] => .waits
  | .httpCallback _ :: _ => .answers
  | _ => .rejects

/-- The callback sees the same parameters, and the connection is treated alike. -/
structure SameRequest (parameter : List UInt8 → Prop) (q q' : HttpRequest) : Prop where
  getBody : ∀ name, parameter name → q.getBody name = q'.getBody name
  close : HttpServer.closeFlag q = HttpServer.closeFlag q'
  length : q.getHeader (bytes "Content-Length") = q'.getHeader (bytes "Content-Length")
  connection : q.getHeader (bytes "Connection") = q'.getHeader (bytes "Connection")

/-- The outcome of two messages; `none` is an exception that leaves `onMessage`. -/
structure SameOutcome (parameter : List UInt8 → Prop) (calls calls' : Option (List HttpServer.Call)) :
    Prop where
  decision : calls.map decisionOf = calls'.map decisionOf
  request : ∀ xs ys, calls = some xs → calls' = some ys →
    ∀ q ∈ HttpServer.callbacks xs, ∀ q' ∈ HttpServer.callbacks ys, SameRequest parameter q q'

/-- Whether a body is accepted under the value of Content-Length; `none` if the parser fails. -/
def bodyVerdict (length body : List UInt8) : Option Bool :=
  match stoi length with
  | .error _ => none
  | .ok n =>
    if n = Int.bmod body.length (2 ^ 32) then
      match bodyOutcome body with
      | .returned correct => some correct
      | _ => none
    else some false

/-- The values under the two names that the server itself looks up. A GET request must have
the same ones; a POST request must have lengths with the same verdict and, if it is accepted,
the same values where no body parameter replaces them. -/
structure SameValues (r s : RequestText) : Prop where
  get : ∀ target v line rest, RequestLine r.line .GET target v → NoPair CR LF line →
    byte ':' ∉ line → r.tail = line ++ CR :: LF :: rest →
    ∀ name ∈ [contentLength, connectionName], r.stored name = s.stored name
  post : ∀ target v line body, RequestLine r.line .POST target v → NoPair CR LF line →
    byte ':' ∉ line → r.tail = line ++ CR :: LF :: body →
    bodyVerdict ((r.stored contentLength).getD []) body =
        bodyVerdict ((s.stored contentLength).getD []) body ∧
      (bodyVerdict ((r.stored contentLength).getD []) body = some true →
        ∀ name ∈ [contentLength, connectionName],
          r.IsParameter name ∨ r.stored name = s.stored name)

section Requests

theorem SameOutcome.of_quiet {parameter : List UInt8 → Prop} {calls : Option (List HttpServer.Call)}
    (h : ∀ xs, calls = some xs → HttpServer.callbacks xs = []) : SameOutcome parameter calls calls where
  decision := rfl
  request xs _ hxs _ q hq := by
    rw [h xs hxs] at hq
    cases hq

theorem sameOutcome_answers_iff {parameter : List UInt8 → Prop}
    {callback callback' : HttpServer.HttpCallback} {q q' : HttpRequest} :
    SameOutcome parameter (some (HttpServer.processRequest callback q))
      (some (HttpServer.processRequest callback' q')) ↔ SameRequest parameter q q' := by
  constructor
  · intro h
    apply h.request _ _ rfl rfl
    · rw [HttpServer.callbacks_processRequest]
      exact List.mem_singleton_self q
    · rw [HttpServer.callbacks_processRequest]
      exact List.mem_singleton_self q'
  · intro h
    refine ⟨rfl, ?_⟩
    rintro xs ys hxs hys q₁ hq₁ q₂ hq₂
    cases hxs
    cases hys
    rw [HttpServer.callbacks_processRequest, List.mem_singleton] at hq₁ hq₂
    rw [hq₁, hq₂]
    exact h

namespace RequestText

theorem stored_ne_nil {r : RequestText} {name value : List UInt8}
    (h : r.stored name = some value) : value ≠ [] := by
  obtain ⟨f, -, hf⟩ := List.mem_map.1 (mem_of_last h)
  rw [FieldLine.entry, Prod.mk.injEq] at hf
  rw [← hf.2]
  exact fieldValue_ne_nil f.rest

/-- No header line stores the empty string, so a value tells whether there is one. -/
theorem getD_stored_inj {r s : RequestText} {name : List UInt8} :
    (r.stored name).getD [] = (s.stored name).getD [] ↔ r.stored name = s.stored name := by
  constructor
  · intro h
    cases hr : r.stored name with
    | none =>
      cases hs : s.stored name with
      | none => rfl
      | some value =>
        rw [hr, hs] at h
        exact absurd h.symm (stored_ne_nil hs)
    | some value =>
      cases hs : s.stored name with
      | none =>
        rw [hr, hs] at h
        exact absurd h (stored_ne_nil hr)
      | some other =>
        rw [hr, hs] at h
        exact congrArg some h
  · intro h
    rw [h]

/-- Two requests whose maps come from `r` and `s`, with the same entries put over both. -/
theorem sameRequest_iff {r s : RequestText} {q q' : HttpRequest} {parameter : List UInt8 → Prop}
    {extra : List UInt8 → Option (List UInt8)} (hversion : q.version = q'.version)
    (hq : ∀ name, q.headers[name]? = (extra name).or (r.stored name))
    (hq' : ∀ name, q'.headers[name]? = (extra name).or (s.stored name))
    (hparameter : ∀ name, parameter name ↔ extra name ≠ none) :
    SameRequest parameter q q' ↔ ∀ name ∈ [contentLength, connectionName],
      parameter name ∨ r.stored name = s.stored name := by
  have hget : ∀ name, q.getHeader name = q'.getHeader name ↔
      parameter name ∨ r.stored name = s.stored name := by
    intro name
    rw [getHeader, getHeader, hq, hq', hparameter]
    cases extra name with
    | some value => simp
    | none => simpa using getD_stored_inj
  constructor
  · intro h name hname
    rw [List.mem_cons, List.mem_singleton] at hname
    rcases hname with rfl | rfl
    · exact (hget contentLength).1 h.length
    · exact (hget connectionName).1 h.connection
  · intro h
    have hlength := (hget contentLength).2 (h contentLength (by simp))
    have hconnection := (hget connectionName).2 (h connectionName (by simp))
    refine ⟨?_, ?_, hlength, hconnection⟩
    · intro name hname
      rw [getBody, getBody, hq, hq']
      obtain ⟨value, hvalue⟩ := Option.ne_none_iff_exists'.1 ((hparameter name).1 hname)
      rw [hvalue, Option.some_or, Option.some_or]
    · have hname : connectionName = bytes "Connection" := rfl
      rw [HttpServer.closeFlag, HttpServer.closeFlag, hversion, ← hname, hconnection]

end RequestText
end Requests

section Messages

variable {β : Type} [ByteBuffer β] {t : ℤ} {b : β} {r : RequestText} {m : Method}
  {target line rest : List UInt8} {v : Version}

theorem HttpContext.RequestLine.good (h : RequestLine line m target v) :
    (parseRequestLine HttpRequest.empty line).1 = true := by
  rw [parseRequestLine_of HttpRequest.empty h]

theorem HttpContext.RequestLine.method_unique {m' : Method} {target' : List UInt8} {v' : Version}
    (h : RequestLine line m target v) (h' : RequestLine line m' target' v') : m = m' := by
  have heq := (parseRequestLine_of HttpRequest.empty h).symm.trans (parseRequestLine_of _ h')
  have hmethod := congrArg (fun p => p.2.method) heq
  simpa [setVersion] using hmethod

namespace RequestText

theorem iterates_head (hgood : (parseRequestLine HttpRequest.empty r.line).1 = true)
    (hp : payload b = r.text) : ∃ b₁, payload b₁ = r.tail ∧
      Iterates t .outer HttpContext.fresh b .outer ⟨.EXPECTHEADERS, r.request t⟩ b₁ := by
  have hturn := requestLineTurn_of_line t HttpContext.fresh hp r.line_free
  rw [← turn_requestLine t b rfl] at hturn
  have hgood' : (parseRequestLine HttpContext.fresh.request r.line).1 = true := hgood
  rw [if_pos hgood'] at hturn
  have htext : fieldText r.fields = (r.fields.map fun f => (f.name, f.rest)).flatMap
      fun f => f.1 ++ byte ':' :: f.2 ++ CRLF := by
    rw [List.flatMap_map]
    rfl
  have hlines : ∀ f ∈ r.fields.map (fun f => (f.name, f.rest)),
      byte ':' ∉ f.1 ∧ NoPair CR LF (f.1 ++ byte ':' :: f.2) := by
    intro f hf
    obtain ⟨g, -, rfl⟩ := List.mem_map.1 hf
    exact ⟨g.name_free, g.line_free⟩
  have hrest := drop_line hp
  have hread := hrest
  rw [htext] at hread
  have hiter := iterates_lines (t := t) (c := ⟨.EXPECTHEADERS,
    (parseRequestLine HttpRequest.empty r.line).2.setReceiveTime t⟩) hlines rfl hread
  rw [← htext, List.map_map] at hiter
  refine ⟨_, ?_, .again hturn hiter⟩
  rw [payload_clear, hrest, List.drop_left]

theorem request_of_line (hline : RequestLine r.line m target v) (t : ℤ) :
    (r.request t).method = m ∧ (r.request t).version = v ∧
      ∀ name, (r.request t).headers[name]? = r.stored name := by
  rw [request, parseRequestLine_of HttpRequest.empty hline]
  refine ⟨?_, rfl, fun name => ?_⟩
  · simp [withEntries, setReceiveTime, setVersion]
  · rw [withEntries, getElem?_updates, stored]
    simp [setReceiveTime, setVersion, HttpRequest.empty]

variable {callback : HttpServer.HttpCallback}

theorem message_bad_line (hbad : ¬ (parseRequestLine HttpRequest.empty r.line).1 = true)
    (hp : payload b = r.text) :
    (HttpServer.onMessage callback HttpContext.fresh b t).map Prod.fst =
      some HttpServer.badRequest := by
  have hturn := requestLineTurn_of_line t HttpContext.fresh hp r.line_free
  have hbad' : ¬ (parseRequestLine HttpContext.fresh.request r.line).1 = true := hbad
  rw [← turn_requestLine t b rfl, if_neg hbad'] at hturn
  rw [HttpServer.onMessage_of_waiting fresh_live (.finish hturn)
    (by simp [HttpContext.fresh])]
  rfl

theorem message_unfinished (hgood : (parseRequestLine HttpRequest.empty r.line).1 = true)
    (htail : findPair CR LF r.tail = none) (hp : payload b = r.text) :
    (HttpServer.onMessage callback HttpContext.fresh b t).map Prod.fst = some [] := by
  obtain ⟨b₁, hb₁, hiter⟩ := iterates_head (t := t) hgood hp
  have hwait : Parses t .outer ⟨.EXPECTHEADERS, r.request t⟩ b₁ (.returned true)
      ⟨.EXPECTHEADERS, r.request t⟩ b₁ := by
    refine .finish ?_
    rw [turn_headers t b₁ rfl, headersTurn, getCRLF, hb₁, htail]
  rw [HttpServer.onMessage_of_waiting fresh_live (hiter.parses hwait) (by simp)]
  rfl

theorem message_get (hline : RequestLine r.line .GET target v) (hno : NoPair CR LF line)
    (hcolon : byte ':' ∉ line) (htail : r.tail = line ++ CR :: LF :: rest)
    (hp : payload b = r.text) :
    (HttpServer.onMessage callback HttpContext.fresh b t).map Prod.fst =
      some (HttpServer.processRequest callback (r.request t)) := by
  obtain ⟨b₁, hb₁, hiter⟩ := iterates_head (t := t) hline.good hp
  rw [htail] at hb₁
  have hend := headersTurn_of_end ⟨.EXPECTHEADERS, r.request t⟩ hb₁ hno hcolon
  rw [if_pos (request_of_line hline t).1, ← turn_headers t b₁ rfl] at hend
  rw [HttpServer.onMessage_of_allOk fresh_live (hiter.parses (.finish hend)) rfl]
  rfl

theorem message_rejected {c' : HttpContext} {b' : β}
    (hrun : Parses t .outer HttpContext.fresh b (.returned false) c' b') :
    (HttpServer.onMessage callback HttpContext.fresh b t).map Prod.fst =
      some HttpServer.badRequest := by
  have hwait : c'.state ≠ .ALLOK := by
    intro hok
    have hreturned := returned_of_allOk hrun fresh_live hok
    cases hreturned
  rw [HttpServer.onMessage_of_waiting fresh_live hrun hwait]
  rfl

theorem message_failed {o : Outcome} {c' : HttpContext} {b' : β}
    (hrun : Parses t .outer HttpContext.fresh b o c' b') (ho : ∀ correct, o ≠ .returned correct) :
    (HttpServer.onMessage callback HttpContext.fresh b t).map Prod.fst = none := by
  rw [HttpServer.onMessage_of_failure fresh_live hrun ho]
  rfl

variable (t callback) in
/-- The calls that belong to a verdict on the body. -/
theorem message_post (hline : RequestLine r.line .POST target v) (hno : NoPair CR LF line)
    (hcolon : byte ':' ∉ line) (htail : r.tail = line ++ CR :: LF :: rest)
    (hp : payload b = r.text) :
    match bodyVerdict ((r.stored contentLength).getD []) rest with
    | none => (HttpServer.onMessage callback HttpContext.fresh b t).map Prod.fst = none
    | some false => (HttpServer.onMessage callback HttpContext.fresh b t).map Prod.fst =
        some HttpServer.badRequest
    | some true => ∃ p pairs, rest = formText p pairs ∧
        (HttpServer.onMessage callback HttpContext.fresh b t).map Prod.fst =
          some (HttpServer.processRequest callback
            (withEntries (r.request t) ((p :: pairs).map FormPair.entry))) := by
  obtain ⟨b₁, hb₁, hiter⟩ := iterates_head (t := t) hline.good hp
  rw [htail] at hb₁
  obtain ⟨hmethod, -, hheaders⟩ := request_of_line hline t
  have hend := headersTurn_of_end ⟨.EXPECTHEADERS, r.request t⟩ hb₁ hno hcolon
  rw [if_neg (by rw [hmethod]; simp), ← turn_headers t b₁ rfl] at hend
  have hbody := hiter.trans (.again hend .refl)
  have hrest := drop_line hb₁
  generalize clear b₁ (line.length + 2) = b₂ at hbody hrest
  obtain ⟨o, c', b', hrun⟩ := parseRequest_total t b fresh_live
  have hlast := hrun.of_iterates hbody
  have houtcome := outcome_of_length rfl hlast
  have hvalue : (r.request t).getHeader (bytes "Content-Length") =
      (r.stored contentLength).getD [] := by
    rw [getHeader, hheaders]
    rfl
  rw [hvalue, hrest] at houtcome
  rcases houtcome with ⟨e, rfl, hthrew⟩ | ⟨n, hstoi, ho⟩
  · simp only [bodyVerdict, hthrew]
    exact message_failed hrun (by simp)
  · simp only [bodyVerdict, hstoi]
    by_cases hn : n = Int.bmod rest.length (2 ^ 32)
    · rw [if_pos hn] at ho ⊢
      rw [← ho]
      cases o with
      | returned correct =>
        cases correct with
        | false => exact message_rejected hrun
        | true =>
          obtain ⟨p, pairs, rfl⟩ := ((bodyOutcome_true_iff rest).1 ho.symm).exists_text
          have hlength : turn t .outer ⟨.EXPECTBODY, r.request t⟩ b₂ =
              .again .body ⟨.EXPECTBODY, r.request t⟩ b₂ := by
            apply turn_of_length t rfl
            rw [hvalue, hstoi, getEOL, hrest, hn]
          obtain ⟨-, rfl, -⟩ := (hlast.of_iterates (.again hlength .refl)).unique
            (parses_formText p pairs t _ _ hrest)
          refine ⟨p, pairs, rfl, ?_⟩
          rw [HttpServer.onMessage_of_allOk fresh_live hrun rfl]
          rfl
      | threw e => exact message_failed hrun (by simp)
      | badRange => exact message_failed hrun (by simp)
    · rw [if_neg hn] at ho ⊢
      subst ho
      exact message_rejected hrun

/-- Equal bodies have the same last value under every name. -/
theorem last_formText {p p' : FormPair} {pairs pairs' : List FormPair}
    (h : formText p pairs = formText p' pairs') (name : List UInt8) :
    last ((p :: pairs).map FormPair.entry) name = last ((p' :: pairs').map FormPair.entry) name := by
  have hrun := parses_formText p pairs 0 HttpContext.fresh (formText p pairs) rfl
  have hrun' := parses_formText p' pairs' 0 HttpContext.fresh (formText p pairs) h
  have heq := congrArg (fun c => c.request.headers[name]?) (hrun.unique hrun').2.1
  simpa [withEntries, getElem?_updates, HttpContext.fresh, HttpRequest.empty] using heq

theorem isParameter_iff {p : FormPair} {pairs : List FormPair}
    (hline : RequestLine r.line .POST target v) (hno : NoPair CR LF line) (hcolon : byte ':' ∉ line)
    (htail : r.tail = line ++ CR :: LF :: formText p pairs) (name : List UInt8) :
    r.IsParameter name ↔ last ((p :: pairs).map FormPair.entry) name ≠ none := by
  constructor
  · rintro ⟨_, _, line', p', pairs', -, hno', -, htail', q, hq, rfl⟩
    rw [htail] at htail'
    obtain ⟨-, hform⟩ := noPair_unique hno hno' htail'
    rw [last_formText hform, Ne, last_eq_none_iff]
    intro hnone
    exact hnone q.entry (List.mem_map_of_mem hq) rfl
  · intro h
    rw [Ne, last_eq_none_iff, not_forall] at h
    obtain ⟨e, h⟩ := h
    rw [Classical.not_imp, not_not] at h
    obtain ⟨hmem, rfl⟩ := h
    obtain ⟨q, hq, rfl⟩ := List.mem_map.1 hmem
    exact ⟨target, v, line, p, pairs, hline, hno, hcolon, htail, q, hq, rfl⟩

theorem tail_cases (r : RequestText) : findPair CR LF r.tail = none ∨
    ∃ line rest, NoPair CR LF line ∧ byte ':' ∉ line ∧ r.tail = line ++ CR :: LF :: rest := by
  have hend := r.ends
  generalize r.tail = tail at hend
  cases hend with
  | unfinished hnone => exact Or.inl hnone
  | ended hno hcolon => exact Or.inr ⟨_, _, hno, hcolon, rfl⟩

variable {s : RequestText} {b' : β}

variable (t callback) in
/-- The decision follows the verdict on the body. -/
theorem decision_post (hline : RequestLine r.line .POST target v) (hno : NoPair CR LF line)
    (hcolon : byte ':' ∉ line) (htail : r.tail = line ++ CR :: LF :: rest)
    (hp : payload b = r.text) :
    ((HttpServer.onMessage callback HttpContext.fresh b t).map Prod.fst).map decisionOf =
      (bodyVerdict ((r.stored contentLength).getD []) rest).map fun accepted =>
        if accepted then .answers else .rejects := by
  have hmessage := message_post t callback hline hno hcolon htail hp
  split at hmessage
  · rename_i hverdict
    rw [hmessage, hverdict]
    rfl
  · rename_i hverdict
    rw [hmessage, hverdict]
    rfl
  · rename_i hverdict
    obtain ⟨p, pairs, -, hcalls⟩ := hmessage
    rw [hcalls, hverdict]
    rfl

theorem sameOutcome_get_iff (h : r.line = s.line) (hline : RequestLine r.line .GET target v)
    (hno : NoPair CR LF line) (hcolon : byte ':' ∉ line)
    (htail : r.tail = line ++ CR :: LF :: rest) (htail' : s.tail = line ++ CR :: LF :: rest)
    (hp : payload b = r.text) (hp' : payload b' = s.text) :
    SameOutcome r.IsParameter
        ((HttpServer.onMessage callback HttpContext.fresh b t).map Prod.fst)
        ((HttpServer.onMessage callback HttpContext.fresh b' t).map Prod.fst) ↔
      ∀ name ∈ [contentLength, connectionName], r.stored name = s.stored name := by
  have hline' := hline
  rw [h] at hline'
  have hparameter : ∀ name, r.IsParameter name ↔ (none : Option (List UInt8)) ≠ none := by
    intro name
    refine iff_of_false ?_ (by simp)
    rintro ⟨_, _, _, _, _, hpost, -⟩
    have hmethod := hline.method_unique hpost
    cases hmethod
  have hversion : (r.request t).version = (s.request t).version := by
    rw [(request_of_line hline t).2.1, (request_of_line hline' t).2.1]
  have hread : ∀ name, (r.request t).headers[name]? =
      (none : Option (List UInt8)).or (r.stored name) := (request_of_line hline t).2.2
  have hread' : ∀ name, (s.request t).headers[name]? =
      (none : Option (List UInt8)).or (s.stored name) := (request_of_line hline' t).2.2
  rw [message_get hline hno hcolon htail hp, message_get hline' hno hcolon htail' hp',
    sameOutcome_answers_iff, sameRequest_iff hversion hread hread' hparameter]
  simp only [hparameter, ne_eq, not_true_eq_false, false_or]

theorem sameOutcome_post_iff (h : r.line = s.line) (hline : RequestLine r.line .POST target v)
    (hno : NoPair CR LF line) (hcolon : byte ':' ∉ line)
    (htail : r.tail = line ++ CR :: LF :: rest) (htail' : s.tail = line ++ CR :: LF :: rest)
    (hp : payload b = r.text) (hp' : payload b' = s.text) :
    SameOutcome r.IsParameter
        ((HttpServer.onMessage callback HttpContext.fresh b t).map Prod.fst)
        ((HttpServer.onMessage callback HttpContext.fresh b' t).map Prod.fst) ↔
      bodyVerdict ((r.stored contentLength).getD []) rest =
          bodyVerdict ((s.stored contentLength).getD []) rest ∧
        (bodyVerdict ((r.stored contentLength).getD []) rest = some true →
          ∀ name ∈ [contentLength, connectionName],
            r.IsParameter name ∨ r.stored name = s.stored name) := by
  have hline' := hline
  rw [h] at hline'
  have hdecision := decision_post t callback hline hno hcolon htail hp
  have hdecision' := decision_post t callback hline' hno hcolon htail' hp'
  have hcalls := message_post t callback hline hno hcolon htail hp
  have hcalls' := message_post t callback hline' hno hcolon htail' hp'
  by_cases hverdict : bodyVerdict ((r.stored contentLength).getD []) rest =
      bodyVerdict ((s.stored contentLength).getD []) rest
  · rw [and_iff_right hverdict]
    rw [← hverdict] at hcalls'
    match hv : bodyVerdict ((r.stored contentLength).getD []) rest with
    | none =>
      rw [hv] at hcalls hcalls'
      rw [hcalls, hcalls']
      refine iff_of_true (.of_quiet fun xs hxs => ?_) (by simp)
      cases hxs
    | some false =>
      rw [hv] at hcalls hcalls'
      rw [hcalls, hcalls']
      refine iff_of_true (.of_quiet fun xs hxs => ?_) (by simp)
      cases hxs
      rfl
    | some true =>
      rw [hv] at hcalls hcalls'
      obtain ⟨p, pairs, rfl, hcalls⟩ := hcalls
      obtain ⟨p', pairs', hform, hcalls'⟩ := hcalls'
      have hparameter := isParameter_iff hline hno hcolon htail
      have hversion : (withEntries (r.request t) ((p :: pairs).map FormPair.entry)).version =
          (withEntries (s.request t) ((p' :: pairs').map FormPair.entry)).version := by
        change (r.request t).version = (s.request t).version
        rw [(request_of_line hline t).2.1, (request_of_line hline' t).2.1]
      have hread : ∀ name,
          (withEntries (r.request t) ((p :: pairs).map FormPair.entry)).headers[name]? =
            (last ((p :: pairs).map FormPair.entry) name).or (r.stored name) := by
        intro name
        rw [withEntries, getElem?_updates, (request_of_line hline t).2.2]
      have hread' : ∀ name,
          (withEntries (s.request t) ((p' :: pairs').map FormPair.entry)).headers[name]? =
            (last ((p :: pairs).map FormPair.entry) name).or (s.stored name) := by
        intro name
        rw [withEntries, getElem?_updates, (request_of_line hline' t).2.2, ← last_formText hform]
      rw [hcalls, hcalls', sameOutcome_answers_iff,
        sameRequest_iff hversion hread hread' hparameter]
      exact ⟨fun hvalues _ => hvalues, fun hvalues => hvalues rfl⟩
  · refine iff_of_false (fun hsame => hverdict ?_) (fun hsame => hverdict hsame.1)
    have heq := hsame.decision
    rw [hdecision, hdecision'] at heq
    refine Option.map_injective ?_ heq
    intro x y hxy
    cases x <;> cases y <;> simp_all

/-- Two texts with other letters in their header names have the same outcome on a fresh
connection if and only if the names as they are spelled give the server the same values. -/
theorem sameOutcome_iff_sameValues (h : r.Recased s) (t : ℤ) (callback : HttpServer.HttpCallback)
    (hp : payload b = r.text) (hp' : payload b' = s.text) :
    SameOutcome r.IsParameter
        ((HttpServer.onMessage callback HttpContext.fresh b t).map Prod.fst)
        ((HttpServer.onMessage callback HttpContext.fresh b' t).map Prod.fst) ↔ SameValues r s := by
  obtain ⟨hsame, -, htails⟩ := h
  by_cases hgood : (parseRequestLine HttpRequest.empty r.line).1 = true
  · obtain ⟨m, target, v, hline⟩ := requestLine_of_parse hgood
    have hgood' := hgood
    rw [hsame] at hgood'
    rcases tail_cases r with hnone | ⟨line, rest, hno, hcolon, htail⟩
    · have hnone' : findPair CR LF s.tail = none := by
        rcases htails with heq | ⟨-, hnone', -⟩
        · rw [← heq, hnone]
        · exact hnone'
      rw [message_unfinished hgood hnone hp, message_unfinished hgood' hnone' hp']
      refine iff_of_true (.of_quiet fun xs hxs => ?_) ⟨?_, ?_⟩
      · cases hxs
        rfl
      · intro _ _ line rest _ _ _ htail
        exact absurd (htail ▸ hnone) (findPair_ne_none line rest)
      · intro _ _ line rest _ _ _ htail
        exact absurd (htail ▸ hnone) (findPair_ne_none line rest)
    · have htail' : s.tail = line ++ CR :: LF :: rest := by
        rcases htails with heq | ⟨hnone, -⟩
        · rw [← heq, htail]
        · exact absurd (htail ▸ hnone) (findPair_ne_none line rest)
      cases m with
      | INVALID => exact absurd rfl hline.known
      | GET =>
        rw [sameOutcome_get_iff hsame hline hno hcolon htail htail' hp hp']
        constructor
        · intro hvalues
          refine ⟨fun _ _ _ _ _ _ _ _ => hvalues, fun _ _ _ _ hpost => ?_⟩
          have hmethod := hline.method_unique hpost
          cases hmethod
        · intro hvalues
          exact hvalues.get target v line rest hline hno hcolon htail
      | POST =>
        rw [sameOutcome_post_iff hsame hline hno hcolon htail htail' hp hp']
        constructor
        · intro hvalues
          refine ⟨fun _ _ _ _ hget => ?_, fun _ _ _ _ _ hno₂ _ htail₂ => ?_⟩
          · have hmethod := hline.method_unique hget
            cases hmethod
          · rw [htail] at htail₂
            obtain ⟨-, rfl⟩ := noPair_unique hno hno₂ htail₂
            exact hvalues
        · intro hvalues
          exact hvalues.post target v line rest hline hno hcolon htail
  · have hbad' := hgood
    rw [hsame] at hbad'
    rw [message_bad_line hgood hp, message_bad_line hbad' hp']
    refine iff_of_true (.of_quiet fun xs hxs => ?_) ⟨?_, ?_⟩
    · cases hxs
      rfl
    · intro _ _ _ _ hline
      exact absurd hline.good hgood
    · intro _ _ _ _ hline
      exact absurd hline.good hgood

/-- Names other than the one that is looked up may be written in any letters. -/
theorem stored_eq_of_kept {name : List UInt8} (h : List.Forall₂ (fun f g : FieldLine => f.Recased g ∧
    (f.name.map toLower = name.map toLower → f.name = g.name)) r.fields s.fields) :
    r.stored name = s.stored name := by
  unfold stored
  generalize r.fields = fields at h
  generalize s.fields = others at h
  induction h with
  | nil => rfl
  | @cons f g fields others hfg _ ih =>
    obtain ⟨⟨hlower, hrest⟩, hkept⟩ := hfg
    rw [List.map_cons, List.map_cons, last_cons, last_cons, ih, FieldLine.entry, FieldLine.entry,
      hrest]
    have hname : f.name = name ↔ g.name = name := by
      constructor
      · rintro rfl
        exact (hkept rfl).symm
      · rintro rfl
        exact hkept hlower
    simp only [hname]

theorem sameValues_of_stored (h : ∀ name ∈ [contentLength, connectionName],
    r.stored name = s.stored name) : SameValues r s where
  get _ _ _ _ _ _ _ _ := h
  post _ _ _ _ _ _ _ _ := by
    rw [h contentLength (by simp)]
    exact ⟨rfl, fun _ name hname => Or.inr (h name hname)⟩

def hostGet (host : FieldLine) : RequestText where
  line := bytes "GET / HTTP/1.1"
  fields := [host, ⟨bytes "Connection", bytes " keep-alive", connection_free, by decide +kernel⟩]
  tail := [] ++ CR :: LF :: []
  line_free := by decide +kernel
  ends := .ended rfl (by decide)

theorem hostGet_recased {f g : FieldLine} (h : f.Recased g) : (hostGet f).Recased (hostGet g) :=
  ⟨rfl, .cons h (.cons ⟨rfl, rfl⟩ .nil), Or.inl rfl⟩

def host : FieldLine := ⟨bytes "Host", bytes " x", by decide, by decide +kernel⟩

def capitalHost : FieldLine := ⟨bytes "HOST", bytes " x", by decide, by decide +kernel⟩

theorem sameOutcome_of_capital_host : SameOutcome (hostGet host).IsParameter
    ((HttpServer.onMessage okCallback HttpContext.fresh (hostGet host).text 0).map Prod.fst)
    ((HttpServer.onMessage okCallback HttpContext.fresh (hostGet capitalHost).text 0).map
      Prod.fst) := by
  have hrecased : host.Recased capitalHost := ⟨by decide, rfl⟩
  refine (sameOutcome_iff_sameValues (hostGet_recased hrecased) 0 okCallback rfl rfl).2
    (sameValues_of_stored ?_)
  intro name hname
  apply stored_eq_of_kept
  have hhost : host.name.map toLower ≠ name.map toLower := by
    rw [List.mem_cons, List.mem_singleton] at hname
    rcases hname with rfl | rfl <;> decide
  exact .cons ⟨hrecased, fun heq => absurd heq hhost⟩ (.cons ⟨⟨rfl, rfl⟩, fun _ => rfl⟩ .nil)

def lengthPost (length : FieldLine) : RequestText where
  line := bytes "POST / HTTP/1.1"
  fields := [length]
  tail := [] ++ CR :: LF :: bytes "a=1"
  line_free := by decide +kernel
  ends := .ended rfl (by decide)

theorem lengthPost_recased {f g : FieldLine} (h : f.Recased g) :
    (lengthPost f).Recased (lengthPost g) :=
  ⟨rfl, .cons h .nil, Or.inl rfl⟩

def lengthLine : FieldLine := ⟨bytes "Content-Length", bytes " 3", contentLength_free, by decide +kernel⟩

def smallLengthLine : FieldLine := ⟨bytes "content-length", bytes " 3", by decide, by decide +kernel⟩

/-- In small letters the length is not found, and its conversion throws. -/
theorem small_length_not_sameOutcome :
    (lengthPost lengthLine).Recased (lengthPost smallLengthLine) ∧
      ¬ SameOutcome (lengthPost lengthLine).IsParameter
        ((HttpServer.onMessage okCallback HttpContext.fresh (lengthPost lengthLine).text 0).map
          Prod.fst)
        ((HttpServer.onMessage okCallback HttpContext.fresh (lengthPost smallLengthLine).text 0).map
          Prod.fst) := by
  refine ⟨lengthPost_recased ⟨by decide, rfl⟩, fun h => ?_⟩
  have hdecision := h.decision
  revert hdecision
  decide +kernel

end RequestText
end Messages
end HydrogenWeb
