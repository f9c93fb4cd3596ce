import HydrogenWeb.HttpContentLength

set_option autoImplicit false

/-!
# The parameters of a body

The pairs of a form come back from a written body in order. They are put into the map of
the header fields, which the header lines of the same request have filled before.
-/
namespace HydrogenWeb
open ListSearch ByteBuffer HttpContext HttpRequest MapUpdates

section Forms

variable {β : Type} [ByteBuffer β] {t : ℤ} {c c' : HttpContext} {b b' : β} {o : Outcome}

/-- Parsing a form undoes writing it. -/
theorem parseRequest_formText (p : FormPair) (pairs : List FormPair) (t : ℤ) (c : HttpContext)
    (b : β) (hstate : c.state = .EXPECTBODY)
    (hlength : Numeral (c.request.getHeader (bytes "Content-Length")) (formText p pairs).length)
    (hrange : (formText p pairs).length < 2 ^ 31) (hp : payload b = formText p pairs) :
    ∃ c' b', parseRequest t c b = some (.returned true, c', b') ∧ c'.state = .ALLOK ∧
      c'.request.headers = updates c.request.headers ((p :: pairs).map FormPair.entry) ∧
      ∀ pre q post, p :: pairs = pre ++ q :: post → (∀ r ∈ post, r.name ≠ q.name) →
        c'.request.getBody q.name = q.value := by
  have hstoi : stoi (c.request.getHeader (bytes "Content-Length")) =
      .ok (Int.bmod (getEOL b) (2 ^ 32)) := by
    rw [stoi_digits hlength.nonempty hlength.digits, hlength.number, if_pos hrange, getEOL, hp,
      Int.bmod_eq_of_le] <;> omega
  have hrun : Parses t .outer c b _ _ _ :=
    .again (turn_of_length t hstate hstoi) (parses_formText p pairs t c b hp)
  refine ⟨_, _, (parseRequest_iff (by simp [hstate])).2 hrun, rfl, rfl, ?_⟩
  intro pre q post hsplit hlast
  have hentries : (p :: pairs).map FormPair.entry =
      pre.map FormPair.entry ++ (q.name, q.value) :: post.map FormPair.entry := by
    rw [hsplit, List.map_append, List.map_cons]
    rfl
  have hfree : ∀ e ∈ post.map FormPair.entry, e.1 ≠ q.name := by
    intro e he
    obtain ⟨r, hr, rfl⟩ := List.mem_map.1 he
    exact hlast r hr
  rw [getBody, withEntries, getElem?_updates, hentries, last_of_split hfree]
  rfl

def pairA : FormPair := ⟨bytes "a", bytes "1", a_free, one_free⟩

def pairBlank : FormPair := ⟨[], bytes "b=c", by decide, by decide⟩

def pairAgain : FormPair := ⟨bytes "a", [], a_free, by decide⟩

theorem parseRequest_formText_of_three : ∃ c' b',
    parseRequest 0 (expectingBody "11") (bytes "a=1&=b=c&a=") = some (.returned true, c', b') ∧
      c'.state = .ALLOK ∧
      c'.request.headers = updates (expectingBody "11").request.headers
        ([pairA, pairBlank, pairAgain].map FormPair.entry) ∧
      ∀ pre q post, [pairA, pairBlank, pairAgain] = pre ++ q :: post →
        (∀ r ∈ post, r.name ≠ q.name) → c'.request.getBody q.name = q.value := by
  refine parseRequest_formText pairA [pairBlank, pairAgain] 0 (expectingBody "11")
    (bytes "a=1&=b=c&a=") rfl ?_ (by decide) (by decide)
  rw [expectingBody_length]
  exact ⟨by decide, by decide +kernel, by decide +kernel⟩

end Forms

section NameSpaces

theorem trimFront_ne_nil {s : List UInt8} (h : s ≠ []) : trimFront s ≠ [] := by
  induction s with
  | nil => exact h
  | cons c s ih =>
    cases s with
    | nil => exact h
    | cons d s =>
      rw [trimFront]
      split
      · exact ih (by simp)
      · simp

/-- The trimming stops at the last byte it has. -/
theorem fieldValue_ne_nil (rest : List UInt8) : fieldValue rest ≠ [] := by
  have hfront : trimFront (rest ++ [CR]) ≠ [] := trimFront_ne_nil (by simp)
  rw [fieldValue, trimBack, Ne, List.reverse_eq_nil_iff]
  exact trimFront_ne_nil (mt List.reverse_eq_nil_iff.1 hfront)

/-- What is read from a request with these header fields and these body parameters. -/
structure NameSpaces (fields : List HeaderField) (pairs : List FormPair) (r : HttpRequest) :
    Prop where
  getHeader : ∀ name value, last (fields.map HeaderField.entry) name = some value →
    r.getHeader name = value
  headers : ∀ name value, r.headers[name]? = some value →
    (name, value) ∈ fields.map HeaderField.entry
  getBody : ∀ name, r.getBody name = (last (pairs.map FormPair.entry) name).getD []

variable {β : Type} [ByteBuffer β] {t : ℤ} {c c' : HttpContext} {b b' : β} {o : Outcome}

theorem body_of_allOk (hstate : c.state = .EXPECTBODY) (h : Parses t .outer c b o c' b')
    (hok : c'.state = .ALLOK) : Parses t .body c b o c' b' := by
  obtain rfl := returned_of_allOk h (by simp [hstate]) hok
  rcases outcome_of_length hstate h with ⟨e, he, -⟩ | ⟨n, hstoi, hend⟩
  · cases he
  · by_cases hn : n = Int.bmod (payload b).length (2 ^ 32)
    · rw [hn] at hstoi
      exact h.of_iterates (.again (turn_of_length t hstate hstoi) .refl)
    · rw [if_neg hn] at hend
      cases hend

/-- A POST request with a form that has been accepted. -/
theorem context_of_post (head : RequestHead) (hpost : head.method = .POST) (p : FormPair)
    (pairs : List FormPair) (hs : c.state = .EXPECTREQUESTLINE)
    (hp : payload b = head.text ++ formText p pairs)
    (hrun : parseRequest t c b = some (o, c', b')) (hok : c'.state = .ALLOK) :
    c' = ⟨.ALLOK, withEntries (head.request t c.request) ((p :: pairs).map FormPair.entry)⟩ := by
  have hlive : c.state ≠ .ALLOK := by simp [hs]
  have hhead := head.iterates_post (t := t) (by rw [hpost]; simp) hs hp
  have hrest : payload (clear b head.text.length) = formText p pairs := by
    rw [payload_clear, hp, List.drop_left]
  have hbody := body_of_allOk rfl (((parseRequest_iff hlive).1 hrun).of_iterates hhead) hok
  exact (hbody.unique (parses_formText p pairs t _ _ hrest)).2.1

theorem head_request_headers (head : RequestHead) (t : ℤ) {r : HttpRequest} (hr : r.headers = ∅)
    (name : List UInt8) :
    (head.request t r).headers[name]? = last (head.fields.map HeaderField.entry) name := by
  have hbase : (head.request t r).headers = updates ∅ (head.fields.map HeaderField.entry) := by
    rw [RequestHead.request, RequestHead.addFields_eq, withEntries, setReceiveTime, setVersion, ← hr]
    simp
  rw [hbase, getElem?_updates]
  simp

theorem headers_of_post (head : RequestHead) (hpost : head.method = .POST) (p : FormPair)
    (pairs : List FormPair) (hs : c.state = .EXPECTREQUESTLINE) (hc : c.request.headers = ∅)
    (hp : payload b = head.text ++ formText p pairs)
    (hrun : parseRequest t c b = some (o, c', b')) (hok : c'.state = .ALLOK) (name : List UInt8) :
    c'.request.headers[name]? = (last ((p :: pairs).map FormPair.entry) name).or
      (last (head.fields.map HeaderField.entry) name) := by
  rw [context_of_post head hpost p pairs hs hp hrun hok, withEntries, getElem?_updates,
    head_request_headers head t hc]

theorem header_value_ne_nil {fields : List HeaderField} {name value : List UInt8}
    (h : (name, value) ∈ fields.map HeaderField.entry) : value ≠ [] := by
  obtain ⟨f, -, hf⟩ := List.mem_map.1 h
  rw [HeaderField.entry, Prod.mk.injEq] at hf
  rw [← hf.2]
  exact fieldValue_ne_nil f.rest

/-- Names do not mix exactly where every name has the same value on both sides. -/
theorem nameSpaces_iff_same_values (head : RequestHead) (hpost : head.method = .POST)
    (p : FormPair) (pairs : List FormPair) (hs : c.state = .EXPECTREQUESTLINE)
    (hc : c.request.headers = ∅) (hp : payload b = head.text ++ formText p pairs)
    (hrun : parseRequest t c b = some (o, c', b')) (hok : c'.state = .ALLOK) :
    NameSpaces head.fields (p :: pairs) c'.request ↔
      ∀ name, last (head.fields.map HeaderField.entry) name =
        last ((p :: pairs).map FormPair.entry) name := by
  have hmap := headers_of_post head hpost p pairs hs hc hp hrun hok
  generalize p :: pairs = pairs at hmap ⊢
  generalize head.fields = fields at hmap ⊢
  constructor
  · intro h name
    have hread := hmap name
    have hbody := h.getBody name
    cases hpair : last (pairs.map FormPair.entry) name with
    | some value =>
      rw [hpair, Option.some_or] at hread
      have hmem := h.headers name value hread
      cases hfield : last (fields.map HeaderField.entry) name with
      | none => exact absurd rfl (last_eq_none_iff.1 hfield _ hmem)
      | some u =>
        have hvalue := h.getHeader name u hfield
        rw [getHeader, hread, Option.getD_some] at hvalue
        rw [hvalue]
    | none =>
      rw [hpair, Option.none_or] at hread
      cases hfield : last (fields.map HeaderField.entry) name with
      | none => rfl
      | some u =>
        rw [getBody, hread, hfield, hpair, Option.getD_some, Option.getD_none] at hbody
        exact absurd hbody (header_value_ne_nil (mem_of_last hfield))
  · intro h
    have hboth : ∀ name, c'.request.headers[name]? = last (fields.map HeaderField.entry) name := by
      intro name
      rw [hmap, ← h name, Option.or_self]
    constructor
    · intro name value hfield
      rw [getHeader, hboth, hfield, Option.getD_some]
    · intro name value hread
      rw [hboth] at hread
      exact mem_of_last hread
    · intro name
      rw [getBody, hboth, h name]

def ownLength : HeaderField where
  name := bytes "Content-Length"
  rest := bytes "17"
  name_free := contentLength_free
  line_free := by decide

def keepAlive : HeaderField where
  name := bytes "Connection"
  rest := bytes " keep-alive"
  name_free := connection_free
  line_free := by decide

def lengthPair : FormPair := ⟨bytes "Content-Length", bytes "17", by decide, by decide⟩

def closedPair : FormPair := ⟨bytes "Connection", bytes "closed", by decide, by decide⟩

/-- The only header field and the only parameter agree. -/
theorem nameSpaces_of_own_length : ∃ (o : Outcome) (c' : HttpContext) (b' : List UInt8),
    parseRequest 0 HttpContext.fresh ((postOf [ownLength]).text ++ formText lengthPair []) =
      some (o, c', b') ∧ NameSpaces [ownLength] [lengthPair] c'.request := by
  have hend : (parseRequest 0 HttpContext.fresh
      ((postOf [ownLength]).text ++ formText lengthPair [])).map (fun r => r.2.1.state) =
        some .ALLOK := by
    decide +kernel
  obtain ⟨⟨o, c', b'⟩, hrun, hok⟩ := Option.map_eq_some_iff.1 hend
  refine ⟨o, c', b', hrun, (nameSpaces_iff_same_values (postOf [ownLength]) rfl lengthPair []
    rfl rfl rfl hrun hok).2 fun name => ?_⟩
  have hsame : [ownLength].map HeaderField.entry = [lengthPair].map FormPair.entry := by
    decide +kernel
  exact congrArg (fun entries => last entries name) hsame

/-- A parameter of the body replaces the header field that keeps the connection open. -/
theorem connection_parameter_mixes : ∃ (o : Outcome) (c' : HttpContext) (b' : List UInt8),
    parseRequest 0 HttpContext.fresh
        ((postOf [keepAlive, ownLength]).text ++ formText closedPair []) = some (o, c', b') ∧
      c'.state = .ALLOK ∧ ¬ NameSpaces [keepAlive, ownLength] [closedPair] c'.request := by
  have hend : (parseRequest 0 HttpContext.fresh
      ((postOf [keepAlive, ownLength]).text ++ formText closedPair [])).map (fun r =>
        (r.2.1.state, r.2.1.request.getHeader (bytes "Connection"))) =
          some (.ALLOK, bytes "closed") := by
    decide +kernel
  obtain ⟨⟨o, c', b'⟩, hrun, hpair⟩ := Option.map_eq_some_iff.1 hend
  rw [Prod.mk.injEq] at hpair
  refine ⟨o, c', b', hrun, hpair.1, fun h => ?_⟩
  have hfield : last ([keepAlive, ownLength].map HeaderField.entry) (bytes "Connection") =
      some (bytes "keep-alive") := by
    decide +kernel
  have hvalue := h.getHeader _ _ hfield
  rw [hpair.2] at hvalue
  exact absurd hvalue (by decide)

end NameSpaces
end HydrogenWeb
