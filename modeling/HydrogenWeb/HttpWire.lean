import HydrogenWeb.HttpMessage

set_option autoImplicit false

/-!
# Well-formed requests on the wire

The text of a request is written here without the parser, and the parser is run on it:
on a whole head with anything behind it, and on every proper prefix of one.
-/
namespace HydrogenWeb
open ListSearch ByteBuffer HttpContext HttpRequest MapUpdates

theorem trimFront_blanks {blanks l : List UInt8} {c : UInt8}
    (hblanks : ∀ b ∈ blanks, isspace b = true) (hc : isspace c = false) :
    trimFront (blanks ++ c :: l) = c :: l := by
  induction blanks with
  | nil =>
    cases l with
    | nil => rfl
    | cons d l => simp [trimFront, hc]
  | cons b blanks ih =>
    have htail := ih fun x hx => hblanks x (List.mem_cons_of_mem _ hx)
    obtain ⟨x, rest, hrest⟩ : ∃ x rest, blanks ++ c :: l = x :: rest :=
      List.exists_cons_of_ne_nil (by simp)
    rw [List.cons_append, hrest, trimFront, if_pos (hblanks b List.mem_cons_self), ← hrest, htail]

theorem fieldValue_trimmed {before text after : List UInt8} (hne : text ≠ [])
    (hblanks : ∀ c ∈ before ++ after, isspace c = true) (hfirst : isspace (text.head hne) = false)
    (hlast : isspace (text.getLast hne) = false) : fieldValue (before ++ text ++ after) = text := by
  obtain ⟨c, l, rfl⟩ := List.exists_cons_of_ne_nil hne
  have hfront : trimFront (before ++ (c :: l) ++ after ++ [CR]) = c :: l ++ (after ++ [CR]) := by
    have hsplit : before ++ (c :: l) ++ after ++ [CR] = before ++ c :: (l ++ (after ++ [CR])) := by
      simp
    rw [hsplit]
    exact trimFront_blanks (fun b hb => hblanks b (List.mem_append_left _ hb)) hfirst
  have hback : (c :: l ++ (after ++ [CR])).reverse = (CR :: after.reverse) ++ (c :: l).reverse := by
    simp
  have hrest : (c :: l).reverse = (c :: l).getLast hne :: (c :: l).dropLast.reverse := by
    have hends := congrArg List.reverse (List.dropLast_append_getLast hne)
    rw [List.reverse_append] at hends
    exact hends.symm
  have hspaces : ∀ b ∈ CR :: after.reverse, isspace b = true := by
    intro b hb
    rcases List.mem_cons.1 hb with rfl | hb
    · decide
    · exact hblanks b (List.mem_append_right _ (List.mem_reverse.1 hb))
  rw [fieldValue, hfront, trimBack, hback, hrest, trimFront_blanks hspaces hlast, ← hrest,
    List.reverse_reverse]

/-- A header line: what stands before and behind its first colon. -/
structure HeaderField where
  name : List UInt8
  rest : List UInt8
  name_free : byte ':' ∉ name
  line_free : CR ∉ name ++ byte ':' :: rest ∧ LF ∉ name ++ byte ':' :: rest

def HeaderField.line (f : HeaderField) : List UInt8 := f.name ++ byte ':' :: f.rest

def HeaderField.entry (f : HeaderField) : List UInt8 × List UInt8 := (f.name, fieldValue f.rest)

structure RequestHead where
  method : Method
  target : List UInt8
  version : Version
  fields : List HeaderField
  known : method ≠ .INVALID
  supported : version ≠ .UNKNOWN
  target_free : byte ' ' ∉ target ∧ CR ∉ target ∧ LF ∉ target

theorem get_known : Method.GET ≠ .INVALID := by decide

theorem post_known : Method.POST ≠ .INVALID := by decide

theorem http11_supported : Version.HTTP11 ≠ .UNKNOWN := by decide

theorem root_free : byte ' ' ∉ bytes "/" ∧ CR ∉ bytes "/" ∧ LF ∉ bytes "/" := by decide

theorem connection_free : byte ':' ∉ bytes "Connection" := by decide

theorem contentLength_free : byte ':' ∉ bytes "Content-Length" := by decide

def rootGet : RequestHead where
  method := .GET
  target := bytes "/"
  version := .HTTP11
  fields := []
  known := get_known
  supported := http11_supported
  target_free := root_free

namespace RequestHead

def requestLine (h : RequestHead) : List UInt8 :=
  methodString h.method ++ byte ' ' :: (h.target ++ byte ' ' :: versionString h.version)

def fieldLines (fields : List HeaderField) : List UInt8 :=
  fields.flatMap fun f => f.line ++ CRLF

def text (h : RequestHead) : List UInt8 := h.requestLine ++ CRLF ++ fieldLines h.fields ++ CRLF

def addFields (r : HttpRequest) (fields : List HeaderField) : HttpRequest :=
  fields.foldl (fun r f => withHeader r f.name (fieldValue f.rest)) r

def request (h : RequestHead) (t : ℤ) (r : HttpRequest) : HttpRequest :=
  addFields (((setTarget { r with method := h.method } h.target).setVersion h.version).setReceiveTime t)
    h.fields

theorem addFields_eq (r : HttpRequest) (fields : List HeaderField) :
    addFields r fields = withEntries r (fields.map HeaderField.entry) := by
  induction fields generalizing r with
  | nil => rfl
  | cons f fields ih => exact ih _

@[simp] theorem addFields_method (r : HttpRequest) (fields : List HeaderField) :
    (addFields r fields).method = r.method := by
  induction fields generalizing r with
  | nil => rfl
  | cons f fields ih => exact ih _

@[simp] theorem addFields_bodys (r : HttpRequest) (fields : List HeaderField) :
    (addFields r fields).bodys = r.bodys := by
  induction fields generalizing r with
  | nil => rfl
  | cons f fields ih => exact ih _

@[simp] theorem request_method (h : RequestHead) (t : ℤ) (r : HttpRequest) :
    (h.request t r).method = h.method := by
  simp [request, setReceiveTime, setVersion]

@[simp] theorem request_bodys (h : RequestHead) (t : ℤ) (r : HttpRequest) :
    (h.request t r).bodys = r.bodys := by
  simp [request, setReceiveTime, setVersion]

theorem requestLine_grammar (h : RequestHead) :
    RequestLine h.requestLine h.method h.target h.version :=
  ⟨h.known, h.supported, h.target_free.1, rfl⟩

theorem requestLine_free (h : RequestHead) : CR ∉ h.requestLine := by
  have hmethod : CR ∉ methodString h.method := by
    cases h.method <;> decide
  have hversion : CR ∉ versionString h.version := by
    cases h.version <;> decide
  simp only [requestLine, List.mem_append, List.mem_cons, not_or]
  exact ⟨hmethod, by decide, h.target_free.2.1, by decide, hversion⟩

theorem noPair_requestLine (h : RequestHead) : NoPair CR LF h.requestLine :=
  noPair_of_not_mem (by decide) h.requestLine_free

end RequestHead

theorem HeaderField.noPair_line (f : HeaderField) : NoPair CR LF f.line :=
  noPair_of_not_mem (by decide) f.line_free.1

/-- The parser reads lines with a colon one after the other. -/
theorem HttpContext.iterates_lines {β : Type} [ByteBuffer β] {t : ℤ} {c : HttpContext} {b : β}
    {lines : List (List UInt8 × List UInt8)} {tail : List UInt8}
    (hlines : ∀ f ∈ lines, byte ':' ∉ f.1 ∧ NoPair CR LF (f.1 ++ byte ':' :: f.2))
    (hs : c.state = .EXPECTHEADERS)
    (hp : payload b = lines.flatMap (fun f => f.1 ++ byte ':' :: f.2 ++ CRLF) ++ tail) :
    Iterates t .outer c b .outer
      { c with request := withEntries c.request (lines.map fun f => (f.1, fieldValue f.2)) }
      (clear b (lines.flatMap fun f => f.1 ++ byte ':' :: f.2 ++ CRLF).length) := by
  induction lines generalizing c b with
  | nil =>
    rw [List.flatMap_nil, List.length_nil, clear_zero]
    exact .refl
  | cons f lines ih =>
    obtain ⟨⟨hname, hno⟩, hrest⟩ := List.forall_mem_cons.1 hlines
    have hsplit : payload b = f.1 ++ byte ':' :: f.2 ++ CR :: LF ::
        (lines.flatMap (fun f => f.1 ++ byte ':' :: f.2 ++ CRLF) ++ tail) := by
      rw [hp]
      simp [CRLF]
    have hturn : turn t .outer c b = .again .outer
        { c with request := withHeader c.request f.1 (fieldValue f.2) }
        (clear b ((f.1 ++ byte ':' :: f.2).length + 2)) := by
      rw [turn_headers t b hs]
      exact headersTurn_of_field c hsplit hno hname
    have hiter := ih (c := { c with request := withHeader c.request f.1 (fieldValue f.2) }) hrest hs
      (drop_line hsplit)
    have hlen : ((f :: lines).flatMap fun f => f.1 ++ byte ':' :: f.2 ++ CRLF).length =
        (f.1 ++ byte ':' :: f.2).length + 2 +
          (lines.flatMap fun f => f.1 ++ byte ':' :: f.2 ++ CRLF).length := by
      rw [List.flatMap_cons, List.length_append, List.length_append]
      rfl
    rw [clear_clear, ← hlen] at hiter
    exact .again hturn hiter

namespace RequestHead

variable {β : Type} [ByteBuffer β] {t : ℤ} {c : HttpContext} {b : β}

theorem fieldLines_cons (f : HeaderField) (fields : List HeaderField) :
    fieldLines (f :: fields) = f.line ++ CR :: LF :: fieldLines fields := by
  simp [fieldLines, CRLF]

theorem iterates_fields {fields : List HeaderField} {tail : List UInt8}
    (hs : c.state = .EXPECTHEADERS) (hp : payload b = fieldLines fields ++ tail) :
    Iterates t .outer c b .outer { c with request := addFields c.request fields }
      (clear b (fieldLines fields).length) := by
  have htext : fieldLines fields = (fields.map fun f => (f.name, f.rest)).flatMap
      fun f => f.1 ++ byte ':' :: f.2 ++ CRLF := by
    rw [List.flatMap_map]
    rfl
  have hlines : ∀ f ∈ fields.map (fun f => (f.name, f.rest)),
      byte ':' ∉ f.1 ∧ NoPair CR LF (f.1 ++ byte ':' :: f.2) := by
    intro f hf
    obtain ⟨g, -, rfl⟩ := List.mem_map.1 hf
    exact ⟨g.name_free, g.noPair_line⟩
  rw [htext] at hp
  have hiter := iterates_lines (t := t) hlines hs hp
  rw [← htext, List.map_map] at hiter
  rw [addFields_eq]
  exact hiter

theorem text_eq (h : RequestHead) (s : List UInt8) :
    h.text ++ s =
      h.requestLine ++ CR :: LF :: (fieldLines h.fields ++ CR :: LF :: s) := by
  simp [text, CRLF]

theorem length_text (h : RequestHead) :
    h.text.length = h.requestLine.length + 2 + (fieldLines h.fields).length + 2 := by
  simp only [text, CRLF, List.length_append, List.length_cons, List.length_nil]

theorem iterates_lines (h : RequestHead) {s : List UInt8}
    (hs : c.state = .EXPECTREQUESTLINE) (hp : payload b = h.text ++ s) :
    Iterates t .outer c b .outer ⟨.EXPECTHEADERS, h.request t c.request⟩
      (clear b (h.requestLine.length + 2 + (fieldLines h.fields).length)) := by
  rw [text_eq] at hp
  have hturn := requestLineTurn_of (t := t) (c := c) hp h.noPair_requestLine h.requestLine_grammar
  rw [← turn_requestLine t b hs] at hturn
  have hfields := iterates_fields (t := t) (c := ⟨.EXPECTHEADERS,
    ((setTarget { c.request with method := h.method } h.target).setVersion
      h.version).setReceiveTime t⟩) rfl (drop_line hp)
  rw [clear_clear] at hfields
  exact .again hturn hfields

theorem payload_empty_line (h : RequestHead) {s : List UInt8} (hp : payload b = h.text ++ s) :
    payload (clear b (h.requestLine.length + 2 + (fieldLines h.fields).length)) =
      [] ++ CR :: LF :: s := by
  have hsplit : payload b = (h.requestLine ++ CRLF ++ fieldLines h.fields) ++ CR :: LF :: s := by
    rw [hp]
    simp [text, CRLF]
  rw [payload_clear, hsplit]
  refine List.drop_left' ?_
  simp only [CRLF, List.length_append, List.length_cons, List.length_nil]

/-- A GET request is complete with its head, whatever comes behind it. -/
theorem parses_get (h : RequestHead) (hget : h.method = .GET) {s : List UInt8}
    (hs : c.state = .EXPECTREQUESTLINE) (hp : payload b = h.text ++ s) :
    Parses t .outer c b (.returned true) ⟨.ALLOK, h.request t c.request⟩
      (clear b h.text.length) := by
  refine (h.iterates_lines hs hp).parses (.finish ?_)
  rw [turn_headers _ _ rfl, headersTurn_of_end _ (h.payload_empty_line hp) rfl (by simp)]
  have hmethod : (h.request t c.request).method = .GET := by
    rw [request_method, hget]
  rw [if_pos hmethod, clear_clear, length_text]
  rfl

theorem onMessage_get (h : RequestHead) (hget : h.method = .GET) {s : List UInt8}
    (callback : HttpServer.HttpCallback) (hp : payload b = h.text ++ s) :
    HttpServer.onMessage callback HttpContext.fresh b t =
      some (HttpServer.processRequest callback (h.request t HttpRequest.empty),
        HttpContext.fresh, clear b h.text.length) := by
  have hrun := h.parses_get (t := t) (c := HttpContext.fresh) hget rfl hp
  rw [HttpServer.onMessage_of_allOk HttpContext.fresh_live hrun rfl]
  simp [HttpContext.reset, HttpRequest.swap, HttpContext.fresh, HttpRequest.empty]

theorem iterates_post (h : RequestHead) (hpost : h.method ≠ .GET) {s : List UInt8}
    (hs : c.state = .EXPECTREQUESTLINE) (hp : payload b = h.text ++ s) :
    Iterates t .outer c b .outer ⟨.EXPECTBODY, h.request t c.request⟩ (clear b h.text.length) := by
  have hturn : turn t .outer ⟨.EXPECTHEADERS, h.request t c.request⟩
      (clear b (h.requestLine.length + 2 + (fieldLines h.fields).length)) =
        .again .outer ⟨.EXPECTBODY, h.request t c.request⟩ (clear b h.text.length) := by
    have hmethod : (h.request t c.request).method ≠ .GET := by
      rwa [request_method]
    rw [turn_headers _ _ rfl, headersTurn_of_end _ (h.payload_empty_line hp) rfl (by simp),
      if_neg hmethod, clear_clear, length_text]
    rfl
  exact (h.iterates_lines hs hp).trans (.again hturn .refl)

theorem waits_in_line (line : List UInt8) (hs : c.state = .EXPECTREQUESTLINE ∨ c.state = .EXPECTHEADERS)
    (hline : LF ∉ line) (hp : payload b <+: line ++ [CR]) :
    Parses t .outer c b (.returned true) c b := by
  have hnone : getCRLF b = none := by
    refine findPair_of_not_mem fun hmem => ?_
    have hmem := hp.subset hmem
    rcases List.mem_append.1 hmem with hmem | hmem
    · exact hline hmem
    · exact absurd (List.mem_singleton.1 hmem) (by decide)
  refine .finish ?_
  rcases hs with hs | hs
  · rw [turn_requestLine t b hs, requestLineTurn, hnone]
  · rw [turn_headers t b hs, headersTurn, hnone]

theorem waits_in_fields {fields : List HeaderField} (hs : c.state = .EXPECTHEADERS)
    (hp : payload b <+: fieldLines fields ++ CRLF)
    (hlt : getEOL b < (fieldLines fields ++ CRLF).length) :
    ∃ c' b', Parses t .outer c b (.returned true) c' b' ∧ c'.state = .EXPECTHEADERS := by
  induction fields generalizing c b with
  | nil =>
    refine ⟨c, b, waits_in_line [] (Or.inr hs) List.not_mem_nil ?_, hs⟩
    refine List.prefix_of_prefix_length_le hp ⟨[LF], rfl⟩ ?_
    simp only [getEOL, fieldLines, CRLF, List.flatMap_nil, List.nil_append, List.length_cons,
      List.length_nil] at hlt ⊢
    omega
  | cons f fields ih =>
    rw [fieldLines_cons, List.append_assoc, List.cons_append, List.cons_append] at hp
    rcases prefix_line_cases hp with hshort | ⟨tail, heq, htail⟩
    · exact ⟨c, b, waits_in_line _ (Or.inr hs) f.line_free.2 hshort, hs⟩
    · have hrest := drop_line heq
      obtain ⟨c', b', hrun, hstate⟩ := ih
        (c := { c with request := withHeader c.request f.name (fieldValue f.rest) })
        (b := clear b (f.line.length + 2)) hs (by rw [hrest]; exact htail) (by
          rw [getEOL, heq, fieldLines_cons] at hlt
          rw [getEOL, hrest]
          simp only [List.length_append, List.length_cons] at hlt ⊢
          omega)
      refine ⟨c', b', .again ?_ hrun, hstate⟩
      rw [turn_headers t b hs]
      exact headersTurn_of_field c heq f.noPair_line f.name_free

theorem requestLine_lf_free (h : RequestHead) : LF ∉ h.requestLine := by
  have hmethod : LF ∉ methodString h.method := by
    cases h.method <;> decide
  have hversion : LF ∉ versionString h.version := by
    cases h.version <;> decide
  simp only [requestLine, List.mem_append, List.mem_cons, not_or]
  exact ⟨hmethod, by decide, h.target_free.2.2, by decide, hversion⟩

/-- Before its last byte has come, the parser waits in the head. -/
theorem parses_prefix (h : RequestHead) (hs : c.state = .EXPECTREQUESTLINE)
    (hp : payload b <+: h.text) (hlt : getEOL b < h.text.length) :
    ∃ c' b', Parses t .outer c b (.returned true) c' b' ∧ c'.state ≠ .ALLOK := by
  have htext : h.text = h.requestLine ++ CR :: LF :: (fieldLines h.fields ++ CRLF) := by
    simp [text, CRLF]
  rw [htext] at hp
  rcases prefix_line_cases hp with hshort | ⟨tail, heq, htail⟩
  · exact ⟨c, b, waits_in_line _ (Or.inl hs) h.requestLine_lf_free hshort, by rw [hs]; simp⟩
  · have hrest := drop_line heq
    obtain ⟨c', b', hrun, hstate⟩ := waits_in_fields (t := t)
      (c := ⟨.EXPECTHEADERS,
        ((setTarget { c.request with method := h.method } h.target).setVersion
          h.version).setReceiveTime t⟩)
      (b := clear b (h.requestLine.length + 2)) rfl (by rw [hrest]; exact htail) (by
        rw [getEOL, heq, htext] at hlt
        rw [getEOL, hrest]
        simp only [List.length_append, List.length_cons] at hlt ⊢
        omega)
    refine ⟨c', b', .again ?_ hrun, by rw [hstate]; simp⟩
    rw [turn_requestLine t b hs]
    exact requestLineTurn_of heq h.noPair_requestLine h.requestLine_grammar

end RequestHead
end HydrogenWeb
