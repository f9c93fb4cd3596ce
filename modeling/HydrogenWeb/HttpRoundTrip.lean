import HydrogenWeb.HttpWire

set_option autoImplicit false

/-!
# Reading back a written GET request

The text of a request is built from its path, its query and its header fields, and
`parseRequest` gets them back, whatever comes behind the empty line.
-/
namespace HydrogenWeb
open ListSearch ByteBuffer HttpContext HttpRequest MapUpdates

/-- A header field whose value neither starts nor ends with white space. -/
structure WrittenField where
  name : List UInt8
  value : List UInt8
  name_free : byte ':' ∉ name ∧ CR ∉ name ∧ LF ∉ name
  value_free : CR ∉ value ∧ LF ∉ value
  nonempty : value ≠ []
  first : isspace (value.head nonempty) = false
  last : isspace (value.getLast nonempty) = false

structure WrittenGet where
  path : List UInt8
  query : Option (List UInt8)
  version : Version
  fields : List WrittenField
  path_free : byte ' ' ∉ path ∧ byte '?' ∉ path ∧ CR ∉ path ∧ LF ∉ path
  query_free : ∀ q ∈ query, byte ' ' ∉ q ∧ CR ∉ q ∧ LF ∉ q
  supported : version ≠ .UNKNOWN

namespace WrittenField

def line (f : WrittenField) : List UInt8 := f.name ++ bytes ": " ++ f.value

def header (f : WrittenField) : HeaderField where
  name := f.name
  rest := byte ' ' :: f.value
  name_free := f.name_free.1
  line_free := by
    simp only [List.mem_append, List.mem_cons, not_or]
    exact ⟨⟨f.name_free.2.1, by decide, by decide, f.value_free.1⟩,
      f.name_free.2.2, by decide, by decide, f.value_free.2⟩

theorem header_line (f : WrittenField) : f.header.line = f.line := by
  have hsep : bytes ": " = [byte ':', byte ' '] := by decide
  rw [line, hsep, List.append_assoc]
  rfl

end WrittenField

/-- The blank behind the colon and the CR are trimmed off, and nothing else. -/
theorem WrittenField.fieldValue_header (f : WrittenField) : fieldValue f.header.rest = f.value := by
  have hrest : f.header.rest = [byte ' '] ++ f.value ++ [] := (List.append_nil _).symm
  have hblank : ∀ c ∈ [byte ' '] ++ [], isspace c = true := by
    intro c hc
    rw [List.append_nil, List.mem_singleton] at hc
    rw [hc]
    decide
  rw [hrest]
  exact fieldValue_trimmed f.nonempty hblank f.first f.last

namespace WrittenGet

def target (g : WrittenGet) : List UInt8 :=
  g.path ++ g.query.elim [] fun q => byte '?' :: q

def text (g : WrittenGet) : List UInt8 :=
  bytes "GET " ++ g.target ++ bytes " " ++ versionString g.version ++ CRLF ++
    g.fields.flatMap (fun f => f.line ++ CRLF) ++ CRLF

def head (g : WrittenGet) : RequestHead where
  method := .GET
  target := g.target
  version := g.version
  fields := g.fields.map WrittenField.header
  known := get_known
  supported := g.supported
  target_free := by
    rw [target]
    cases hquery : g.query with
    | none =>
      rw [Option.elim_none, List.append_nil]
      exact ⟨g.path_free.1, g.path_free.2.2⟩
    | some q =>
      have hq := g.query_free q hquery
      simp only [Option.elim_some, List.mem_append, List.mem_cons, not_or]
      exact ⟨⟨g.path_free.1, by decide, hq.1⟩, ⟨g.path_free.2.2.1, by decide, hq.2.1⟩,
        g.path_free.2.2.2, by decide, hq.2.2⟩

theorem head_text (g : WrittenGet) : g.head.text = g.text := by
  have hlines : RequestHead.fieldLines g.head.fields =
      g.fields.flatMap (fun f => f.line ++ CRLF) := by
    rw [RequestHead.fieldLines, head, List.flatMap_map]
    simp only [WrittenField.header_line]
  have hmethod : bytes "GET " = bytes "GET" ++ [byte ' '] := by decide
  have hblank : bytes " " = [byte ' '] := by decide
  rw [RequestHead.text, hlines, text, hmethod, hblank, RequestHead.requestLine]
  simp [head, methodString]

def lastValue (fields : List WrittenField) (name : List UInt8) : Option (List UInt8) :=
  (fields.reverse.find? fun f => f.name = name).map WrittenField.value

theorem lastValue_eq (fields : List WrittenField) (name : List UInt8) :
    lastValue fields name = last (fields.map fun f => (f.name, f.value)) name := by
  rw [lastValue, last, ← List.map_reverse, List.find?_map, Option.map_map]
  rfl

theorem addFields_headers (r : HttpRequest) (fields : List WrittenField) (name : List UInt8) :
    (RequestHead.addFields r (fields.map WrittenField.header)).headers[name]? =
      (lastValue fields name).or r.headers[name]? := by
  have hentries : (fields.map WrittenField.header).map HeaderField.entry =
      fields.map fun f => (f.name, f.value) := by
    rw [List.map_map]
    refine List.map_congr_left fun f _ => ?_
    change (f.name, fieldValue f.header.rest) = _
    rw [f.fieldValue_header]
  rw [RequestHead.addFields_eq, hentries, withEntries, getElem?_updates, ← lastValue_eq]

theorem addFields_target (r : HttpRequest) (fields : List HeaderField) :
    (RequestHead.addFields r fields).path = r.path ∧
      (RequestHead.addFields r fields).query = r.query ∧
      (RequestHead.addFields r fields).version = r.version := by
  induction fields generalizing r with
  | nil => exact ⟨rfl, rfl, rfl⟩
  | cons f fields ih => exact ih _

theorem setTarget_target (g : WrittenGet) (r : HttpRequest) (hr : r.query = []) :
    (setTarget r g.target).path = g.path ∧ (setTarget r g.target).query = g.query.getD [] := by
  rw [setTarget, target]
  cases g.query with
  | none =>
    rw [Option.elim_none, List.append_nil, find_eq_none.2 g.path_free.2.1]
    exact ⟨rfl, hr⟩
  | some q =>
    rw [Option.elim_some, find_append_cons g.path_free.2.1]
    exact ⟨List.take_left, drop_past _ _ _⟩

variable {β : Type} [ByteBuffer β]

/-- Parsing a GET request undoes writing it, and leaves what comes behind it. -/
theorem parseRequest_text (g : WrittenGet) (suffix : List UInt8) (t : ℤ) (b : β)
    (hb : payload b = g.text ++ suffix) : ∃ r b',
    HttpContext.parseRequest t HttpContext.fresh b = some (.returned true, ⟨.ALLOK, r⟩, b') ∧
      r.method = .GET ∧ r.path = g.path ∧ r.query = g.query.getD [] ∧ r.version = g.version ∧
      (∀ name, r.headers[name]? = lastValue g.fields name) ∧ payload b' = suffix := by
  rw [← head_text] at hb
  have hrun := g.head.parses_get (t := t) (c := HttpContext.fresh) rfl rfl hb
  obtain ⟨hpath, hquery, hversion⟩ := addFields_target
    (((setTarget { HttpRequest.empty with method := .GET } g.target).setVersion
      g.version).setReceiveTime t) g.head.fields
  obtain ⟨htarget, hafter⟩ := g.setTarget_target { HttpRequest.empty with method := .GET } rfl
  refine ⟨_, _, (parseRequest_iff HttpContext.fresh_live).2 hrun, ?_, ?_, ?_, ?_, ?_, ?_⟩
  · exact RequestHead.request_method _ _ _
  · exact hpath.trans htarget
  · exact hquery.trans hafter
  · exact hversion
  · intro name
    apply (addFields_headers _ g.fields name).trans
    rw [setReceiveTime, setVersion, setTarget_headers]
    simp [HttpContext.fresh, HttpRequest.empty]
  · rw [payload_clear, hb, List.drop_left]

def twoFields : WrittenGet where
  path := bytes "/a"
  query := some (bytes "b?c")
  version := .HTTP11
  fields := [⟨bytes "Host", bytes "x:80", by decide, by decide, by decide, by decide, by decide⟩,
    ⟨bytes "Host", bytes "y", by decide, by decide, by decide, by decide, by decide⟩]
  path_free := by decide
  query_free := by decide
  supported := http11_supported

/-- The first CRLF of the bytes behind the request is not taken for a line of it. -/
theorem parseRequest_text_of_twoFields : ∃ r b',
    HttpContext.parseRequest 0 HttpContext.fresh (twoFields.text ++ CRLF) =
      some (.returned true, ⟨.ALLOK, r⟩, b') ∧
      r.method = .GET ∧ r.path = bytes "/a" ∧ r.query = bytes "b?c" ∧ r.version = .HTTP11 ∧
      (∀ name, r.headers[name]? = lastValue twoFields.fields name) ∧ payload b' = CRLF :=
  parseRequest_text twoFields CRLF 0 (twoFields.text ++ CRLF) rfl

end WrittenGet
end HydrogenWeb
