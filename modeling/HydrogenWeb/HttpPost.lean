import HydrogenWeb.HttpWire

set_option autoImplicit false

/-!
# POST requests on the wire

A body of pairs and header lines that announce its length. The names of header fields
are compared without regard to case here, as the protocol has it; the code only finds a
length under the exact name.
-/
namespace HydrogenWeb
open ListSearch ByteBuffer HttpContext HttpRequest

def toLower (c : UInt8) : UInt8 := if byte 'A' ≤ c ∧ c ≤ byte 'Z' then c + 32 else c

/-- The field is a Content-Length, in any case of its letters. -/
def HeaderField.isContentLength (f : HeaderField) : Prop :=
  f.name.map toLower = bytes "content-length"

instance (f : HeaderField) : Decidable f.isContentLength := inferInstanceAs (Decidable (_ = _))

def HeaderField.Holds (f : HeaderField) (n : ℕ) : Prop :=
  ∃ before digits after, f.rest = before ++ digits ++ after ∧
    (∀ c ∈ before ++ after, c = byte ' ' ∨ c = byte '\t') ∧
    digits ≠ [] ∧ (∀ c ∈ digits, isdigit c = true) ∧ decimal digits = n

/-- A GET request has no body; a POST request announces the length of its form. -/
inductive WireRequest where
  | get (head : RequestHead) (method : head.method = .GET)
  | post (head : RequestHead) (method : head.method = .POST) (p : FormPair) (pairs : List FormPair)
      (present : ∃ f ∈ head.fields, f.isContentLength)
      (correct : ∀ f ∈ head.fields, f.isContentLength → f.Holds (formText p pairs).length)

def lengthThree : HeaderField where
  name := bytes "Content-Length"
  rest := bytes " 3"
  name_free := contentLength_free
  line_free := by decide

theorem a_free : byte '=' ∉ bytes "a" ∧ byte '&' ∉ bytes "a" := by decide

theorem one_free : byte '&' ∉ bytes "1" := by decide

def rootPost : WireRequest :=
  .post ⟨.POST, bytes "/", .HTTP11, [lengthThree], post_known, http11_supported, root_free⟩ rfl
    ⟨bytes "a", bytes "1", a_free, one_free⟩ [] ⟨lengthThree, by simp, by decide⟩ <| by
      intro f hf _
      rw [List.mem_singleton.1 hf]
      exact ⟨bytes " ", bytes "3", [], rfl, by decide +kernel, by decide, by decide +kernel, rfl⟩

namespace WireRequest

def isGet : WireRequest → Bool
  | get _ _ => true
  | post _ _ _ _ _ _ => false

def head : WireRequest → RequestHead
  | get head _ => head
  | post head _ _ _ _ _ => head

def body : WireRequest → List UInt8
  | get _ _ => []
  | post _ _ p pairs _ _ => formText p pairs

def text (w : WireRequest) : List UInt8 := w.head.text ++ w.body

end WireRequest

section Numbers

theorem isspace_of_blank {c : UInt8} (h : c = byte ' ' ∨ c = byte '\t') : isspace c = true := by
  rcases h with rfl | rfl <;> decide

theorem not_isspace_of_isdigit {c : UInt8} (h : isdigit c = true) : isspace c = false := by
  simp only [isdigit, isspace, Bool.and_eq_true, decide_eq_true_eq, UInt8.le_iff_toNat_le] at h ⊢
  obtain ⟨hlow, -⟩ := h
  have hzero : (byte '0').toNat = 48 := rfl
  have hne : c ≠ 32 := by
    rintro rfl
    exact absurd hlow (by decide)
  have h13 : (13 : UInt8).toNat = 13 := rfl
  simp only [hne, decide_false, Bool.false_or, Bool.and_eq_false_iff, decide_eq_false_iff_not]
  right
  omega

theorem not_sign_of_isdigit {c : UInt8} (h : isdigit c = true) : c ≠ byte '-' ∧ c ≠ byte '+' := by
  constructor <;> rintro rfl <;> exact absurd h (by decide)

/-- A decimal numeral is converted to its value or is out of the range of `int`. -/
theorem stoi_digits {digits : List UInt8} (hne : digits ≠ [])
    (hdigits : ∀ c ∈ digits, isdigit c = true) :
    stoi digits =
      if decimal digits < 2 ^ 31 then .ok (decimal digits : ℤ) else .error .out_of_range := by
  obtain ⟨c, l, rfl⟩ := List.exists_cons_of_ne_nil hne
  have hc := hdigits c List.mem_cons_self
  obtain ⟨hminus, hplus⟩ := not_sign_of_isdigit hc
  have hspace : (c :: l).dropWhile isspace = c :: l := by
    rw [List.dropWhile_cons, not_isspace_of_isdigit hc]
    rfl
  have htake : (c :: l).takeWhile isdigit = c :: l := List.takeWhile_eq_self_iff.2 hdigits
  simp only [stoi, hspace, if_neg hminus, if_neg hplus, htake, if_neg hne, one_mul]
  by_cases hrange : decimal (c :: l) < 2 ^ 31
  · rw [if_pos hrange, if_pos (by omega)]
  · rw [if_neg hrange, if_neg (by omega)]

theorem HeaderField.Holds.stoi_fieldValue {f : HeaderField} {n : ℕ} (h : f.Holds n) :
    stoi (fieldValue f.rest) = if n < 2 ^ 31 then .ok (n : ℤ) else .error .out_of_range := by
  obtain ⟨before, digits, after, hrest, hblanks, hne, hdigits, rfl⟩ := h
  rw [hrest, fieldValue_trimmed hne (fun c hc => isspace_of_blank (hblanks c hc))
    (not_isspace_of_isdigit (hdigits _ (List.head_mem hne)))
    (not_isspace_of_isdigit (hdigits _ (List.getLast_mem hne)))]
  exact stoi_digits hne hdigits

end Numbers

section Headers

variable {key : List UInt8} {fields : List HeaderField} {r : HttpRequest}

/-- The last field of a name gives the value, so every field of the name must have `Q`. -/
theorem getHeader_addFields {Q : List UInt8 → Prop}
    (hfields : ∀ f ∈ fields, f.name = key → Q (fieldValue f.rest))
    (h : (∃ f ∈ fields, f.name = key) ∨ Q (r.getHeader key)) :
    Q ((RequestHead.addFields r fields).getHeader key) := by
  induction fields generalizing r with
  | nil =>
    rcases h with ⟨f, hf, -⟩ | h
    · cases hf
    · exact h
  | cons f fields ih =>
    refine ih (fun g hg => hfields g (List.mem_cons_of_mem _ hg)) ?_
    rw [getHeader_withHeader]
    by_cases hname : f.name = key
    · rw [if_pos hname]
      exact Or.inr (hfields f List.mem_cons_self hname)
    · rw [if_neg hname]
      refine h.imp_left ?_
      rintro ⟨g, hg, hkey⟩
      rcases List.mem_cons.1 hg with rfl | hg
      · exact absurd hkey hname
      · exact ⟨g, hg, hkey⟩

end Headers

namespace WireRequest

def Spelled (head : RequestHead) : Prop := ∃ f ∈ head.fields, f.name = bytes "Content-Length"

variable {β : Type} [ByteBuffer β] {t : ℤ} {c : HttpContext} {b : β} {head : RequestHead}
  {body d : List UInt8}

theorem stoi_length (hlength : ∀ f ∈ head.fields, f.isContentLength → f.Holds body.length)
    (hc : c.request.getHeader (bytes "Content-Length") = []) :
    (Spelled head ∧ body.length < 2 ^ 31 →
      stoi ((head.request t c.request).getHeader (bytes "Content-Length")) =
        .ok (body.length : ℤ)) ∧
    (¬ (Spelled head ∧ body.length < 2 ^ 31) →
      ∃ e, stoi ((head.request t c.request).getHeader (bytes "Content-Length")) = .error e) := by
  have hvalue : ∀ f ∈ head.fields, f.name = bytes "Content-Length" →
      stoi (fieldValue f.rest) =
        if body.length < 2 ^ 31 then .ok (body.length : ℤ) else .error .out_of_range := by
    intro f hf hname
    have hlower : f.isContentLength := by
      rw [HeaderField.isContentLength, hname]
      decide
    exact (hlength f hf hlower).stoi_fieldValue
  have hbase : ∀ q : HttpRequest, q.headers = c.request.headers →
      q.getHeader (bytes "Content-Length") = [] := by
    intro q hq
    rw [← hc, getHeader, getHeader, hq]
  constructor
  · rintro ⟨hspelled, hrange⟩
    refine getHeader_addFields (Q := fun value => stoi value = .ok (body.length : ℤ)) ?_
      (Or.inl hspelled)
    intro f hf hname
    rw [hvalue f hf hname, if_pos hrange]
  · intro hbad
    by_cases hspelled : Spelled head
    · refine ⟨.out_of_range, getHeader_addFields
        (Q := fun value => stoi value = .error .out_of_range) ?_ (Or.inl hspelled)⟩
      intro f hf hname
      rw [hvalue f hf hname, if_neg fun hrange => hbad ⟨hspelled, hrange⟩]
    · refine ⟨.invalid_argument, getHeader_addFields
        (Q := fun value => stoi value = .error .invalid_argument) ?_ (Or.inr ?_)⟩
      · intro f hf hname
        exact absurd ⟨f, hf, hname⟩ hspelled
      · rw [hbase _ (by simp [setReceiveTime, setVersion])]
        rfl

/-- A POST request whose body is there: it is complete, and the reader index ends up one
byte behind it. -/
theorem parses_complete_post (hpost : head.method = .POST)
    (hlength : ∀ f ∈ head.fields, f.isContentLength → f.Holds body.length)
    (hspelled : Spelled head) (hrange : body.length < 2 ^ 31) (hform : FormBody body)
    (hs : c.state = .EXPECTREQUESTLINE) (hc : c.request.getHeader (bytes "Content-Length") = [])
    (hp : payload b = head.text ++ body) :
    ∃ c', Parses t .outer c b (.returned true) c' (clear b ((head.text ++ body).length + 1)) ∧
      c'.state = .ALLOK := by
  have hstoi := (stoi_length (t := t) hlength hc).1 ⟨hspelled, hrange⟩
  have hrest : payload (clear b head.text.length) = body := by
    rw [payload_clear, hp, List.drop_left]
  obtain ⟨c', hrun, hok⟩ := parses_of_formBody hform t
    ⟨.EXPECTBODY, head.request t c.request⟩ (clear b head.text.length) hrest
  rw [clear_clear, ← Nat.add_assoc, ← List.length_append] at hrun
  refine ⟨c', (head.iterates_post (by rw [hpost]; simp) hs hp).parses (.again ?_ hrun), hok⟩
  rw [turn_length t _ rfl, lengthTurn_of_ok (c := ⟨.EXPECTBODY, head.request t c.request⟩) _ hstoi,
    getEOL, hrest]
  refine if_neg (not_not.2 ?_)
  rw [Int.bmod_eq_of_le] <;> omega

theorem parses_partial_post (hpost : head.method = .POST)
    (hlength : ∀ f ∈ head.fields, f.isContentLength → f.Holds body.length)
    (hs : c.state = .EXPECTREQUESTLINE) (hc : c.request.getHeader (bytes "Content-Length") = [])
    (hp : payload b = head.text ++ d) :
    (Spelled head ∧ body.length < 2 ^ 31 → d.length < body.length →
      ∃ c' b', Parses t .outer c b (.returned false) c' b') ∧
    (¬ (Spelled head ∧ body.length < 2 ^ 31) →
      ∃ e c' b', Parses t .outer c b (.threw e) c' b') := by
  obtain ⟨hgood, hbad⟩ := stoi_length (t := t) hlength hc
  have hrest : payload (clear b head.text.length) = d := by
    rw [payload_clear, hp, List.drop_left]
  constructor
  · rintro ⟨hspelled, hrange⟩ hshort
    have hstoi := hgood ⟨hspelled, hrange⟩
    refine ⟨⟨.EXPECTBODY, head.request t c.request⟩, clear b head.text.length,
      (head.iterates_post (by rw [hpost]; simp) hs hp).parses (.finish ?_)⟩
    rw [turn_length t _ rfl,
      lengthTurn_of_ok (c := ⟨.EXPECTBODY, head.request t c.request⟩) _ hstoi,
      getEOL, hrest]
    refine if_pos ?_
    rw [Int.bmod_eq_of_le] <;> omega
  · intro hnot
    obtain ⟨e, he⟩ := hbad hnot
    refine ⟨e, ⟨.EXPECTBODY, head.request t c.request⟩, clear b head.text.length,
      (head.iterates_post (by rw [hpost]; simp) hs hp).parses (.finish ?_)⟩
    rw [turn_length t _ rfl]
    exact lengthTurn_of_error _ he

end WireRequest
end HydrogenWeb
