import HydrogenWeb.HttpBodyPieces
import HydrogenWeb.HttpPost

set_option autoImplicit false

/-!
# The announced length

`std::stoi` reads a number from the front of a string. What `parseRequest` makes of a
Content-Length is settled here for every value and for all bytes behind the head.
-/
namespace HydrogenWeb
open ListSearch ByteBuffer HttpContext HttpRequest

/-- A decimal numeral of `n`, with nothing around it. -/
structure Numeral (value : List UInt8) (n : ℕ) : Prop where
  nonempty : value ≠ []
  digits : ∀ c ∈ value, isdigit c = true
  number : decimal value = n

/-- White space, a sign or none, a numeral as long as it goes, and anything behind it. -/
structure LeadingInt (value : List UInt8) (n : ℤ) : Prop where
  shape : ∃ blanks sign digits tail, value = blanks ++ (sign ++ (digits ++ tail)) ∧
    (∀ c ∈ blanks, isspace c = true) ∧ digits ≠ [] ∧ (∀ c ∈ digits, isdigit c = true) ∧
    (∀ c ∈ tail.head?, isdigit c = false) ∧
    ((sign = [] ∨ sign = [byte '+']) ∧ n = decimal digits ∨
      sign = [byte '-'] ∧ n = -decimal digits)
  range : -2 ^ 31 ≤ n ∧ n < 2 ^ 31

section Stoi

def signedDigits (σ : ℤ) (s : List UInt8) : Except StoiException ℤ :=
  if s.takeWhile isdigit = [] then .error .invalid_argument
  else if -2 ^ 31 ≤ σ * decimal (s.takeWhile isdigit) ∧ σ * decimal (s.takeWhile isdigit) < 2 ^ 31
    then .ok (σ * decimal (s.takeWhile isdigit)) else .error .out_of_range

theorem stoi_minus {blanks s : List UInt8} (hblanks : ∀ c ∈ blanks, isspace c = true) :
    stoi (blanks ++ byte '-' :: s) = signedDigits (-1) s := by
  have hdrop : (blanks ++ byte '-' :: s).dropWhile isspace = byte '-' :: s := by
    rw [List.dropWhile_append_of_pos hblanks, List.dropWhile_cons_of_neg (by decide)]
  simp only [stoi, hdrop, if_true]
  rfl

theorem stoi_plus {blanks s : List UInt8} (hblanks : ∀ c ∈ blanks, isspace c = true) :
    stoi (blanks ++ byte '+' :: s) = signedDigits 1 s := by
  have hdrop : (blanks ++ byte '+' :: s).dropWhile isspace = byte '+' :: s := by
    rw [List.dropWhile_append_of_pos hblanks, List.dropWhile_cons_of_neg (by decide)]
  have hne : byte '+' ≠ byte '-' := by decide
  simp only [stoi, hdrop, if_neg hne, if_true]
  rfl

theorem stoi_unsigned {blanks s : List UInt8} (hblanks : ∀ c ∈ blanks, isspace c = true)
    (hs : ∀ c ∈ s.head?, isspace c = false ∧ c ≠ byte '-' ∧ c ≠ byte '+') :
    stoi (blanks ++ s) = signedDigits 1 s := by
  cases s with
  | nil =>
    have hdrop : (blanks ++ []).dropWhile isspace = [] := by
      rw [List.dropWhile_append_of_pos hblanks, List.dropWhile_nil]
    simp only [stoi, hdrop]
    rfl
  | cons c s =>
    obtain ⟨hspace, hminus, hplus⟩ := hs c rfl
    have hdrop : (blanks ++ c :: s).dropWhile isspace = c :: s := by
      rw [List.dropWhile_append_of_pos hblanks, List.dropWhile_cons_of_neg (by simp [hspace])]
    simp only [stoi, hdrop, if_neg hminus, if_neg hplus]
    rfl

/-- Every string is of one of these forms. -/
theorem stoi_cases (s : List UInt8) : ∃ blanks sign rest, s = blanks ++ (sign ++ rest) ∧
    (∀ c ∈ blanks, isspace c = true) ∧
    ((sign = [] ∨ sign = [byte '+']) ∧ stoi s = signedDigits 1 rest ∨
      sign = [byte '-'] ∧ stoi s = signedDigits (-1) rest) := by
  have hsplit : s.takeWhile isspace ++ s.dropWhile isspace = s := List.takeWhile_append_dropWhile
  have hblanks : ∀ c ∈ s.takeWhile isspace, isspace c = true := fun c hc =>
    List.mem_takeWhile_imp hc
  have hhead := head_dropWhile isspace s
  generalize s.takeWhile isspace = blanks at hsplit hblanks
  generalize s.dropWhile isspace = rest at hsplit hhead
  subst hsplit
  by_cases hminus : ∃ tail, rest = byte '-' :: tail
  · obtain ⟨tail, rfl⟩ := hminus
    exact ⟨blanks, [byte '-'], tail, rfl, hblanks, Or.inr ⟨rfl, stoi_minus hblanks⟩⟩
  · by_cases hplus : ∃ tail, rest = byte '+' :: tail
    · obtain ⟨tail, rfl⟩ := hplus
      exact ⟨blanks, [byte '+'], tail, rfl, hblanks, Or.inl ⟨Or.inr rfl, stoi_plus hblanks⟩⟩
    · refine ⟨blanks, [], rest, rfl, hblanks, Or.inl ⟨Or.inl rfl, stoi_unsigned hblanks ?_⟩⟩
      intro c hc
      obtain ⟨tail, rfl⟩ : ∃ tail, rest = c :: tail := List.head?_eq_some_iff.1 hc
      exact ⟨hhead c hc, fun heq => hminus ⟨tail, by rw [heq]⟩, fun heq => hplus ⟨tail, by rw [heq]⟩⟩

theorem signedDigits_eq_ok_iff (σ n : ℤ) (s : List UInt8) :
    signedDigits σ s = .ok n ↔ ∃ digits tail, s = digits ++ tail ∧ digits ≠ [] ∧
      (∀ c ∈ digits, isdigit c = true) ∧ (∀ c ∈ tail.head?, isdigit c = false) ∧
      n = σ * decimal digits ∧ -2 ^ 31 ≤ n ∧ n < 2 ^ 31 := by
  constructor
  · intro h
    rw [signedDigits] at h
    split at h
    · cases h
    · rename_i hne
      split at h
      · rename_i hrange
        cases h
        refine ⟨s.takeWhile isdigit, s.dropWhile isdigit, List.takeWhile_append_dropWhile.symm, hne,
          fun c hc => List.mem_takeWhile_imp hc, head_dropWhile isdigit s, rfl, hrange⟩
      · cases h
  · rintro ⟨digits, tail, rfl, hne, hdigits, htail, rfl, hrange⟩
    have htake : (digits ++ tail).takeWhile isdigit = digits := by
      rw [List.takeWhile_append_of_pos hdigits]
      cases tail with
      | nil => simp
      | cons c tail => simp [htail c rfl]
    rw [signedDigits, htake, if_neg hne, if_pos hrange]

/-- The grammar of what `std::stoi` accepts. -/
theorem stoi_eq_ok_iff (s : List UInt8) (n : ℤ) : stoi s = .ok n ↔ LeadingInt s n := by
  constructor
  · intro h
    obtain ⟨blanks, sign, rest, rfl, hblanks, hsign⟩ := stoi_cases s
    rcases hsign with ⟨hsign, heq⟩ | ⟨hsign, heq⟩ <;> rw [heq] at h
    · obtain ⟨digits, tail, rfl, hne, hdigits, htail, hn, hrange⟩ :=
        (signedDigits_eq_ok_iff _ _ _).1 h
      rw [one_mul] at hn
      exact ⟨⟨blanks, sign, digits, tail, rfl, hblanks, hne, hdigits, htail, Or.inl ⟨hsign, hn⟩⟩,
        hrange⟩
    · obtain ⟨digits, tail, rfl, hne, hdigits, htail, hn, hrange⟩ :=
        (signedDigits_eq_ok_iff _ _ _).1 h
      rw [neg_one_mul] at hn
      exact ⟨⟨blanks, sign, digits, tail, rfl, hblanks, hne, hdigits, htail, Or.inr ⟨hsign, hn⟩⟩,
        hrange⟩
  · rintro ⟨⟨blanks, sign, digits, tail, rfl, hblanks, hne, hdigits, htail, hsign⟩, hrange⟩
    rcases hsign with ⟨rfl | rfl, rfl⟩ | ⟨rfl, rfl⟩
    · rw [List.nil_append, stoi_unsigned hblanks, signedDigits_eq_ok_iff]
      · exact ⟨digits, tail, rfl, hne, hdigits, htail, (one_mul _).symm, hrange⟩
      · intro c hc
        obtain ⟨d, digits, rfl⟩ := List.exists_cons_of_ne_nil hne
        rw [List.cons_append, List.head?_cons, Option.mem_some_iff] at hc
        subst hc
        have hd := hdigits d List.mem_cons_self
        exact ⟨not_isspace_of_isdigit hd, not_sign_of_isdigit hd⟩
    · rw [List.singleton_append, stoi_plus hblanks, signedDigits_eq_ok_iff]
      exact ⟨digits, tail, rfl, hne, hdigits, htail, (one_mul _).symm, hrange⟩
    · rw [List.singleton_append, stoi_minus hblanks, signedDigits_eq_ok_iff]
      exact ⟨digits, tail, rfl, hne, hdigits, htail, (neg_one_mul _).symm, hrange⟩

end Stoi

namespace HttpContext

variable {β : Type} [ByteBuffer β] {t : ℤ} {c c' c₁ : HttpContext} {b b' b₁ : β} {o : Outcome}

/-- How a call goes on from EXPECTBODY. -/
theorem outcome_of_length (hstate : c.state = .EXPECTBODY) (h : Parses t .outer c b o c' b') :
    (∃ e, o = .threw e ∧ stoi (c.request.getHeader (bytes "Content-Length")) = .error e) ∨
    ∃ n, stoi (c.request.getHeader (bytes "Content-Length")) = .ok n ∧
      o = if n = Int.bmod (payload b).length (2 ^ 32) then bodyOutcome (payload b)
        else .returned false := by
  cases hstoi : stoi (c.request.getHeader (bytes "Content-Length")) with
  | error e =>
    left
    have hturn := lengthTurn_of_error (c := c) b hstoi
    rw [← turn_length t b hstate] at hturn
    obtain ⟨rfl, -, -⟩ := h.unique (.finish hturn)
    exact ⟨e, rfl, rfl⟩
  | ok n =>
    right
    refine ⟨n, rfl, ?_⟩
    have hturn := lengthTurn_of_ok (c := c) b hstoi
    rw [← turn_length t b hstate] at hturn
    change _ = if n ≠ Int.bmod (payload b).length (2 ^ 32) then _ else _ at hturn
    by_cases hn : n = Int.bmod (payload b).length (2 ^ 32)
    · rw [if_neg (not_not.2 hn)] at hturn
      rw [if_pos hn]
      exact outcome_of_body (h.of_iterates (.again hturn .refl)) rfl
    · rw [if_pos hn] at hturn
      obtain ⟨rfl, -, -⟩ := h.unique (.finish hturn)
      rw [if_neg hn]

/-- A call that comes to the body with the value `value` under Content-Length and the bytes
`rest` behind the head returns, and with false unless the value is the numeral of their number. -/
def LengthHandled (t : ℤ) (c : HttpContext) (b : β) (value rest : List UInt8) : Prop :=
  ∃ correct c' b', parseRequest t c b = some (.returned correct, c', b') ∧
    (¬ Numeral value rest.length → correct = false ∧
      ∀ callback, HttpServer.onMessage callback c b t = some (HttpServer.badRequest, c', b'))

theorem LengthHandled.of_rejected {value rest : List UInt8} (hlive : c.state ≠ .ALLOK)
    (h : Parses t .outer c b (.returned false) c' b') : LengthHandled t c b value rest := by
  have hwait : c'.state ≠ .ALLOK := fun hok => by
    have hend := returned_of_allOk h hlive hok
    cases hend
  exact ⟨false, c', b', (parseRequest_iff hlive).2 h, fun _ =>
    ⟨rfl, fun callback => HttpServer.onMessage_of_waiting hlive h hwait⟩⟩

theorem lengthHandled_iff (h : Iterates t .outer c b .outer c₁ b₁)
    (hstate : c₁.state = .EXPECTBODY) :
    LengthHandled t c b (c₁.request.getHeader (bytes "Content-Length")) (payload b₁) ↔
      ∃ n, LeadingInt (c₁.request.getHeader (bytes "Content-Length")) n ∧
        (n = Int.bmod (payload b₁).length (2 ^ 32) → Orderly (payload b₁) ∧
          (Numeral (c₁.request.getHeader (bytes "Content-Length")) (payload b₁).length ∨
            ¬ FormBody (payload b₁))) := by
  have hlive := h.live rfl (by simp [hstate])
  obtain ⟨o, c', b', hrun⟩ := parseRequest_total t b hlive
  have houtcome := outcome_of_length hstate (hrun.of_iterates h)
  simp only [← stoi_eq_ok_iff]
  constructor
  · rintro ⟨correct, c₂, b₂, hcall, hrejects⟩
    obtain ⟨rfl, rfl, rfl⟩ := hrun.unique ((parseRequest_iff hlive).1 hcall)
    rcases houtcome with ⟨e, he, -⟩ | ⟨n, hstoi, hend⟩
    · cases he
    · refine ⟨n, hstoi, fun hn => ?_⟩
      rw [if_pos hn] at hend
      constructor
      · by_contra hnot
        rw [(bodyOutcome_badRange_iff _).2 hnot] at hend
        cases hend
      · by_contra hboth
        obtain ⟨hnumeral, hform⟩ := not_or.1 hboth
        rw [(bodyOutcome_true_iff _).2 (not_not.1 hform), (hrejects hnumeral).1] at hend
        cases hend
  · rintro ⟨n, hstoi, hgood⟩
    rcases houtcome with ⟨e, -, hthrew⟩ | ⟨k, hstoi₂, hend⟩
    · rw [hstoi] at hthrew
      cases hthrew
    · rw [hstoi] at hstoi₂
      cases hstoi₂
      by_cases hn : n = Int.bmod (payload b₁).length (2 ^ 32)
      · obtain ⟨horderly, hboth⟩ := hgood hn
        rw [if_pos hn] at hend
        by_cases hform : FormBody (payload b₁)
        · have hnumeral := hboth.resolve_right (not_not.2 hform)
          obtain rfl := hend.trans ((bodyOutcome_true_iff _).2 hform)
          exact ⟨true, c', b', (parseRequest_iff hlive).2 hrun, fun hnot => absurd hnumeral hnot⟩
        · obtain rfl := hend.trans ((bodyOutcome_false_iff _).2 ⟨hform, horderly⟩)
          exact .of_rejected hlive hrun
      · rw [if_neg hn] at hend
        obtain rfl := hend
        exact .of_rejected hlive hrun

def postOf (fields : List HeaderField) : RequestHead where
  method := .POST
  target := bytes "/"
  version := .HTTP11
  fields := fields
  known := post_known
  supported := http11_supported
  target_free := root_free

/-- A form of the announced length. -/
theorem lengthHandled_of_form : ∃ (c₁ : HttpContext) (b₁ : List UInt8),
    Iterates 0 .outer HttpContext.fresh
        (bytes "POST / HTTP/1.1\r\nContent-Length: 3\r\n\r\na=1") .outer c₁ b₁ ∧
      c₁.state = .EXPECTBODY ∧ payload b₁ = bytes "a=1" ∧
      LengthHandled 0 HttpContext.fresh
        (bytes "POST / HTTP/1.1\r\nContent-Length: 3\r\n\r\na=1")
        (c₁.request.getHeader (bytes "Content-Length")) (payload b₁) := by
  have htext : payload (bytes "POST / HTTP/1.1\r\nContent-Length: 3\r\n\r\na=1") =
      (postOf [lengthThree]).text ++ bytes "a=1" := by
    decide +kernel
  have hreach := (postOf [lengthThree]).iterates_post (t := 0) (c := HttpContext.fresh)
    (by decide) rfl htext
  have hbody : payload (clear (bytes "POST / HTTP/1.1\r\nContent-Length: 3\r\n\r\na=1")
      (postOf [lengthThree]).text.length) = bytes "a=1" := by
    decide +kernel
  have hvalue : ((postOf [lengthThree]).request 0 HttpContext.fresh.request).getHeader
      (bytes "Content-Length") = bytes "3" := by
    decide +kernel
  refine ⟨_, _, hreach, rfl, hbody, (lengthHandled_iff hreach rfl).2 ⟨3, ?_, fun _ => ?_⟩⟩
  · rw [hvalue, ← stoi_eq_ok_iff]
    decide +kernel
  · rw [hvalue, hbody]
    exact ⟨by decide +kernel, Or.inl ⟨by decide, by decide +kernel, by decide +kernel⟩⟩

/-- Without a Content-Length the conversion throws, and nothing catches. -/
theorem missing_length_not_handled : ∃ (c₁ : HttpContext) (b₁ : List UInt8),
    Iterates 0 .outer HttpContext.fresh (bytes "POST / HTTP/1.1\r\n\r\n") .outer c₁ b₁ ∧
      c₁.state = .EXPECTBODY ∧
      ¬ LengthHandled 0 HttpContext.fresh (bytes "POST / HTTP/1.1\r\n\r\n")
        (c₁.request.getHeader (bytes "Content-Length")) (payload b₁) := by
  have htext : payload (bytes "POST / HTTP/1.1\r\n\r\n") = (postOf []).text ++ [] := by
    decide +kernel
  refine ⟨_, _, (postOf []).iterates_post (by decide) rfl htext, rfl, ?_⟩
  rintro ⟨correct, c', b', hcall, -⟩
  have hend : (parseRequest 0 HttpContext.fresh (bytes "POST / HTTP/1.1\r\n\r\n")).map Prod.fst =
      some (.threw .invalid_argument) := by
    decide +kernel
  rw [hcall] at hend
  cases hend

end HttpContext
end HydrogenWeb
