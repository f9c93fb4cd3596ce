import HydrogenWeb.HttpContext

set_option autoImplicit false

/-!
# Runs of the parser

`Parses` is the run of the two loops as a derivation. A loop that does not start in ALLOK
ends, and `parseRequest` gives the end of the run.
-/
namespace HydrogenWeb.HttpContext
open ListSearch ByteBuffer

variable {β : Type} [ByteBuffer β]

inductive Parses (t : ℤ) : Loop → HttpContext → β → Outcome → HttpContext → β → Prop
  | finish {l : Loop} {c c' : HttpContext} {b b' : β} {o : Outcome}
      (h : turn t l c b = .finished o c' b') : Parses t l c b o c' b'
  | again {l l₁ : Loop} {c c₁ c' : HttpContext} {b b₁ b' : β} {o : Outcome}
      (h : turn t l c b = .again l₁ c₁ b₁) (tail : Parses t l₁ c₁ b₁ o c' b') :
      Parses t l c b o c' b'

section Turn

variable {c : HttpContext}

theorem turn_requestLine (t : ℤ) (b : β) (h : c.state = .EXPECTREQUESTLINE) :
    turn t .outer c b = requestLineTurn t c b := by
  simp only [turn, h]

theorem turn_headers (t : ℤ) (b : β) (h : c.state = .EXPECTHEADERS) :
    turn t .outer c b = headersTurn c b := by
  simp only [turn, h]

theorem turn_length (t : ℤ) (b : β) (h : c.state = .EXPECTBODY) :
    turn t .outer c b = lengthTurn c b := by
  simp only [turn, h]

theorem lengthTurn_of_error (b : β) {e : StoiException}
    (h : stoi (c.request.getHeader (bytes "Content-Length")) = .error e) :
    lengthTurn c b = .finished (.threw e) c b := by
  rw [lengthTurn, h]

theorem lengthTurn_of_ok (b : β) {n : ℤ}
    (h : stoi (c.request.getHeader (bytes "Content-Length")) = .ok n) :
    lengthTurn c b =
      if n ≠ Int.bmod (getEOL b) (2 ^ 32) then .finished (.returned false) c b
      else .again .body c b := by
  rw [lengthTurn, h]

end Turn

/-- Every iteration from here makes progress. -/
def Live (l : Loop) (c : HttpContext) : Prop := l = .body ∨ c.state ≠ .ALLOK

def weight (l : Loop) (b : β) : ℕ := getEOL b + if l = .outer then 2 else 1

theorem getCRLF_cases (b : β) :
    getCRLF b = none ∨ ∃ line rest, payload b = line ++ CR :: LF :: rest ∧ NoPair CR LF line := by
  cases h : getCRLF b with
  | none => exact Or.inl rfl
  | some i =>
    obtain ⟨line, rest, heq, hno, -⟩ := findPair_eq_some h
    exact Or.inr ⟨line, rest, heq, hno⟩

section Lines

variable {b : β} {line rest : List UInt8}

theorem getCRLF_of_line (hp : payload b = line ++ CR :: LF :: rest) (hno : NoPair CR LF line) :
    getCRLF b = some line.length := by
  rw [getCRLF, hp]
  exact findPair_of_noPair hno

theorem take_line (hp : payload b = line ++ CR :: LF :: rest) :
    (payload b).take line.length = line := by
  rw [hp, List.take_left]

theorem drop_line (hp : payload b = line ++ CR :: LF :: rest) :
    payload (clear b (line.length + 2)) = rest := by
  have hsplit : line ++ CR :: LF :: rest = (line ++ [CR]) ++ LF :: rest := by simp
  rw [payload_clear, hp, hsplit, ← drop_past (line ++ [CR]) rest LF]
  simp

theorem requestLineTurn_of_line (t : ℤ) (c : HttpContext)
    (hp : payload b = line ++ CR :: LF :: rest) (hno : NoPair CR LF line) :
    requestLineTurn t c b =
      if (parseRequestLine c.request line).1 then
        .again .outer ⟨.EXPECTHEADERS, (parseRequestLine c.request line).2.setReceiveTime t⟩
          (clear b (line.length + 2))
      else .finished (.returned false) { c with request := (parseRequestLine c.request line).2 } b := by
  rw [requestLineTurn, getCRLF_of_line hp hno]
  simp only [take_line hp]

/-- The value stored for what stands between the colon and the CRLF. -/
def fieldValue (rest : List UInt8) : List UInt8 :=
  HttpRequest.trimBack (HttpRequest.trimFront (rest ++ [CR]))

def withHeader (r : HttpRequest) (name value : List UInt8) : HttpRequest :=
  { r with headers := r.headers.insert name value }

theorem addHeader_line {name value : List UInt8} (r : HttpRequest)
    (hp : payload b = name ++ byte ':' :: value ++ CR :: LF :: rest) :
    r.addHeader (payload b) name.length (name ++ byte ':' :: value).length =
      withHeader r name (fieldValue value) := by
  have hname : (payload b).take name.length = name := by
    rw [hp, List.append_assoc, List.take_left]
  have hvalue : ((payload b).take ((name ++ byte ':' :: value).length + 1)).drop
      (name.length + 1) = value ++ [CR] := by
    have hsplit : payload b = name ++ byte ':' :: (value ++ [CR]) ++ LF :: rest := by
      rw [hp]
      simp
    rw [hsplit, List.take_left' (by simp; omega), drop_past]
  rw [HttpRequest.addHeader, hname, hvalue]
  rfl

theorem headersTurn_of_field (c : HttpContext) {name value : List UInt8}
    (hp : payload b = name ++ byte ':' :: value ++ CR :: LF :: rest)
    (hno : NoPair CR LF (name ++ byte ':' :: value)) (hname : byte ':' ∉ name) :
    headersTurn c b =
      .again .outer { c with request := withHeader c.request name (fieldValue value) }
        (clear b ((name ++ byte ':' :: value).length + 2)) := by
  rw [headersTurn, getCRLF_of_line hp hno]
  simp only [take_line hp, find_append_cons hname, addHeader_line c.request hp]

theorem headersTurn_of_end (c : HttpContext) (hp : payload b = line ++ CR :: LF :: rest)
    (hno : NoPair CR LF line) (hcolon : byte ':' ∉ line) :
    headersTurn c b =
      if c.request.method = .GET then
        .finished (.returned true) { c with state := .ALLOK } (clear b (line.length + 2))
      else .again .outer { c with state := .EXPECTBODY } (clear b (line.length + 2)) := by
  rw [headersTurn, getCRLF_of_line hp hno]
  simp only [take_line hp, find_eq_none.2 hcolon]

theorem line_cases (line : List UInt8) :
    byte ':' ∉ line ∨ ∃ name value, line = name ++ byte ':' :: value ∧ byte ':' ∉ name := by
  cases h : find (byte ':') line with
  | none => exact Or.inl (find_eq_none.1 h)
  | some i =>
    obtain ⟨name, value, heq, hname, -⟩ := find_eq_some h
    exact Or.inr ⟨name, value, heq, hname⟩

end Lines

section Body

variable {b : β} {name value rest : List UInt8}

theorem bodyTurn_of_pair (c : HttpContext)
    (hp : payload b = name ++ byte '=' :: value ++ byte '&' :: rest) (hname : byte '=' ∉ name)
    (hname' : byte '&' ∉ name) (hvalue : byte '&' ∉ value) :
    bodyTurn c b =
      .again .body { c with request := withHeader c.request name value }
        (clear b ((name ++ byte '=' :: value).length + 1)) := by
  have hassign : getAssignment b = some name.length := by
    rw [getAssignment, hp, List.append_assoc]
    exact find_append_cons hname
  have hfree : byte '&' ∉ name ++ byte '=' :: value := by
    simp only [List.mem_append, List.mem_cons, not_or]
    exact ⟨hname', by decide, hvalue⟩
  have hand : getAND b = some (name ++ byte '=' :: value).length := by
    rw [getAND, hp]
    exact find_append_cons hfree
  have hbody : c.request.addBody (payload b) name.length (name ++ byte '=' :: value).length =
      withHeader c.request name value := by
    rw [HttpRequest.addBody, hp, List.take_left, drop_past, List.append_assoc, List.take_left]
    rfl
  have hvalid : ¬ (name ++ byte '=' :: value).length < name.length + 1 := by
    simp only [List.length_append, List.length_cons]
    omega
  rw [bodyTurn, hassign]
  simp only [hand, if_neg hvalid, hbody]

theorem bodyTurn_of_last (c : HttpContext) (hp : payload b = name ++ byte '=' :: value)
    (hname : byte '=' ∉ name) (hname' : byte '&' ∉ name) (hvalue : byte '&' ∉ value) :
    bodyTurn c b =
      .finished (.returned true) ⟨.ALLOK, withHeader c.request name value⟩
        (clear b (getEOL b + 1)) := by
  have hassign : getAssignment b = some name.length := by
    rw [getAssignment, hp]
    exact find_append_cons hname
  have hand : getAND b = none := by
    rw [getAND, hp]
    refine find_eq_none.2 ?_
    simp only [List.mem_append, List.mem_cons, not_or]
    exact ⟨hname', by decide, hvalue⟩
  have hbody : c.request.addBody (payload b) name.length (getEOL b) =
      withHeader c.request name value := by
    rw [HttpRequest.addBody, getEOL, List.take_length, hp, List.take_left, drop_past]
    rfl
  rw [bodyTurn, hassign]
  simp only [hand, hbody]

/-- What the loop over a body can see: no pair, the last pair, a pair before others, or an
ampersand before the first equals sign. -/
theorem body_cases (l : List UInt8) :
    byte '=' ∉ l ∨
    (∃ name value, l = name ++ byte '=' :: value ∧ byte '=' ∉ name ∧ byte '&' ∉ name ∧
      byte '&' ∉ value) ∨
    (∃ name value rest, l = name ++ byte '=' :: value ++ byte '&' :: rest ∧ byte '=' ∉ name ∧
      byte '&' ∉ name ∧ byte '&' ∉ value) ∨
    (∃ name rest, l = name ++ byte '&' :: rest ∧ byte '=' ∉ name ∧ byte '&' ∉ name ∧
      byte '=' ∈ rest) := by
  by_cases hassign : byte '=' ∈ l
  · right
    obtain ⟨name, tail, rfl, hname⟩ := List.eq_append_cons_of_mem hassign
    by_cases hand : byte '&' ∈ name
    · obtain ⟨front, back, rfl, hfront⟩ := List.eq_append_cons_of_mem hand
      refine Or.inr (Or.inr ⟨front, back ++ byte '=' :: tail, by simp, ?_, hfront, by simp⟩)
      exact fun hmem => hname (List.mem_append_left _ hmem)
    · by_cases htail : byte '&' ∈ tail
      · obtain ⟨value, rest, rfl, hvalue⟩ := List.eq_append_cons_of_mem htail
        exact Or.inr (Or.inl ⟨name, value, rest, by simp, hname, hand, hvalue⟩)
      · exact Or.inl ⟨name, tail, rfl, hname, hand, htail⟩
  · exact Or.inl hassign

theorem bodyTurn_of_none (c : HttpContext) (hp : byte '=' ∉ payload b) :
    bodyTurn c b = .finished (.returned false) c b := by
  rw [bodyTurn, getAssignment, find_eq_none.2 hp]

theorem bodyTurn_of_inverted (c : HttpContext) (hp : payload b = name ++ byte '&' :: rest)
    (hname : byte '=' ∉ name) (hname' : byte '&' ∉ name) (hrest : byte '=' ∈ rest) :
    bodyTurn c b = .finished .badRange c b := by
  obtain ⟨front, back, rfl, hfront⟩ := List.eq_append_cons_of_mem hrest
  have hassign : getAssignment b = some (name ++ byte '&' :: front).length := by
    have hsplit : payload b = (name ++ byte '&' :: front) ++ byte '=' :: back := by
      rw [hp]
      simp
    rw [getAssignment, hsplit]
    refine find_append_cons ?_
    simp only [List.mem_append, List.mem_cons, not_or]
    exact ⟨hname, by decide, hfront⟩
  have hand : getAND b = some name.length := by
    rw [getAND, hp]
    exact find_append_cons hname'
  have hinverted : name.length < (name ++ byte '&' :: front).length + 1 := by
    simp only [List.length_append]
    omega
  rw [bodyTurn, hassign]
  simp only [hand, if_pos hinverted]

inductive BodyTurn (c : HttpContext) (b : β) : Turn β → Prop
  | fails {o : Outcome} (ho : o ≠ .returned true) : BodyTurn c b (.finished o c b)
  | last {name value : List UInt8} (hp : payload b = name ++ byte '=' :: value)
      (hassign : byte '=' ∉ name) (hand : byte '&' ∉ name) (hvalue : byte '&' ∉ value) :
      BodyTurn c b (.finished (.returned true) ⟨.ALLOK, withHeader c.request name value⟩
        (clear b (getEOL b + 1)))
  | pair {name value rest : List UInt8}
      (hp : payload b = name ++ byte '=' :: value ++ byte '&' :: rest)
      (hassign : byte '=' ∉ name) (hand : byte '&' ∉ name) (hvalue : byte '&' ∉ value) :
      BodyTurn c b (.again .body { c with request := withHeader c.request name value }
        (clear b ((name ++ byte '=' :: value).length + 1)))

theorem bodyTurn_cases (c : HttpContext) (b : β) : BodyTurn c b (bodyTurn c b) := by
  rcases body_cases (payload b) with hnone | ⟨name, value, hp, h1, h2, h3⟩ |
    ⟨name, value, rest, hp, h1, h2, h3⟩ | ⟨name, rest, hp, h1, h2, h3⟩
  · rw [bodyTurn_of_none c hnone]
    exact .fails (by simp)
  · rw [bodyTurn_of_last c hp h1 h2 h3]
    exact .last hp h1 h2 h3
  · rw [bodyTurn_of_pair c hp h1 h2 h3]
    exact .pair hp h1 h2 h3
  · rw [bodyTurn_of_inverted c hp h1 h2 h3]
    exact .fails (by simp)

theorem bodyTurn_of_turn {t : ℤ} {c : HttpContext} {r : Turn β} (h : turn t .body c b = r) :
    BodyTurn c b r := by
  rw [turn] at h
  rw [← h]
  exact bodyTurn_cases c b

end Body

inductive OuterTurn (t : ℤ) (c : HttpContext) (b : β) : Turn β → Prop
  | wait (hs : c.state = .EXPECTREQUESTLINE ∨ c.state = .EXPECTHEADERS)
      (hnone : getCRLF b = none) : OuterTurn t c b (.finished (.returned true) c b)
  | badLine {line rest : List UInt8} (hs : c.state = .EXPECTREQUESTLINE)
      (hp : payload b = line ++ CR :: LF :: rest) (hno : NoPair CR LF line)
      (hbad : ¬ (parseRequestLine c.request line).1 = true) :
      OuterTurn t c b (.finished (.returned false)
        { c with request := (parseRequestLine c.request line).2 } b)
  | requestLine {line rest : List UInt8} (hs : c.state = .EXPECTREQUESTLINE)
      (hp : payload b = line ++ CR :: LF :: rest) (hno : NoPair CR LF line)
      (hgood : (parseRequestLine c.request line).1 = true) :
      OuterTurn t c b (.again .outer
        ⟨.EXPECTHEADERS, (parseRequestLine c.request line).2.setReceiveTime t⟩
        (clear b (line.length + 2)))
  | field {name value rest : List UInt8} (hs : c.state = .EXPECTHEADERS)
      (hp : payload b = name ++ byte ':' :: value ++ CR :: LF :: rest)
      (hno : NoPair CR LF (name ++ byte ':' :: value)) (hname : byte ':' ∉ name) :
      OuterTurn t c b (.again .outer
        { c with request := withHeader c.request name (fieldValue value) }
        (clear b ((name ++ byte ':' :: value).length + 2)))
  | endOfGet {line rest : List UInt8} (hs : c.state = .EXPECTHEADERS)
      (hp : payload b = line ++ CR :: LF :: rest) (hno : NoPair CR LF line)
      (hcolon : byte ':' ∉ line) (hget : c.request.method = .GET) :
      OuterTurn t c b (.finished (.returned true) { c with state := .ALLOK }
        (clear b (line.length + 2)))
  | endOfHead {line rest : List UInt8} (hs : c.state = .EXPECTHEADERS)
      (hp : payload b = line ++ CR :: LF :: rest) (hno : NoPair CR LF line)
      (hcolon : byte ':' ∉ line) (hget : c.request.method ≠ .GET) :
      OuterTurn t c b (.again .outer { c with state := .EXPECTBODY } (clear b (line.length + 2)))
  | threw {e : StoiException} (hs : c.state = .EXPECTBODY)
      (hstoi : stoi (c.request.getHeader (bytes "Content-Length")) = .error e) :
      OuterTurn t c b (.finished (.threw e) c b)
  | wrongLength {n : ℤ} (hs : c.state = .EXPECTBODY)
      (hstoi : stoi (c.request.getHeader (bytes "Content-Length")) = .ok n)
      (hn : n ≠ Int.bmod (getEOL b) (2 ^ 32)) : OuterTurn t c b (.finished (.returned false) c b)
  | rightLength {n : ℤ} (hs : c.state = .EXPECTBODY)
      (hstoi : stoi (c.request.getHeader (bytes "Content-Length")) = .ok n)
      (hn : n = Int.bmod (getEOL b) (2 ^ 32)) : OuterTurn t c b (.again .body c b)

theorem outerTurn_cases (t : ℤ) {c : HttpContext} (b : β) (hs : c.state ≠ .ALLOK) :
    OuterTurn t c b (turn t .outer c b) := by
  cases hstate : c.state with
  | EXPECTREQUESTLINE =>
    rw [turn_requestLine t b hstate]
    rcases getCRLF_cases b with hnone | ⟨line, rest, hp, hno⟩
    · rw [requestLineTurn, hnone]
      exact .wait (Or.inl hstate) hnone
    · rw [requestLineTurn_of_line t c hp hno]
      split
      · rename_i hgood
        exact .requestLine hstate hp hno hgood
      · rename_i hbad
        exact .badLine hstate hp hno hbad
  | EXPECTHEADERS =>
    rw [turn_headers t b hstate]
    rcases getCRLF_cases b with hnone | ⟨line, rest, hp, hno⟩
    · rw [headersTurn, hnone]
      exact .wait (Or.inr hstate) hnone
    · rcases line_cases line with hcolon | ⟨name, value, rfl, hname⟩
      · rw [headersTurn_of_end c hp hno hcolon]
        split
        · rename_i hget
          exact .endOfGet hstate hp hno hcolon hget
        · rename_i hget
          exact .endOfHead hstate hp hno hcolon hget
      · rw [headersTurn_of_field c hp hno hname]
        exact .field hstate hp hno hname
  | EXPECTBODY =>
    rw [turn_length t b hstate]
    cases hstoi : stoi (c.request.getHeader (bytes "Content-Length")) with
    | error e =>
      rw [lengthTurn_of_error b hstoi]
      exact .threw hstate hstoi
    | ok n =>
      rw [lengthTurn_of_ok b hstoi]
      split
      · rename_i hn
        exact .wrongLength hstate hstoi hn
      · rename_i hn
        exact .rightLength hstate hstoi (not_not.1 hn)
  | ALLOK => exact absurd hstate hs

theorem outerTurn_of_turn {t : ℤ} {c : HttpContext} {b : β} {r : Turn β} (hs : c.state ≠ .ALLOK)
    (h : turn t .outer c b = r) : OuterTurn t c b r := by
  rw [← h]
  exact outerTurn_cases t b hs

section Order

def HttpRequestState.rank : HttpRequestState → ℕ
  | .EXPECTREQUESTLINE => 0
  | .EXPECTHEADERS => 1
  | .EXPECTBODY => 2
  | .ALLOK => 3

/-- The parser does not go back, and behind the request line it keeps the method. -/
structure Advances (c c' : HttpContext) : Prop where
  state : c.state.rank ≤ c'.state.rank
  method : c.state ≠ .EXPECTREQUESTLINE → c'.request.method = c.request.method

theorem Advances.refl (c : HttpContext) : Advances c c := ⟨le_refl _, fun _ => rfl⟩

theorem HttpRequestState.rank_eq_zero {s : HttpRequestState} :
    s.rank = 0 ↔ s = .EXPECTREQUESTLINE := by
  cases s <;> simp [rank]

theorem Advances.leaves_line {c c' : HttpContext} (h : Advances c c')
    (hs : c.state ≠ .EXPECTREQUESTLINE) : c'.state ≠ .EXPECTREQUESTLINE := by
  intro hline
  have hrank := h.state
  rw [HttpRequestState.rank_eq_zero.2 hline, Nat.le_zero, HttpRequestState.rank_eq_zero] at hrank
  exact hs hrank

theorem Advances.trans {c c₁ c₂ : HttpContext} (h : Advances c c₁) (h₁ : Advances c₁ c₂) :
    Advances c c₂ where
  state := h.state.trans h₁.state
  method hs := (h₁.method (h.leaves_line hs)).trans (h.method hs)

variable {t : ℤ} {l l₁ : Loop} {c c₁ : HttpContext} {b b₁ : β} {o : Outcome}

theorem advances_again (h : turn t l c b = .again l₁ c₁ b₁) : Advances c c₁ := by
  cases l with
  | outer =>
    by_cases hok : c.state = .ALLOK
    · simp only [turn, hok, Turn.again.injEq] at h
      rw [← h.2.1]
      exact .refl c
    · have hcases := outerTurn_of_turn hok h
      cases hcases with
      | requestLine hs => exact ⟨by simp [hs, HttpRequestState.rank], fun hne => absurd hs hne⟩
      | field => exact ⟨le_refl _, fun _ => rfl⟩
      | endOfHead hs => exact ⟨by simp [hs, HttpRequestState.rank], fun _ => rfl⟩
      | rightLength => exact .refl c
  | body =>
    have hcases := bodyTurn_of_turn h
    cases hcases with
    | pair => exact ⟨le_refl _, fun _ => rfl⟩

theorem advances_finished (h : turn t l c b = .finished o c₁ b₁) : Advances c c₁ := by
  have hend : ∀ c : HttpContext, c.state.rank ≤ HttpRequestState.ALLOK.rank := by
    intro c
    cases c.state <;> decide
  cases l with
  | outer =>
    by_cases hok : c.state = .ALLOK
    · simp only [turn, hok] at h
      cases h
    · have hcases := outerTurn_of_turn hok h
      cases hcases with
      | badLine hs => exact ⟨le_refl _, fun hne => absurd hs hne⟩
      | endOfGet => exact ⟨hend c, fun _ => rfl⟩
      | wait => exact .refl c
      | threw => exact .refl c
      | wrongLength => exact .refl c
  | body =>
    have hcases := bodyTurn_of_turn h
    cases hcases with
    | fails => exact .refl c
    | last => exact ⟨hend c, fun _ => rfl⟩

end Order

section Runs

variable {t : ℤ} {l l' : Loop} {c c' : HttpContext} {b b' : β} {o : Outcome}

theorem getEOL_drop_line {line rest : List UInt8} (hp : payload b = line ++ CR :: LF :: rest) :
    getEOL (clear b (line.length + 2)) + 2 ≤ getEOL b := by
  rw [getEOL, drop_line hp, getEOL, hp]
  simp only [List.length_append, List.length_cons]
  omega

theorem outer_progress {k : ℕ} (hne : c'.state ≠ .ALLOK) (hlen : getEOL (clear b k) + 2 ≤ getEOL b) :
    Live .outer c' ∧ weight .outer (clear b k) < weight .outer b :=
  ⟨Or.inr hne, by simp only [weight, if_true]; omega⟩

theorem again_progress (hlive : Live l c) (h : turn t l c b = .again l' c' b') :
    Live l' c' ∧ weight l' b' < weight l b := by
  cases l with
  | outer =>
    have hturn := outerTurn_of_turn (hlive.resolve_left (by simp)) h
    cases hturn with
    | requestLine _ hp => exact outer_progress (by simp) (getEOL_drop_line hp)
    | field hs hp => exact outer_progress (by simp [hs]) (getEOL_drop_line hp)
    | endOfHead _ hp => exact outer_progress (by simp) (getEOL_drop_line hp)
    | rightLength => exact ⟨Or.inl rfl, by simp [weight]⟩
  | body =>
    have hturn := bodyTurn_of_turn h
    cases hturn with
    | pair hp =>
      refine ⟨Or.inl rfl, ?_⟩
      simp only [weight, getEOL, payload_clear, hp, List.length_drop, List.length_append,
        List.length_cons]
      omega

theorem turns_parses {fuel : ℕ} (h : turns t fuel l c b = some (o, c', b')) :
    Parses t l c b o c' b' := by
  induction fuel generalizing l c b with
  | zero => cases h
  | succ fuel ih =>
    rw [turns] at h
    split at h
    · rename_i hturn
      exact .again hturn (ih h)
    · rename_i hturn
      cases h
      exact .finish hturn

theorem turns_total {fuel : ℕ} (hlive : Live l c) (hfuel : weight l b ≤ fuel) :
    ∃ o c' b', turns t fuel l c b = some (o, c', b') := by
  induction fuel generalizing l c b with
  | zero =>
    simp only [weight] at hfuel
    split at hfuel <;> omega
  | succ fuel ih =>
    rw [turns]
    cases hturn : turn t l c b with
    | again l₁ c₁ b₁ =>
      obtain ⟨hlive₁, hless⟩ := again_progress hlive hturn
      exact ih hlive₁ (by omega)
    | finished o c' b' => exact ⟨o, c', b', rfl⟩

theorem Parses.unique {o₂ : Outcome} {c₂ : HttpContext} {b₂ : β} (h : Parses t l c b o c' b')
    (h₂ : Parses t l c b o₂ c₂ b₂) : o = o₂ ∧ c' = c₂ ∧ b' = b₂ := by
  induction h with
  | finish h =>
    cases h₂ with
    | finish h₂ =>
      rw [h] at h₂
      cases h₂
      exact ⟨rfl, rfl, rfl⟩
    | again h₂ =>
      rw [h] at h₂
      cases h₂
  | again h tail ih =>
    cases h₂ with
    | finish h₂ =>
      rw [h] at h₂
      cases h₂
    | again h₂ tail₂ =>
      rw [h] at h₂
      cases h₂
      exact ih tail₂

theorem parseRequest_iff (hne : c.state ≠ .ALLOK) :
    parseRequest t c b = some (o, c', b') ↔ Parses t .outer c b o c' b' := by
  constructor
  · exact turns_parses
  · intro h
    obtain ⟨o₂, c₂, b₂, h₂⟩ := turns_total (t := t) (b := b) (Or.inr hne) (le_refl _)
    obtain ⟨rfl, rfl, rfl⟩ := h.unique (turns_parses h₂)
    exact h₂

theorem parseRequest_total (t : ℤ) (b : β) (hne : c.state ≠ .ALLOK) :
    ∃ o c' b', Parses t .outer c b o c' b' := by
  obtain ⟨o, c', b', h⟩ := turns_total (t := t) (b := b) (Or.inr hne) (le_refl _)
  exact ⟨o, c', b', turns_parses h⟩

end Runs

/-- From the head of the loop `l` the run comes to that of `l₂`. -/
inductive Iterates (t : ℤ) : Loop → HttpContext → β → Loop → HttpContext → β → Prop
  | refl {l : Loop} {c : HttpContext} {b : β} : Iterates t l c b l c b
  | again {l l₁ l₂ : Loop} {c c₁ c₂ : HttpContext} {b b₁ b₂ : β}
      (h : turn t l c b = .again l₁ c₁ b₁) (tail : Iterates t l₁ c₁ b₁ l₂ c₂ b₂) :
      Iterates t l c b l₂ c₂ b₂

section Iterations

variable {t : ℤ} {l l₂ : Loop} {c c' c₂ : HttpContext} {b b' b₂ : β} {o : Outcome}

theorem Iterates.trans {l₁ : Loop} {c₁ : HttpContext} {b₁ : β} (h : Iterates t l c b l₁ c₁ b₁)
    (tail : Iterates t l₁ c₁ b₁ l₂ c₂ b₂) : Iterates t l c b l₂ c₂ b₂ := by
  induction h with
  | refl => exact tail
  | again hturn _ ih => exact .again hturn (ih tail)

/-- A call ends where it ends from any of its iterations. -/
theorem Iterates.parses (h : Iterates t l c b l₂ c₂ b₂) (hrun : Parses t l₂ c₂ b₂ o c' b') :
    Parses t l c b o c' b' := by
  induction h with
  | refl => exact hrun
  | again hturn _ ih => exact .again hturn (ih hrun)

theorem Parses.of_iterates (h : Parses t l c b o c' b') (hiter : Iterates t l c b l₂ c₂ b₂) :
    Parses t l₂ c₂ b₂ o c' b' := by
  induction hiter with
  | refl => exact h
  | again hturn _ ih =>
    cases h with
    | finish h =>
      rw [hturn] at h
      cases h
    | again h tail =>
      rw [hturn] at h
      cases h
      exact ih tail

theorem Parses.last_turn (h : Parses t l c b o c' b') :
    ∃ l₂ c₂ b₂, Iterates t l c b l₂ c₂ b₂ ∧ turn t l₂ c₂ b₂ = .finished o c' b' := by
  induction h with
  | finish hturn => exact ⟨_, _, _, .refl, hturn⟩
  | again hturn _ ih =>
    obtain ⟨l₂, c₂, b₂, hiter, hlast⟩ := ih
    exact ⟨l₂, c₂, b₂, .again hturn hiter, hlast⟩

theorem Iterates.advances (h : Iterates t l c b l₂ c₂ b₂) : Advances c c₂ := by
  induction h with
  | refl => exact .refl _
  | again hturn _ ih => exact (advances_again hturn).trans ih

theorem Parses.advances (h : Parses t l c b o c' b') : Advances c c' := by
  induction h with
  | finish hturn => exact advances_finished hturn
  | again hturn _ ih => exact (advances_again hturn).trans ih

/-- In ALLOK the loop of `parseRequest` has no way out. -/
theorem Iterates.live (h : Iterates t l c b l₂ c₂ b₂) (hl : l = .outer)
    (hlive : c₂.state ≠ .ALLOK) : c.state ≠ .ALLOK := by
  induction h with
  | refl => exact hlive
  | @again l l₁ l₂ c c₁ c₂ b b₁ b₂ hturn _ ih =>
    subst hl
    intro hok
    simp only [turn, hok, Turn.again.injEq] at hturn
    obtain ⟨rfl, rfl, rfl⟩ := hturn
    exact ih rfl hlive hok

end Iterations

end HydrogenWeb.HttpContext
