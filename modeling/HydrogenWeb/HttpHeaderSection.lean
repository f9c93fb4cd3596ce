import HydrogenWeb.HttpWire

set_option autoImplicit false

/-!
# The header section

Where the parser takes the header section to end, and what it stores for a header line.
-/
namespace HydrogenWeb.HttpContext
open ListSearch ByteBuffer HttpRequest

inductive FieldLines : List UInt8 → Prop
  | nil : FieldLines []
  | cons {line rest : List UInt8} (hno : NoPair CR LF line) (hcolon : byte ':' ∈ line)
      (hrest : FieldLines rest) : FieldLines (line ++ CR :: LF :: rest)

structure HeadSplit (unread head line rest : List UInt8) : Prop where
  fields : FieldLines head
  noPair : NoPair CR LF line
  colon : byte ':' ∉ line
  text : unread = head ++ (line ++ CR :: LF :: rest)

theorem HeadSplit.cons {unread head line rest field : List UInt8}
    (h : HeadSplit unread head line rest) (hno : NoPair CR LF field) (hcolon : byte ':' ∈ field) :
    HeadSplit (field ++ CR :: LF :: unread) (field ++ CR :: LF :: head) line rest where
  fields := .cons hno hcolon h.fields
  noPair := h.noPair
  colon := h.colon
  text := by rw [h.text]; simp

theorem HeadSplit.tail {unread head line rest field : List UInt8}
    (h : HeadSplit (field ++ CR :: LF :: unread) head line rest) (hno : NoPair CR LF field)
    (hcolon : byte ':' ∈ field) : ∃ head₂, HeadSplit unread head₂ line rest := by
  obtain ⟨hfields, hno₂, hcolon₂, htext⟩ := h
  cases hfields with
  | nil =>
    obtain ⟨rfl, -⟩ := noPair_unique hno hno₂ htext
    exact absurd hcolon hcolon₂
  | cons hno₃ _ hrest =>
    rw [List.append_assoc] at htext
    obtain ⟨-, hunread⟩ := noPair_unique hno hno₃ htext
    exact ⟨_, hrest, hno₂, hcolon₂, hunread⟩

theorem HeadSplit.unique {unread head line rest head₂ line₂ rest₂ : List UInt8}
    (h : HeadSplit unread head line rest) (h₂ : HeadSplit unread head₂ line₂ rest₂) :
    line = line₂ := by
  obtain ⟨hfields, hno, hcolon, htext⟩ := h
  obtain ⟨hfields₂, hno₂, hcolon₂, htext₂⟩ := h₂
  induction hfields generalizing unread head₂ with
  | nil =>
    cases hfields₂ with
    | nil =>
      rw [htext, List.nil_append, List.nil_append] at htext₂
      exact (noPair_unique hno hno₂ htext₂).1
    | cons hno₃ hcolon₃ =>
      rw [htext, List.nil_append, List.append_assoc] at htext₂
      obtain ⟨rfl, -⟩ := noPair_unique hno hno₃ htext₂
      exact absurd hcolon₃ hcolon
  | cons hno₃ hcolon₃ _ ih =>
    rw [htext, List.append_assoc] at htext₂
    cases hfields₂ with
    | nil =>
      obtain ⟨rfl, -⟩ := noPair_unique hno₃ hno₂ htext₂
      exact absurd hcolon₃ hcolon₂
    | cons hno₄ _ hrest₄ =>
      rw [List.append_assoc] at htext₂
      obtain ⟨-, hrest⟩ := noPair_unique hno₃ hno₄ htext₂
      exact ih rfl hrest₄ hrest

section Head

variable {β : Type} [ByteBuffer β] {t : ℤ} {l : Loop} {c c' : HttpContext} {b b' : β} {o : Outcome}

theorem not_headSplit_of_wait (hnone : getCRLF b = none) (head line rest : List UInt8) :
    ¬ HeadSplit (payload b) head line rest := by
  intro h
  have hfound := findPair_ne_none (a := CR) (b := LF) (head ++ line) rest
  rw [List.append_assoc, ← h.text] at hfound
  exact hfound hnone

/-- A parse in the header section waits there, or goes on behind the first line without a colon. -/
theorem Parses.leaves_head (h : Parses t l c b o c' b') (hl : l = .outer)
    (hs : c.state = .EXPECTHEADERS) :
    (c'.state = .EXPECTHEADERS ∧ ∀ head line rest, ¬ HeadSplit (payload b) head line rest) ∨
    (c'.state ≠ .EXPECTHEADERS ∧ ∃ head line rest, HeadSplit (payload b) head line rest ∧
      (c.request.method = .GET → payload b' = rest)) := by
  induction h with
  | @finish l c c' b b' o hturn =>
    subst hl
    have hcases := outerTurn_of_turn (by rw [hs]; simp) hturn
    cases hcases with
    | wait _ hnone => exact Or.inl ⟨hs, not_headSplit_of_wait hnone⟩
    | endOfGet _ hp hno hcolon =>
      refine Or.inr ⟨by simp, [], _, _, ⟨.nil, hno, hcolon, hp⟩, fun _ => ?_⟩
      exact drop_line hp
    | badLine h₁ => rw [hs] at h₁; cases h₁
    | threw h₁ => rw [hs] at h₁; cases h₁
    | wrongLength h₁ => rw [hs] at h₁; cases h₁
  | @again l l₁ c c₁ c' b b₁ b' o hturn tail ih =>
    subst hl
    have hcases := outerTurn_of_turn (by rw [hs]; simp) hturn
    cases hcases with
    | field _ hp hno hname =>
      have hrest := ih rfl hs
      rw [drop_line hp] at hrest
      rw [hp]
      rcases hrest with ⟨hstate, hnever⟩ | ⟨hstate, head, line, rest, hsplit, hget⟩
      · refine Or.inl ⟨hstate, fun head line rest hsplit => ?_⟩
        obtain ⟨head₂, htail⟩ := hsplit.tail hno (by simp)
        exact hnever head₂ line rest htail
      · exact Or.inr ⟨hstate, _, line, rest, hsplit.cons hno (by simp), hget⟩
    | endOfHead _ hp hno hcolon hmethod =>
      refine Or.inr ⟨fun hback => ?_, [], _, _, ⟨.nil, hno, hcolon, hp⟩, ?_⟩
      · have hrank := tail.advances.state
        simp [hback, HttpRequestState.rank] at hrank
      · exact fun hget => absurd hget hmethod
    | requestLine h₁ => rw [hs] at h₁; cases h₁
    | rightLength h₁ => rw [hs] at h₁; cases h₁

theorem FieldLines.ends {head : List UInt8} (h : FieldLines head) : CRLF <:+ CRLF ++ head := by
  induction h with
  | nil => exact ⟨[], rfl⟩
  | @cons line rest _ _ _ ih =>
    obtain ⟨front, hfront⟩ := ih
    refine ⟨CRLF ++ line ++ front, ?_⟩
    rw [List.append_assoc, hfront]
    simp [CRLF]

/-- A parse of the header section ends it at an empty line only. The bytes that a GET
request takes from here begin behind the CRLF of the line before. -/
structure EndsAtEmptyLine (t : ℤ) (c : HttpContext) (b : β) : Prop where
  leaves : ∀ o c' b', parseRequest t c b = some (o, c', b') → c'.state ≠ .EXPECTHEADERS →
    ∃ head rest, FieldLines head ∧ payload b = head ++ (CRLF ++ rest)
  rejects : ∀ head line rest, FieldLines head → NoPair CR LF line → line ≠ [] →
    byte ':' ∉ line → payload b = head ++ (line ++ CR :: LF :: rest) →
      ∃ c' b', parseRequest t c b = some (.returned false, c', b')
  consumes : c.request.method = .GET → ∀ o c' b', parseRequest t c b = some (o, c', b') →
    c'.state = .ALLOK → ∃ head, FieldLines head ∧ payload b = head ++ (CRLF ++ payload b') ∧
      CRLF ++ CRLF <:+ CRLF ++ (head ++ CRLF)

/-- The first complete line without a colon is empty, if there is one. -/
def ColonlessEmpty (unread : List UInt8) : Prop :=
  ∀ head line rest, HeadSplit unread head line rest → line = []

theorem endsAtEmptyLine_iff (t : ℤ) (b : β) (hs : c.state = .EXPECTHEADERS) :
    EndsAtEmptyLine t c b ↔ ColonlessEmpty (payload b) := by
  have hlive : c.state ≠ .ALLOK := by simp [hs]
  constructor
  · intro h head line rest hsplit
    obtain ⟨o, c', b', hrun⟩ := parseRequest_total t b hlive
    have hcall := (parseRequest_iff hlive).2 hrun
    rcases hrun.leaves_head rfl hs with ⟨-, hnever⟩ | ⟨hstate, -⟩
    · exact absurd hsplit (hnever head line rest)
    · obtain ⟨head₂, rest₂, hfields₂, htext₂⟩ := h.leaves o c' b' hcall hstate
      have hempty : HeadSplit (payload b) head₂ [] rest₂ :=
        ⟨hfields₂, rfl, List.not_mem_nil, by rw [htext₂]; rfl⟩
      exact hsplit.unique hempty
  · intro h
    refine ⟨fun o c' b' hcall hstate => ?_, fun head line rest hfields hno hne hcolon hp => ?_,
      fun hget o c' b' hcall hok => ?_⟩
    · have hrun := (parseRequest_iff hlive).1 hcall
      obtain ⟨-, head, line, rest, hsplit, -⟩ :=
        (hrun.leaves_head rfl hs).resolve_left fun hwait => hstate hwait.1
      obtain rfl := h head line rest hsplit
      exact ⟨head, rest, hsplit.fields, hsplit.text⟩
    · exact absurd (h head line rest ⟨hfields, hno, hcolon, hp⟩) hne
    · have hrun := (parseRequest_iff hlive).1 hcall
      obtain ⟨-, head, line, rest, hsplit, hrest⟩ :=
        (hrun.leaves_head rfl hs).resolve_left fun hwait => by simp [hwait.1] at hok
      obtain rfl := h head line rest hsplit
      refine ⟨head, hsplit.fields, ?_, ?_⟩
      · rw [hrest hget]
        exact hsplit.text
      · obtain ⟨front, hfront⟩ := hsplit.fields.ends
        refine ⟨front, ?_⟩
        rw [← List.append_assoc, hfront, List.append_assoc]

def inHead : HttpContext := ⟨.EXPECTHEADERS, { HttpRequest.empty with method := .GET }⟩

theorem endsAtEmptyLine_of_host : EndsAtEmptyLine 0 inHead (bytes "Host: x\r\n\r\n") := by
  refine (endsAtEmptyLine_iff 0 (bytes "Host: x\r\n\r\n") rfl).2 fun head line rest hsplit => ?_
  have hfields : FieldLines (bytes "Host: x\r\n") :=
    @FieldLines.cons (bytes "Host: x") [] (by decide +kernel) (by decide) .nil
  have hempty : HeadSplit (bytes "Host: x\r\n\r\n") (bytes "Host: x\r\n") [] [] :=
    ⟨hfields, rfl, by decide, by decide⟩
  exact hsplit.unique hempty

/-- A line without a colon completes the request. -/
theorem word_line_ends_head : ¬ EndsAtEmptyLine 0 inHead (bytes "evil\r\n") := by
  intro h
  obtain ⟨c', b', hcall⟩ := h.rejects [] (bytes "evil") [] .nil (by decide +kernel) (by decide)
    (by decide) (by decide)
  have hend : (parseRequest 0 inHead (bytes "evil\r\n")).map Prod.fst = some (.returned true) := by
    decide +kernel
  rw [hcall] at hend
  cases hend

end Head

section Trimming

def trimmed (s : List UInt8) : List UInt8 := (s.dropWhile isspace).rdropWhile isspace

theorem trimmed_front {s : List UInt8} (h : ∃ x ∈ s, isspace x = false) :
    ∃ before first visible, s = before ++ first :: visible ∧ (∀ c ∈ before, isspace c = true) ∧
      isspace first = false ∧ trimmed s = (first :: visible).rdropWhile isspace := by
  obtain ⟨x, hx, hvisible⟩ := h
  have hne : s.dropWhile isspace ≠ [] := by
    rw [Ne, List.dropWhile_eq_nil_iff]
    intro hall
    rw [hall x hx] at hvisible
    cases hvisible
  obtain ⟨first, visible, hdrop⟩ := List.exists_cons_of_ne_nil hne
  refine ⟨s.takeWhile isspace, first, visible, ?_, fun c hc => List.mem_takeWhile_imp hc, ?_, ?_⟩
  · rw [← hdrop]
    exact List.takeWhile_append_dropWhile.symm
  · exact head_dropWhile isspace s first (by rw [hdrop]; rfl)
  · rw [trimmed, hdrop]

theorem fieldValue_of_visible {rest : List UInt8} (h : ∃ x ∈ rest, isspace x = false) :
    fieldValue rest = trimmed rest := by
  obtain ⟨before, first, visible, rfl, hblanks, hfirst, htrimmed⟩ := trimmed_front h
  have hback : (first :: visible).rdropWhile isspace ++ (first :: visible).rtakeWhile isspace =
      first :: visible := List.rdropWhile_append_rtakeWhile ..
  have htext : (first :: visible).rdropWhile isspace ≠ [] := by
    rw [Ne, List.rdropWhile_eq_nil_iff]
    intro hall
    rw [hall first List.mem_cons_self] at hfirst
    cases hfirst
  have hlast := List.rdropWhile_last_not isspace (first :: visible) htext
  have hafter : ∀ c ∈ (first :: visible).rtakeWhile isspace, isspace c = true := fun c hc =>
    List.mem_rtakeWhile_imp hc
  rw [htrimmed]
  generalize (first :: visible).rdropWhile isspace = text at hback htext hlast
  generalize (first :: visible).rtakeWhile isspace = after at hback hafter
  rw [← hback, ← List.append_assoc]
  refine fieldValue_trimmed htext ?_ ?_ ?_
  · intro c hc
    exact (List.mem_append.1 hc).elim (hblanks c) (hafter c)
  · obtain ⟨head, tail, rfl⟩ := List.exists_cons_of_ne_nil htext
    rw [List.cons_append, List.cons.injEq] at hback
    rw [List.head_cons, hback.1]
    exact hfirst
  · simpa using hlast

/-- The scan from the front stops at the CR, and the scan from the back does not start. -/
theorem fieldValue_of_blank {rest : List UInt8} (h : ∀ x ∈ rest, isspace x = true) :
    fieldValue rest = [CR] := by
  have hfront : trimFront (rest ++ [CR]) = [CR] := by
    induction rest with
    | nil => rfl
    | cons c rest ih =>
      obtain ⟨x, tail, htail⟩ : ∃ x tail, rest ++ [CR] = x :: tail :=
        List.exists_cons_of_ne_nil (by simp)
      have hrest := ih fun x hx => h x (List.mem_cons_of_mem _ hx)
      rw [List.cons_append, htail, trimFront, if_pos (h c List.mem_cons_self), ← htail, hrest]
  rw [fieldValue, hfront]
  rfl

variable {β : Type} [ByteBuffer β] {c : HttpContext} {b : β} {name rest : List UInt8}

/-- A header line and nothing behind it. -/
theorem parses_header_line (t : ℤ) (hs : c.state = .EXPECTHEADERS) (hname : byte ':' ∉ name)
    (hline : ¬ CRLF <:+: name ++ byte ':' :: rest)
    (hp : payload b = name ++ byte ':' :: rest ++ CRLF) :
    Parses t .outer c b (.returned true)
      { c with request := withHeader c.request name (fieldValue rest) }
      (clear b ((name ++ byte ':' :: rest).length + 2)) := by
  have hno : NoPair CR LF (name ++ byte ':' :: rest) := (noPair_iff (by decide)).2 hline
  have hturn := headersTurn_of_field c hp hno hname
  rw [← turn_headers t b hs] at hturn
  refine .again hturn (RequestHead.waits_in_line [] (Or.inr hs) List.not_mem_nil ?_)
  rw [drop_line hp]
  exact List.nil_prefix

theorem stores_trimmed_iff (t : ℤ) (hs : c.state = .EXPECTHEADERS) (hname : byte ':' ∉ name)
    (hline : ¬ CRLF <:+: name ++ byte ':' :: rest)
    (hp : payload b = name ++ byte ':' :: rest ++ CRLF) :
    (∃ c' b', parseRequest t c b = some (.returned true, c', b') ∧
      c'.request.headers[name]? = some (trimmed rest)) ↔ ∃ x ∈ rest, isspace x = false := by
  have hlive : c.state ≠ .ALLOK := by simp [hs]
  have hcall := (parseRequest_iff hlive).2 (parses_header_line t hs hname hline hp)
  have hstored : (withHeader c.request name (fieldValue rest)).headers[name]? =
      some (fieldValue rest) := by
    simp [withHeader]
  constructor
  · rintro ⟨c', b', hcall₂, hvalue⟩
    rw [hcall] at hcall₂
    cases hcall₂
    by_contra hblank
    have hspaces : ∀ x ∈ rest, isspace x = true := by
      intro x hx
      by_contra hvisible
      exact hblank ⟨x, hx, by simpa using hvisible⟩
    rw [hstored, fieldValue_of_blank hspaces, trimmed, List.dropWhile_eq_nil_iff.2 hspaces] at hvalue
    cases hvalue
  · intro h
    exact ⟨_, _, hcall, by rw [hstored, fieldValue_of_visible h]⟩

/-- Blanks on both sides, a blank and a CR inside. -/
theorem stores_trimmed_of_padded : ∃ c' b',
    parseRequest 0 inHead (bytes "A: \t b \rc \r\n") = some (.returned true, c', b') ∧
      c'.request.headers[bytes "A"]? = some (trimmed (bytes " \t b \rc ")) :=
  (stores_trimmed_iff 0 rfl (by decide) (by decide +kernel) (by decide)).2
    ⟨byte 'b', by decide, by decide⟩

/-- For an empty value the CR behind it is stored. -/
theorem empty_value_not_trimmed :
    ¬ ∃ c' b', parseRequest 0 inHead (bytes "A:\r\n") = some (.returned true, c', b') ∧
      c'.request.headers[bytes "A"]? = some (trimmed []) := by
  rintro ⟨c', b', hcall, hvalue⟩
  have hend : (parseRequest 0 inHead (bytes "A:\r\n")).map (fun r =>
      r.2.1.request.headers[bytes "A"]?) = some (some [CR]) := by
    decide +kernel
  rw [hcall, Option.map_some, hvalue] at hend
  cases hend

end Trimming

end HydrogenWeb.HttpContext
