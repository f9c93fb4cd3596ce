import HydrogenWeb.HttpGrammar

set_option autoImplicit false

/-!
# The loop over a body

A body is split at its ampersands. The loop reads the pieces in order, and how it ends
depends only on which of them have an equals sign.
-/
namespace HydrogenWeb.HttpContext
open ListSearch ByteBuffer HttpRequest

def pieces (body : List UInt8) : List (List UInt8) := body.splitOn (byte '&')

/-- No piece with an equals sign comes behind a piece without one. -/
def Orderly (body : List UInt8) : Prop :=
  (pieces body).Pairwise fun p q => byte '=' ∈ q → byte '=' ∈ p

instance (body : List UInt8) : Decidable (Orderly body) := inferInstanceAs (Decidable (List.Pairwise _ _))

theorem pieces_single {p : List UInt8} (h : byte '&' ∉ p) : pieces p = [p] :=
  List.splitOn_eq_singleton h

theorem pieces_cons {p rest : List UInt8} (h : byte '&' ∉ p) :
    pieces (p ++ byte '&' :: rest) = p :: pieces rest :=
  List.splitOn_append_cons_self_of_not_mem h rest

/-- A body is one piece, or a piece and a body behind an ampersand. -/
theorem pieces_induction {motive : List UInt8 → Prop}
    (single : ∀ p, byte '&' ∉ p → motive p)
    (cons : ∀ p rest, byte '&' ∉ p → motive rest → motive (p ++ byte '&' :: rest))
    (body : List UInt8) : motive body := by
  by_cases hand : byte '&' ∈ body
  · obtain ⟨p, rest, heq, hp⟩ := List.eq_append_cons_of_mem hand
    have hless : rest.length < body.length := by
      rw [heq]
      simp only [List.length_append, List.length_cons]
      omega
    rw [heq]
    exact cons p rest hp (pieces_induction single cons rest)
  · exact single body hand
termination_by body.length

theorem mem_pieces_iff {c : UInt8} (hc : c ≠ byte '&') (body : List UInt8) :
    c ∈ body ↔ ∃ p ∈ pieces body, c ∈ p := by
  induction body using pieces_induction with
  | single p hp => simp [pieces_single hp]
  | cons p rest hp ih => simp [pieces_cons hp, hc, ih]

/-- A piece with an assignment is a pair. -/
theorem exists_pair {p : List UInt8} (hp : byte '&' ∉ p) (h : byte '=' ∈ p) :
    ∃ name value, p = name ++ byte '=' :: value ∧ byte '=' ∉ name ∧ byte '&' ∉ name ∧
      byte '&' ∉ value := by
  obtain ⟨name, value, rfl, hname⟩ := List.eq_append_cons_of_mem h
  simp only [List.mem_append, List.mem_cons, not_or] at hp
  exact ⟨name, value, rfl, hname, hp.1, hp.2.2⟩

theorem formBody_iff_pieces (body : List UInt8) :
    FormBody body ↔ ∀ p ∈ pieces body, byte '=' ∈ p := by
  have hsplit : ∀ {name value : List UInt8}, byte '&' ∉ name → byte '&' ∉ value →
      byte '&' ∉ name ++ byte '=' :: value := by
    intro name value hname hvalue
    simp only [List.mem_append, List.mem_cons, not_or]
    exact ⟨hname, by decide, hvalue⟩
  constructor
  · intro h
    induction h with
    | last _ hand hvalue => simp [pieces_single (hsplit hand hvalue)]
    | pair _ hand hvalue _ ih =>
      rw [pieces_cons (hsplit hand hvalue), List.forall_mem_cons]
      exact ⟨by simp, ih⟩
  · intro h
    induction body using pieces_induction with
    | single p hp =>
      rw [pieces_single hp] at h
      obtain ⟨name, value, rfl, hname, hand, hvalue⟩ := exists_pair hp (h p List.mem_cons_self)
      exact .last hname hand hvalue
    | cons p rest hp ih =>
      rw [pieces_cons hp] at h
      obtain ⟨name, value, rfl, hname, hand, hvalue⟩ := exists_pair hp (h p List.mem_cons_self)
      exact .pair hname hand hvalue (ih fun q hq => h q (List.mem_cons_of_mem _ hq))

theorem FormBody.orderly {body : List UInt8} (h : FormBody body) : Orderly body := by
  rw [formBody_iff_pieces] at h
  exact List.pairwise_of_forall_mem_list fun p hp _ _ _ => h p hp

def bodyOutcome (body : List UInt8) : Outcome :=
  if ∀ p ∈ pieces body, byte '=' ∈ p then .returned true
  else if Orderly body then .returned false
  else .badRange

theorem bodyOutcome_true_iff (body : List UInt8) :
    bodyOutcome body = .returned true ↔ FormBody body := by
  rw [formBody_iff_pieces, bodyOutcome]
  split
  · rename_i hform
    exact iff_of_true rfl hform
  · rename_i hform
    refine iff_of_false ?_ hform
    split <;> simp

theorem bodyOutcome_badRange_iff (body : List UInt8) :
    bodyOutcome body = .badRange ↔ ¬ Orderly body := by
  by_cases hform : FormBody body
  · rw [(bodyOutcome_true_iff body).2 hform]
    exact iff_of_false (by simp) (not_not.2 hform.orderly)
  · rw [bodyOutcome, if_neg (mt (formBody_iff_pieces body).2 hform)]
    split <;> simp_all

theorem bodyOutcome_false_iff (body : List UInt8) :
    bodyOutcome body = .returned false ↔ ¬ FormBody body ∧ Orderly body := by
  rw [← bodyOutcome_true_iff, ← not_not (a := Orderly body), ← bodyOutcome_badRange_iff, bodyOutcome]
  split
  · simp
  · split <;> simp

theorem bodyOutcome_of_none {body : List UInt8} (h : byte '=' ∉ body) :
    bodyOutcome body = .returned false := by
  have hnone : ∀ p ∈ pieces body, byte '=' ∉ p := by
    intro p hp hmem
    exact h ((mem_pieces_iff (by decide) body).2 ⟨p, hp, hmem⟩)
  have horderly : Orderly body :=
    List.pairwise_of_forall_mem_list fun p _ q hq hmem => absurd hmem (hnone q hq)
  rw [bodyOutcome, if_neg, if_pos horderly]
  intro hall
  obtain ⟨p, hp⟩ := List.exists_mem_of_ne_nil _ (List.splitOnP_ne_nil _ body)
  exact hnone p hp (hall p hp)

theorem bodyOutcome_of_pair {p rest : List UInt8} (hp : byte '&' ∉ p) (hassign : byte '=' ∈ p) :
    bodyOutcome (p ++ byte '&' :: rest) = bodyOutcome rest := by
  have hall : (∀ q ∈ pieces (p ++ byte '&' :: rest), byte '=' ∈ q) ↔
      ∀ q ∈ pieces rest, byte '=' ∈ q := by
    rw [pieces_cons hp, List.forall_mem_cons]
    exact and_iff_right hassign
  have horderly : Orderly (p ++ byte '&' :: rest) ↔ Orderly rest := by
    rw [Orderly, pieces_cons hp, List.pairwise_cons]
    exact and_iff_right fun _ _ _ => hassign
  simp only [bodyOutcome, hall, horderly]

theorem bodyOutcome_of_inverted {p rest : List UInt8} (hp : byte '&' ∉ p) (hnone : byte '=' ∉ p)
    (hassign : byte '=' ∈ rest) : bodyOutcome (p ++ byte '&' :: rest) = .badRange := by
  rw [bodyOutcome, if_neg, if_neg]
  · rw [Orderly, pieces_cons hp, List.pairwise_cons]
    rintro ⟨hfirst, -⟩
    obtain ⟨q, hq, hmem⟩ := (mem_pieces_iff (by decide) rest).1 hassign
    exact hnone (hfirst q hq hmem)
  · intro hall
    rw [pieces_cons hp] at hall
    exact hnone (hall p List.mem_cons_self)

variable {β : Type} [ByteBuffer β] {t : ℤ} {l l₂ : Loop} {c c' c₂ : HttpContext} {b b' b₂ : β}
  {o : Outcome}

/-- Along the loop every pair that is read leaves the outcome of the body as it was. -/
theorem outcome_of_body (h : Parses t l c b o c' b') (hl : l = .body) :
    o = bodyOutcome (payload b) := by
  induction h with
  | @finish l c c' b b' o hturn =>
    subst hl
    rw [turn] at hturn
    rcases body_cases (payload b) with hnone | ⟨name, value, hp, h1, h2, h3⟩ |
      ⟨name, value, rest, hp, h1, h2, h3⟩ | ⟨name, rest, hp, h1, h2, h3⟩
    · rw [bodyTurn_of_none c hnone] at hturn
      cases hturn
      exact (bodyOutcome_of_none hnone).symm
    · rw [bodyTurn_of_last c hp h1 h2 h3] at hturn
      cases hturn
      rw [bodyOutcome, if_pos]
      rw [← formBody_iff_pieces, hp]
      exact .last h1 h2 h3
    · rw [bodyTurn_of_pair c hp h1 h2 h3] at hturn
      cases hturn
    · rw [bodyTurn_of_inverted c hp h1 h2 h3] at hturn
      cases hturn
      rw [hp, bodyOutcome_of_inverted h2 h1 h3]
  | @again l l₁ c c₁ c' b b₁ b' o hturn _ ih =>
    subst hl
    have hcases := bodyTurn_of_turn hturn
    cases hcases with
    | @pair name value rest hp h1 h2 h3 =>
      have hfree : byte '&' ∉ name ++ byte '=' :: value := by
        simp only [List.mem_append, List.mem_cons, not_or]
        exact ⟨h2, by decide, h3⟩
      rw [ih rfl, payload_clear, hp, drop_past, bodyOutcome_of_pair hfree (by simp)]

theorem Iterates.stays_in_body (h : Iterates t l c b l₂ c₂ b₂) (hl : l = .body) : l₂ = .body := by
  induction h with
  | refl => exact hl
  | @again l l₁ l₂ c c₁ c₂ b b₁ b₂ hturn _ ih =>
    subst hl
    have hcases := bodyTurn_of_turn hturn
    cases hcases with
    | pair => exact ih rfl

/-- What an iteration hands to `addBody`: where the equals sign is and where the value ends. -/
def addBodyRange (b : β) : Option (ℕ × ℕ) :=
  (getAssignment b).map fun assignment => (assignment, (getAND b).getD (getEOL b))

theorem inverted_of_badRange (h : bodyTurn c b = .finished .badRange c' b') :
    ∃ assignment last, addBodyRange b = some (assignment, last) ∧ last ≤ assignment := by
  rw [bodyTurn] at h
  cases hassign : getAssignment b with
  | none =>
    rw [hassign] at h
    cases h
  | some assignment =>
    rw [hassign] at h
    cases hand : getAND b with
    | none =>
      rw [hand] at h
      cases h
    | some andOp =>
      simp only [hand] at h
      split at h
      · rename_i hinverted
        refine ⟨assignment, andOp, ?_, by omega⟩
        rw [addBodyRange, hassign, hand]
        rfl
      · cases h

theorem find_lt {α : Type*} [DecidableEq α] {x : α} {w : List α} {i : ℕ}
    (h : find x w = some i) : i < w.length := by
  obtain ⟨pre, post, rfl, -, rfl⟩ := find_eq_some h
  simp only [List.length_append, List.length_cons]
  omega

theorem valid_of_not_badRange (hgood : ∀ c' b', bodyTurn c b ≠ .finished .badRange c' b')
    {assignment last : ℕ} (h : addBodyRange b = some (assignment, last)) :
    assignment < last ∧ last ≤ getEOL b := by
  rw [addBodyRange, Option.map_eq_some_iff] at h
  obtain ⟨i, hassign, heq⟩ := h
  cases hand : getAND b with
  | none =>
    rw [hand] at heq
    cases heq
    exact ⟨find_lt hassign, le_refl _⟩
  | some andOp =>
    rw [hand] at heq
    cases heq
    have hturn := hgood c b
    rw [bodyTurn, hassign] at hturn
    simp only [hand] at hturn
    split at hturn
    · exact absurd rfl hturn
    · change assignment < andOp ∧ andOp ≤ getEOL b
      exact ⟨by omega, (find_lt hand).le⟩

theorem turn_of_length (t : ℤ) (hstate : c.state = .EXPECTBODY)
    (hlength : stoi (c.request.getHeader (bytes "Content-Length")) =
      .ok (Int.bmod (getEOL b) (2 ^ 32))) : turn t .outer c b = .again .body c b := by
  rw [turn_length t b hstate, lengthTurn_of_ok (c := c) b hlength]
  exact if_neg (by simp)

/-- In a call from the context `c`, every range handed to `addBody` is one, and what is
not a form is rejected. -/
structure ValidRanges (t : ℤ) (c : HttpContext) (b : β) : Prop where
  ranges : ∀ c₁ b₁ assignment last, Iterates t .outer c b .body c₁ b₁ →
    addBodyRange b₁ = some (assignment, last) → assignment < last ∧ last ≤ getEOL b₁
  rejects : ¬ FormBody (payload b) →
    ∃ c' b', parseRequest t c b = some (.returned false, c', b')

/-- For a body of the announced length. -/
theorem validRanges_iff_orderly (t : ℤ) (c : HttpContext) (b : β) (hstate : c.state = .EXPECTBODY)
    (hlength : stoi (c.request.getHeader (bytes "Content-Length")) =
      .ok (Int.bmod (getEOL b) (2 ^ 32))) : ValidRanges t c b ↔ Orderly (payload b) := by
  have hne : c.state ≠ .ALLOK := by simp [hstate]
  have hturn := turn_of_length t hstate hlength
  obtain ⟨o, c', b', hrun⟩ := parseRequest_total t b hne
  have houtcome := outcome_of_body (hrun.of_iterates (.again hturn .refl)) rfl
  constructor
  · intro h
    by_contra hnot
    obtain rfl := houtcome.trans ((bodyOutcome_badRange_iff _).2 hnot)
    obtain ⟨l₂, c₂, b₂, hiter, hlast⟩ := (hrun.of_iterates (.again hturn .refl)).last_turn
    obtain rfl := hiter.stays_in_body rfl
    rw [turn] at hlast
    obtain ⟨assignment, last, hrange, hinverted⟩ := inverted_of_badRange hlast
    have hvalid := h.ranges c₂ b₂ assignment last (.again hturn hiter) hrange
    omega
  · intro h
    refine ⟨fun c₁ b₁ assignment last hiter hrange => ?_, fun hform => ?_⟩
    · refine valid_of_not_badRange (c := c₁) (fun c₂ b₂ hbad => ?_) hrange
      have hend : Parses t .body c₁ b₁ .badRange c₂ b₂ := .finish (by rw [turn]; exact hbad)
      obtain ⟨rfl, -, -⟩ := (hrun.of_iterates hiter).unique hend
      exact (bodyOutcome_badRange_iff _).1 houtcome.symm h
    · obtain rfl := houtcome.trans ((bodyOutcome_false_iff _).2 ⟨hform, h⟩)
      exact ⟨c', b', (parseRequest_iff hne).2 hrun⟩

def expectingBody (length : String) : HttpContext :=
  ⟨.EXPECTBODY, withHeader HttpRequest.empty (bytes "Content-Length") (bytes length)⟩

theorem expectingBody_length (length : String) :
    (expectingBody length).request.getHeader (bytes "Content-Length") = bytes length := by
  rw [expectingBody, getHeader_withHeader, if_pos rfl]

theorem validRanges_of_two_pairs : ValidRanges 0 (expectingBody "7") (bytes "a=1&b=c") := by
  refine (validRanges_iff_orderly 0 (expectingBody "7") (bytes "a=1&b=c") rfl ?_).2
    (by decide +kernel)
  rw [expectingBody_length]
  decide +kernel

theorem fourBytes_announced :
    stoi ((expectingBody "4").request.getHeader (bytes "Content-Length")) =
      .ok (Int.bmod (getEOL (bytes "&a=1")) (2 ^ 32)) := by
  rw [expectingBody_length]
  decide +kernel

/-- The body has the announced length, and the value of its only pair would end before it
begins. -/
theorem ampersand_first_not_validRanges :
    stoi ((expectingBody "4").request.getHeader (bytes "Content-Length")) =
        .ok (Int.bmod (getEOL (bytes "&a=1")) (2 ^ 32)) ∧
      ¬ ValidRanges 0 (expectingBody "4") (bytes "&a=1") := by
  refine ⟨fourBytes_announced, fun h => ?_⟩
  have hturn := turn_of_length (c := expectingBody "4") (b := bytes "&a=1") 0 rfl fourBytes_announced
  have hrange : addBodyRange (bytes "&a=1") = some (2, 0) := by
    decide +kernel
  have hvalid := h.ranges _ _ 2 0 (.again hturn .refl) hrange
  omega

end HydrogenWeb.HttpContext
