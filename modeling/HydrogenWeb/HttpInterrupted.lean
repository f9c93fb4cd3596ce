import HydrogenWeb.HttpResume

set_option autoImplicit false

/-!
# Interrupted parses

A parse only depends on the unread bytes of its buffer. One that waits several times for
more of them ends like a single parse of all of them.
-/
namespace HydrogenWeb.HttpContext
open ListSearch ByteBuffer HttpRequest

variable {β : Type} [ByteBuffer β]

def Turn.queue : Turn β → Turn (List UInt8)
  | .again l c b => .again l c (payload b)
  | .finished o c b => .finished o c (payload b)

theorem turn_queue (t : ℤ) (l : Loop) (c : HttpContext) (b : β) :
    turn t l c (payload b) = (turn t l c b).queue := by
  have hclear : ∀ k, clear (payload b) k = payload (clear b k) := fun k => (payload_clear b k).symm
  cases l with
  | outer =>
    obtain ⟨state, request⟩ := c
    cases state with
    | EXPECTREQUESTLINE =>
      change requestLineTurn t _ (payload b) = (requestLineTurn t _ b).queue
      unfold requestLineTurn
      rw [show getCRLF (payload b) = getCRLF b from rfl]
      cases getCRLF b with
      | none => rfl
      | some crlf =>
        simp only [hclear]
        change (if (parseRequestLine request ((payload b).take crlf)).1 then _ else _) = _
        split <;> rfl
    | EXPECTHEADERS =>
      change headersTurn _ (payload b) = (headersTurn _ b).queue
      unfold headersTurn
      rw [show getCRLF (payload b) = getCRLF b from rfl]
      cases getCRLF b with
      | none => rfl
      | some crlf =>
        simp only [hclear]
        rw [show payload (payload b) = payload b from rfl]
        cases find (byte ':') ((payload b).take crlf) with
        | some colon => rfl
        | none =>
          simp only
          split <;> rfl
    | EXPECTBODY =>
      change lengthTurn _ (payload b) = (lengthTurn _ b).queue
      cases hstoi : stoi (request.getHeader (bytes "Content-Length")) with
      | error e =>
        rw [lengthTurn_of_error (c := ⟨.EXPECTBODY, request⟩) b hstoi,
          lengthTurn_of_error (c := ⟨.EXPECTBODY, request⟩) (payload b) hstoi]
        rfl
      | ok n =>
        rw [lengthTurn_of_ok (c := ⟨.EXPECTBODY, request⟩) b hstoi,
          lengthTurn_of_ok (c := ⟨.EXPECTBODY, request⟩) (payload b) hstoi]
        change (if n ≠ Int.bmod (getEOL b) (2 ^ 32) then _ else _) = _
        split <;> rfl
    | ALLOK => rfl
  | body =>
    change bodyTurn _ (payload b) = (bodyTurn _ b).queue
    unfold bodyTurn
    rw [show getAssignment (payload b) = getAssignment b from rfl]
    cases getAssignment b with
    | none => rfl
    | some assignment =>
      rw [show getAND (payload b) = getAND b from rfl]
      cases getAND b with
      | none =>
        simp only [hclear]
        rfl
      | some andOp =>
        simp only [hclear]
        split <;> rfl

variable {t : ℤ} {l : Loop} {c c' : HttpContext} {b b' : β} {o : Outcome}

theorem Parses.queue (h : Parses t l c b o c' b') :
    Parses t l c (payload b) o c' (payload b') := by
  induction h with
  | finish hturn => exact .finish (by rw [turn_queue, hturn]; rfl)
  | again hturn _ ih => exact .again (by rw [turn_queue, hturn]; rfl) ih

/-- `parseRequest` is called after each chunk has been appended, and every call but the last
returns true before ALLOK. A chunk comes with its receive time. -/
inductive Interrupted :
    HttpContext → β → List (List UInt8 × ℤ) → Outcome → HttpContext → β → Prop
  | last {c c' : HttpContext} {b b₁ b' : β} {data : List UInt8} {t : ℤ} {o : Outcome}
      (happend : payload b₁ = payload b ++ data)
      (hcall : parseRequest t c b₁ = some (o, c', b')) : Interrupted c b [(data, t)] o c' b'
  | wait {c c₁ c' : HttpContext} {b b₁ b₂ b' : β} {data : List UInt8} {t : ℤ}
      {chunks : List (List UInt8 × ℤ)} {o : Outcome} (happend : payload b₁ = payload b ++ data)
      (hcall : parseRequest t c b₁ = some (.returned true, c₁, b₂)) (hwait : c₁.state ≠ .ALLOK)
      (tail : Interrupted c₁ b₂ chunks o c' b') : Interrupted c b ((data, t) :: chunks) o c' b'

variable {chunks : List (List UInt8 × ℤ)}

theorem Interrupted.parses (h : Interrupted c b chunks o c' b') (hs : c.state ≠ .ALLOK) :
    Parses 0 .outer c.timeless (payload b ++ (chunks.map Prod.fst).flatten) o c'.timeless
      (payload b') := by
  induction h with
  | last happend hcall =>
    have hrun := ((parseRequest_iff hs).1 hcall).timeless.queue
    rw [happend] at hrun
    simpa using hrun
  | wait happend hcall hwait _ ih =>
    have hrun := ((parseRequest_iff hs).1 hcall).timeless.queue
    rw [happend] at hrun
    have hrest := hrun.resume rfl hs rfl hwait (ih hwait)
    rwa [List.append_assoc] at hrest

/-- However the bytes are cut, the calls end like one call on all of them. -/
theorem parseRequest_interrupted (hs : c.state ≠ .ALLOK) (h : Interrupted c b chunks o c' b')
    (t : ℤ) (whole : β) (hwhole : payload whole = payload b ++ (chunks.map Prod.fst).flatten) :
    ∃ c₂ b₂, parseRequest t c whole = some (o, c₂, b₂) ∧ c₂.timeless = c'.timeless ∧
      payload b₂ = payload b' := by
  obtain ⟨o₂, c₂, b₂, hrun⟩ := parseRequest_total t whole hs
  have hqueue := hrun.timeless.queue
  rw [hwhole] at hqueue
  obtain ⟨rfl, hcontext, hunread⟩ := hqueue.unique (h.parses hs)
  exact ⟨c₂, b₂, (parseRequest_iff hs).2 hrun, hcontext, hunread⟩

/-- The cut is between the CR and the LF of the request line. -/
theorem parseRequest_interrupted_in_crlf : ∃ (c' : HttpContext) (b' : List UInt8),
    Interrupted fresh [] [(bytes "GET / HTTP/1.1\r", 5), (bytes "\n\r\nx", 7)]
        (.returned true) c' b' ∧
      ∃ c₂ b₂, parseRequest 9 fresh (bytes "GET / HTTP/1.1\r\n\r\nx") =
          some (.returned true, c₂, b₂) ∧ c₂.timeless = c'.timeless ∧ payload b₂ = payload b' := by
  have hlive : fresh.state ≠ .ALLOK := by simp [fresh]
  have hnone : getCRLF (bytes "GET / HTTP/1.1\r") = none := by
    decide +kernel
  have hfirst : Parses 5 .outer fresh (bytes "GET / HTTP/1.1\r") (.returned true) fresh
      (bytes "GET / HTTP/1.1\r") := by
    refine .finish ?_
    rw [turn_requestLine 5 _ rfl, requestLineTurn, hnone]
  have hend : (parseRequest 7 fresh (bytes "GET / HTTP/1.1\r" ++ bytes "\n\r\nx")).map Prod.fst =
      some (.returned true) := by
    decide +kernel
  obtain ⟨⟨o, c', b'⟩, hsecond, ho⟩ := Option.map_eq_some_iff.1 hend
  change o = _ at ho
  subst ho
  have hcalls : Interrupted fresh [] [(bytes "GET / HTTP/1.1\r", 5), (bytes "\n\r\nx", 7)]
      (.returned true) c' b' :=
    .wait rfl ((parseRequest_iff hlive).2 hfirst) hlive (.last rfl hsecond)
  exact ⟨c', b', hcalls, parseRequest_interrupted hlive hcalls 9 _ (by decide +kernel)⟩

end HydrogenWeb.HttpContext
