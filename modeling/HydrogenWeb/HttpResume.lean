import HydrogenWeb.HttpMessage

set_option autoImplicit false

/-!
# Resuming a parse

What a line leads to does not depend on the bytes behind it, and the receive time is
stored but never looked at. So a session that has only waited so far is where a parse of
all the bytes so far would be.
-/
namespace HydrogenWeb.HttpContext
open ListSearch ByteBuffer HttpRequest

def timeless (c : HttpContext) : HttpContext := { c with request := c.request.setReceiveTime 0 }

def Turn.map {β : Type} (f : HttpContext → HttpContext) : Turn β → Turn β
  | .again l c b => .again l (f c) b
  | .finished o c b => .finished o (f c) b

theorem timeless_fresh : fresh.timeless = fresh := rfl

theorem setTarget_setReceiveTime (r : HttpRequest) (target : List UInt8) (t : ℤ) :
    setTarget (r.setReceiveTime t) target = (setTarget r target).setReceiveTime t := by
  unfold setTarget
  split <;> rfl

theorem parseRequestLine_setReceiveTime (r : HttpRequest) (line : List UInt8) (t : ℤ) :
    parseRequestLine (r.setReceiveTime t) line =
      ((parseRequestLine r line).1, (parseRequestLine r line).2.setReceiveTime t) := by
  unfold parseRequestLine
  cases find (byte ' ') line with
  | none => rfl
  | some space =>
    simp only
    have hset : ∀ m, (r.setReceiveTime t).setMethod m =
        ((r.setMethod m).1, (r.setMethod m).2.setReceiveTime t) := fun m => rfl
    rw [hset]
    simp only
    split
    · cases find (byte ' ') (line.drop (space + 1)) with
      | none => rfl
      | some space₂ =>
        simp only [setTarget_setReceiveTime]
        split
        · split
          · rfl
          · split <;> rfl
        · rfl
    · rfl

variable {β : Type} [ByteBuffer β]

theorem turn_timeless (t : ℤ) (l : Loop) (c : HttpContext) (b : β) :
    turn 0 l c.timeless b = (turn t l c b).map timeless := by
  cases l with
  | outer =>
    obtain ⟨state, request⟩ := c
    cases state with
    | EXPECTREQUESTLINE =>
      show requestLineTurn 0 _ b = (requestLineTurn t _ b).map timeless
      unfold requestLineTurn
      split
      · rfl
      · simp only [timeless, parseRequestLine_setReceiveTime]
        split <;> rfl
    | EXPECTHEADERS =>
      show headersTurn _ b = (headersTurn _ b).map timeless
      unfold headersTurn
      split
      · rfl
      · split
        · rfl
        · by_cases hget : request.method = .GET <;> simp [timeless, setReceiveTime, hget, Turn.map]
    | EXPECTBODY =>
      show lengthTurn _ b = (lengthTurn _ b).map timeless
      cases hstoi : stoi (request.getHeader (bytes "Content-Length")) with
      | error e =>
        rw [lengthTurn_of_error b hstoi, lengthTurn_of_error b (c := ⟨.EXPECTBODY, request⟩) hstoi]
        rfl
      | ok n =>
        rw [lengthTurn_of_ok b hstoi, lengthTurn_of_ok b (c := ⟨.EXPECTBODY, request⟩) hstoi]
        split <;> rfl
    | ALLOK => rfl
  | body =>
    show bodyTurn _ b = (bodyTurn _ b).map timeless
    unfold bodyTurn
    split
    · rfl
    · split
      · split <;> rfl
      · rfl

variable {t : ℤ} {l : Loop} {c c' : HttpContext} {b b' : β} {o : Outcome}

theorem Parses.timeless (h : Parses t l c b o c' b') :
    Parses 0 l c.timeless b o c'.timeless b' := by
  induction h with
  | finish hturn => exact .finish (by rw [turn_timeless t, hturn]; rfl)
  | again hturn _ ih => exact .again (by rw [turn_timeless t, hturn]; rfl) ih

theorem allOk_of_body (h : Parses t l c b o c' b') (hl : l = .body) (ho : o = .returned true) :
    c'.state = .ALLOK := by
  induction h with
  | @finish l c c' b b' o hturn =>
    subst hl
    have hcases := bodyTurn_of_turn hturn
    cases hcases with
    | fails hne => exact absurd ho hne
    | last => rfl
  | @again l l₁ c c₁ c' b b₁ b' o hturn _ ih =>
    subst hl
    have hcases := bodyTurn_of_turn hturn
    cases hcases with
    | pair => exact ih rfl ho

section Queue

variable {u u' v w : List UInt8}

theorem again_append (hs : c.state ≠ .ALLOK) (h : turn t .outer c u = .again .outer c' u') :
    turn t .outer c (u ++ v) = .again .outer c' (u' ++ v) := by
  have hgrow : ∀ {line rest : List UInt8}, u = line ++ CR :: LF :: rest →
      payload (u ++ v) = line ++ CR :: LF :: (rest ++ v) ∧
        clear (u ++ v) (line.length + 2) = clear u (line.length + 2) ++ v := by
    intro line rest heq
    have hlong : payload (u ++ v) = line ++ CR :: LF :: (rest ++ v) := by
      show u ++ v = _
      rw [heq]
      simp
    refine ⟨hlong, ?_⟩
    exact (drop_line hlong).trans (congrArg (· ++ v) (drop_line (b := u) heq).symm)
  have hcases := outerTurn_of_turn hs h
  cases hcases with
  | requestLine hstate hp hno hgood =>
    obtain ⟨hlong, hclear⟩ := hgrow hp
    rw [turn_requestLine t _ hstate, requestLineTurn_of_line t c hlong hno, if_pos hgood, hclear]
  | field hstate hp hno hname =>
    obtain ⟨hlong, hclear⟩ := hgrow hp
    rw [turn_headers t _ hstate, headersTurn_of_field c hlong hno hname, hclear]
  | endOfHead hstate hp hno hcolon hget =>
    obtain ⟨hlong, hclear⟩ := hgrow hp
    rw [turn_headers t _ hstate, headersTurn_of_end c hlong hno hcolon, if_neg hget, hclear]

/-- On an ideal queue: a parse that waits goes on, with more bytes, as if they had been
there before. -/
theorem Parses.resume (h : Parses t l c u o c' u') (hl : l = .outer) (hs : c.state ≠ .ALLOK)
    (ho : o = .returned true) (hwait : c'.state ≠ .ALLOK) {o₂ : Outcome} {c₂ : HttpContext}
    (h₂ : Parses t .outer c' (u' ++ v) o₂ c₂ w) : Parses t .outer c (u ++ v) o₂ c₂ w := by
  induction h with
  | @finish l c c' u u' o hturn =>
    subst hl ho
    have hcases := outerTurn_of_turn hs hturn
    cases hcases with
    | wait => exact h₂
    | endOfGet => exact absurd rfl hwait
  | @again l l₁ c c₁ c' u u₁ u' o hturn tail ih =>
    subst hl
    obtain ⟨hlive, -⟩ := again_progress (Or.inr hs) hturn
    cases l₁ with
    | outer =>
      exact .again (again_append hs hturn) (ih rfl (hlive.resolve_left (by simp)) ho hwait h₂)
    | body => exact absurd (allOk_of_body tail rfl ho) hwait

end Queue

end HydrogenWeb.HttpContext

namespace HydrogenWeb.HttpServer
open HttpContext ByteBuffer

/-- The session stands where the parser of a fresh connection is with the bytes `q`. -/
structure Fed (q : List UInt8) (s : Session (List UInt8)) : Prop where
  live : s.context.state ≠ .ALLOK
  resumes : ∀ {v w : List UInt8} {o : Outcome} {c : HttpContext},
    Parses 0 .outer s.context.timeless (s.inputBuffer ++ v) o c w →
      Parses 0 .outer HttpContext.fresh (q ++ v) o c w

theorem fed_start {q : List UInt8} {s : Session (List UInt8)} (hq : s.inputBuffer = q)
    (h : s.context = HttpContext.fresh) : Fed q s where
  live := by rw [h]; simp [HttpContext.fresh]
  resumes hrun := by rwa [h, timeless_fresh, hq] at hrun

theorem receive_eq (s : Session (List UInt8)) (chunk : Chunk) :
    s.receive chunk =
      (onMessage chunk.callback s.context (s.inputBuffer ++ chunk.data) chunk.receiveTime).map
        fun (calls, context, b) => ⟨context, b, s.calls ++ calls⟩ := rfl

variable {q w : List UInt8} {s : Session (List UInt8)} {chunk : Chunk} {c : HttpContext}

/-- What a chunk does is what the parser of a fresh connection does with all the bytes. -/
theorem Fed.parses (h : Fed q s) {o : Outcome}
    (hrun : Parses 0 .outer HttpContext.fresh (q ++ chunk.data) o c w) :
    ∃ c', Parses chunk.receiveTime .outer s.context (s.inputBuffer ++ chunk.data) o c' w ∧
      c'.timeless = c := by
  obtain ⟨o₂, c₂, w₂, hrun₂⟩ :=
    parseRequest_total chunk.receiveTime (s.inputBuffer ++ chunk.data) h.live
  obtain ⟨rfl, rfl, rfl⟩ := (h.resumes hrun₂.timeless).unique hrun
  exact ⟨c₂, hrun₂, rfl⟩

theorem Fed.receive_waits (h : Fed q s)
    (hrun : Parses 0 .outer HttpContext.fresh (q ++ chunk.data) (.returned true) c w)
    (hwait : c.state ≠ .ALLOK) :
    ∃ s', s.receive chunk = some s' ∧ Fed (q ++ chunk.data) s' ∧ s'.calls = s.calls := by
  obtain ⟨c', hrun', rfl⟩ := h.parses hrun
  refine ⟨_, by rw [receive_eq, onMessage_of_waiting h.live hrun' hwait]; rfl, ⟨hwait, ?_⟩, ?_⟩
  · intro v w₂ o₂ c₂ hrest
    exact hrun.resume rfl HttpContext.fresh_live rfl hwait hrest
  · simp

/-- After a request the connection is as a fresh one with the bytes `w` behind the request. -/
theorem Fed.receive_completes (h : Fed q s) (chunk : Chunk)
    (hrun : Parses 0 .outer HttpContext.fresh (q ++ chunk.data) (.returned true) c w)
    (hok : c.state = .ALLOK) :
    ∃ request s', s.receive chunk = some s' ∧ request.setReceiveTime 0 = c.request ∧
      s'.calls = s.calls ++ processRequest chunk.callback request ∧
        (c.request.bodys = ∅ → Fed w s') := by
  obtain ⟨c', hrun', rfl⟩ := h.parses hrun
  refine ⟨c'.request, ⟨c'.reset, w, _⟩, ?_, rfl, rfl, fun hbodys => fed_start rfl ?_⟩
  · rw [receive_eq, onMessage_of_allOk h.live hrun' hok]
    rfl
  · have hempty : c'.request.bodys = ∅ := hbodys
    simp [HttpContext.reset, HttpRequest.swap, hempty, HttpContext.fresh, HttpRequest.empty]

theorem Fed.receive_rejects (h : Fed q s)
    (hrun : Parses 0 .outer HttpContext.fresh (q ++ chunk.data) (.returned false) c w) :
    ∃ s', s.receive chunk = some s' ∧ s'.calls = s.calls ++ badRequest := by
  obtain ⟨c', hrun', rfl⟩ := h.parses hrun
  have hwait : c'.state ≠ .ALLOK := fun hok => by
    have := returned_of_allOk hrun' h.live hok
    cases this
  exact ⟨_, by rw [receive_eq, onMessage_of_waiting h.live hrun' hwait]; rfl, by simp⟩

theorem Fed.receive_fails (h : Fed q s) {e : StoiException}
    (hrun : Parses 0 .outer HttpContext.fresh (q ++ chunk.data) (.threw e) c w) :
    s.receive chunk = none := by
  obtain ⟨c', hrun', -⟩ := h.parses hrun
  rw [receive_eq, onMessage_of_failure h.live hrun' (by simp)]
  rfl

end HydrogenWeb.HttpServer
