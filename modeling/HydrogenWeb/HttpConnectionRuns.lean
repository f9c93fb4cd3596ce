import HydrogenWeb.HttpResume
import HydrogenWeb.TransitionRuns

set_option autoImplicit false

/-!
# The calls of the parser on a connection

Which requests `parseRequestLine` is called on is a question about all chunks that have
come before: a rejected line stays in the buffer, and its method in the request.
-/
namespace HydrogenWeb

namespace HttpContext
open ListSearch ByteBuffer HttpRequest

theorem parseRequestLine_iff (r : HttpRequest) (line : List UInt8) :
    (parseRequestLine r line).1 = true ↔ ∃ m target v, RequestLine line m target v := by
  constructor
  · exact requestLine_of_parse
  · rintro ⟨m, target, v, hline⟩
    rw [parseRequestLine_of r hline]

def KnownMethod (line : List UInt8) : Prop :=
  ∃ m rest, m ≠ .INVALID ∧ line = methodString m ++ byte ' ' :: rest

theorem RequestLine.knownMethod {line target : List UInt8} {m : Method} {v : Version}
    (h : RequestLine line m target v) : KnownMethod line := ⟨m, _, h.known, h.text⟩

/-- The method stays, whatever else is wrong with the line. -/
theorem method_of_known {line : List UInt8} (h : KnownMethod line) (r : HttpRequest) :
    (parseRequestLine r line).2.method ≠ .INVALID := by
  obtain ⟨m, rest, hm, rfl⟩ := h
  have hfree : byte ' ' ∉ methodString m := by
    cases m <;> decide
  simp only [parseRequestLine, find_append_cons hfree, List.take_left, drop_past,
    setMethod_methodString r hm, if_true]
  cases find (byte ' ') rest with
  | none => exact hm
  | some space =>
    simp only
    split
    · split
      · simpa [setVersion] using hm
      · split <;> simpa [setVersion] using hm
    · simpa using hm

theorem parseRequestLine_of_unknown {line : List UInt8} (h : ¬ KnownMethod line) {r : HttpRequest}
    (hr : r.method = .INVALID) : parseRequestLine r line = (false, r) := by
  cases hfind : find (byte ' ') line with
  | none => rw [parseRequestLine, hfind]
  | some space =>
    obtain ⟨method, rest, rfl, -, rfl⟩ := find_eq_some hfind
    have hunknown : (r.setMethod method).1 = false := by
      by_contra hknown
      rw [Bool.not_eq_false] at hknown
      obtain ⟨m, hm, rfl⟩ := setMethod_known hknown
      exact h ⟨m, rest, hm, rfl⟩
    have hkept : (r.setMethod method).2 = r := by
      simp only [setMethod, ne_eq, decide_eq_false_iff_not, not_not] at hunknown ⊢
      rw [hunknown, ← hr]
    have hset : r.setMethod method = (false, r) := Prod.ext hunknown hkept
    simp only [parseRequestLine, hfind, List.take_left, hset, Bool.false_eq_true, if_false]

section Calls

variable {β : Type} [ByteBuffer β] {t : ℤ} {l l₁ l₂ : Loop} {c c' c₁ c₂ : HttpContext}
  {b b' b₁ b₂ : β} {o : Outcome}

/-- The first line is there, begins with a known method, and is not a request line. -/
def Rejectable (unread : List UInt8) : Prop :=
  ∃ line rest, unread = line ++ CR :: LF :: rest ∧ NoPair CR LF line ∧ KnownMethod line ∧
    ¬ ∃ m target v, RequestLine line m target v

/-- No assertion has failed yet, and none can fail in the next call. -/
structure Ready (c : HttpContext) : Prop where
  live : c.state ≠ .ALLOK
  unset : c.state = .EXPECTREQUESTLINE →
    c.request.method = .INVALID ∧ c.request.version = .UNKNOWN ∧ c.request.query = []
  known : c.state ≠ .EXPECTREQUESTLINE → c.request.method ≠ .INVALID

/-- The method of a rejected line is set, and the line will be read again. -/
structure Stuck (c : HttpContext) (unread : List UInt8) : Prop where
  state : c.state = .EXPECTREQUESTLINE
  method : c.request.method ≠ .INVALID
  line : Rejectable unread

theorem Rejectable.append {unread : List UInt8} (h : Rejectable unread) (data : List UInt8) :
    Rejectable (unread ++ data) := by
  obtain ⟨line, rest, rfl, hline⟩ := h
  exact ⟨line, rest ++ data, by simp, hline⟩

theorem Rejectable.ne_nil {unread : List UInt8} (h : Rejectable unread) : unread ≠ [] := by
  obtain ⟨line, rest, rfl, -⟩ := h
  simp

/-- The call returns false and leaves the line in the buffer. -/
theorem Rejectable.parses (h : Rejectable (payload b)) (t : ℤ)
    (hs : c.state = .EXPECTREQUESTLINE) :
    ∃ c', Parses t .outer c b (.returned false) c' b ∧ Stuck c' (payload b) := by
  have hfirst := h
  obtain ⟨line, rest, hp, hno, hknown, hbad⟩ := h
  have hrejected : ¬ (parseRequestLine c.request line).1 = true :=
    mt (parseRequestLine_iff c.request line).1 hbad
  have hturn := requestLineTurn_of_line t c hp hno
  rw [if_neg hrejected, ← turn_requestLine t b hs] at hturn
  exact ⟨_, .finish hturn, hs, method_of_known hknown c.request, hfirst⟩

theorem Ready.parses (hc : Ready c) (h : Parses t .outer c b o c' b')
    (hgood : c.state = .EXPECTREQUESTLINE → ¬ Rejectable (payload b)) :
    Ready c' ∨ c'.state = .ALLOK := by
  by_cases hok : c'.state = .ALLOK
  · exact Or.inr hok
  · left
    by_cases hline : c.state = .EXPECTREQUESTLINE
    · obtain ⟨hmethod, hversion, hquery⟩ := hc.unset hline
      have hcases := outerTurn_cases t b hc.live
      cases h with
      | finish hturn =>
        rw [hturn] at hcases
        cases hcases with
        | wait => exact hc
        | badLine _ hp hno hbad =>
          have hunknown : ¬ KnownMethod _ := fun hknown => hgood hline
            ⟨_, _, hp, hno, hknown, mt (parseRequestLine_iff c.request _).2 hbad⟩
          rw [parseRequestLine_of_unknown hunknown hmethod]
          exact hc
        | endOfGet h₁ => rw [hline] at h₁; cases h₁
        | threw h₁ => rw [hline] at h₁; cases h₁
        | wrongLength h₁ => rw [hline] at h₁; cases h₁
      | again hturn tail =>
        rw [hturn] at hcases
        cases hcases with
        | requestLine _ hp hno haccepted =>
          obtain ⟨m, target, v, hgrammar⟩ := requestLine_of_parse haccepted
          have hs := tail.advances.leaves_line (by simp)
          refine ⟨hok, fun hs₂ => absurd hs₂ hs, fun _ => ?_⟩
          rw [tail.advances.method (by simp)]
          exact method_of_known hgrammar.knownMethod c.request
        | field h₁ => rw [hline] at h₁; cases h₁
        | endOfHead h₁ => rw [hline] at h₁; cases h₁
        | rightLength h₁ => rw [hline] at h₁; cases h₁
    · refine ⟨hok, fun hs => absurd hs (h.advances.leaves_line hline), fun _ => ?_⟩
      rw [h.advances.method hline]
      exact hc.known hline

end Calls

end HttpContext

namespace HttpServer
open TransitionRuns ListSearch ByteBuffer HttpContext HttpRequest

def LineRejected {β : Type} [ByteBuffer β] (c : HttpContext) (b : β) : Prop :=
  c.state = .EXPECTREQUESTLINE ∧ Rejectable (payload b)

theorem ready_fresh : Ready HttpContext.fresh :=
  ⟨HttpContext.fresh_live, fun _ => ⟨rfl, rfl, rfl⟩, fun hs => absurd rfl hs⟩

theorem ready_reset (c : HttpContext) : Ready c.reset :=
  ⟨by simp [HttpContext.reset], fun _ => ⟨rfl, rfl, rfl⟩, fun hs => absurd rfl hs⟩

section Messages

variable {β : Type} [ByteBuffer β] {s s' : Session β} {b : β} {chunk : Chunk}

theorem message_eq_some (hlive : s.context.state ≠ .ALLOK) (h : s.message b chunk = some s') :
    ∃ correct c', Parses chunk.receiveTime .outer s.context b (.returned correct) c'
      s'.inputBuffer ∧ s'.context = if c'.state = .ALLOK then c'.reset else c' := by
  obtain ⟨o, c', b', hrun⟩ := parseRequest_total chunk.receiveTime b hlive
  rw [Session.message] at h
  by_cases hok : c'.state = .ALLOK
  · obtain rfl := returned_of_allOk hrun hlive hok
    rw [onMessage_of_allOk hlive hrun hok] at h
    cases h
    exact ⟨true, c', hrun, (if_pos hok).symm⟩
  · cases o with
    | returned correct =>
      rw [onMessage_of_waiting hlive hrun hok] at h
      cases h
      exact ⟨correct, c', hrun, (if_neg hok).symm⟩
    | threw e =>
      rw [onMessage_of_failure hlive hrun (by simp)] at h
      cases h
    | badRange =>
      rw [onMessage_of_failure hlive hrun (by simp)] at h
      cases h

theorem message_ready (h : Ready s.context) (hgood : ¬ LineRejected s.context b)
    (hs : s.message b chunk = some s') : Ready s'.context := by
  obtain ⟨correct, c', hrun, hcontext⟩ := message_eq_some h.live hs
  have hnext := h.parses hrun fun hline hbad => hgood ⟨hline, hbad⟩
  rw [hcontext]
  split
  · exact ready_reset c'
  · rename_i hok
    exact hnext.resolve_right hok

/-- The rejected line is answered, and the connection goes on with it. -/
theorem message_rejected (hline : LineRejected s.context b) (chunk : Chunk) :
    ∃ s', s.message b chunk = some s' ∧ s'.inputBuffer = b ∧ Stuck s'.context (payload b) := by
  obtain ⟨hs, hbad⟩ := hline
  obtain ⟨c', hrun, hstuck⟩ := hbad.parses chunk.receiveTime hs
  refine ⟨⟨c', b, s.calls ++ badRequest⟩, ?_, rfl, hstuck⟩
  rw [Session.message, onMessage_of_waiting (by simp [hs]) hrun (by simp [hstuck.state])]
  rfl

end Messages

variable {s s' : Session (List UInt8)} {chunk : Chunk}

structure LineParsed (r : HttpRequest) (line : List UInt8) : Prop where
  accepts : (parseRequestLine r line).1 = true ↔ ∃ m target v, RequestLine line m target v
  stored : ∀ m target v, RequestLine line m target v →
    (parseRequestLine r line).2.method = m ∧ (parseRequestLine r line).2.version = v
  withQuery : ∀ m path query v, RequestLine line m (path ++ byte '?' :: query) v →
    byte '?' ∉ path → (parseRequestLine r line).2.path = path ∧
      (parseRequestLine r line).2.query = query
  withoutQuery : ∀ m target v, RequestLine line m target v → byte '?' ∉ target →
    (parseRequestLine r line).2.path = target ∧ (parseRequestLine r line).2.query = r.query

theorem lineParsed (r : HttpRequest) (line : List UInt8) : LineParsed r line := by
  refine ⟨parseRequestLine_iff r line, ?_, ?_, ?_⟩
  · intro m target v h
    rw [parseRequestLine_of r h]
    exact ⟨setTarget_method _ _, rfl⟩
  · intro m path query v h hpath
    rw [parseRequestLine_of r h, setTarget, find_append_cons hpath]
    exact ⟨List.take_left, drop_past _ _ _⟩
  · intro m target v h htarget
    rw [parseRequestLine_of r h, setTarget, find_eq_none.2 htarget]
    exact ⟨rfl, rfl⟩

/-- Every request that has no method on a connection also has no query. -/
theorem query_of_unset {chunks : List Chunk}
    (hrun : run Session.receive (Session.fresh []) chunks = some s)
    (hm : s.context.request.method = .INVALID) : s.context.request.query = [] := by
  have hinv : Ready s.context ∨ Stuck s.context s.inputBuffer := by
    refine run_invariant (fun s => Ready s.context ∨ Stuck s.context s.inputBuffer) ?_
      (Or.inl ready_fresh) hrun
    intro s chunk s' hs hstep
    by_cases hbad : LineRejected s.context (s.inputBuffer ++ chunk.data)
    · obtain ⟨s₂, hs₂, hsame, hstuck⟩ := message_rejected hbad chunk
      rw [Session.receive, hs₂] at hstep
      cases hstep
      rw [hsame]
      exact Or.inr hstuck
    · rcases hs with hready | hstuck
      · exact Or.inl (message_ready hready hbad hstep)
      · exact absurd ⟨hstuck.state, hstuck.line.append chunk.data⟩ hbad
  rcases hinv with hready | hstuck
  · by_cases hline : s.context.state = .EXPECTREQUESTLINE
    · exact (hready.unset hline).2.2
    · exact absurd hm (hready.known hline)
  · exact absurd hm hstuck.method

/-- The grammar of the request line, for every request; on a connection the query that a
request without a method already has is empty. -/
theorem parseRequestLine_grammar :
    (∀ r line, r.method = .INVALID → r.version = .UNKNOWN → LineParsed r line) ∧
    ∀ (chunks : List Chunk) (s : Session (List UInt8)),
      run Session.receive (Session.fresh []) chunks = some s →
      s.context.request.method = .INVALID → s.context.request.version = .UNKNOWN →
      ∀ line m target v, RequestLine line m target v → byte '?' ∉ target →
        (parseRequestLine s.context.request line).2.query = [] := by
  refine ⟨fun r line _ _ => lineParsed r line, fun chunks s hrun hm _ line m target v h hfree => ?_⟩
  rw [((lineParsed s.context.request line).withoutQuery m target v h hfree).2]
  exact query_of_unset hrun hm

theorem parseRequestLine_grammar_of_post :
    LineParsed HttpRequest.empty (bytes "POST /a HTTP/1.0") ∧
      (parseRequestLine HttpRequest.empty (bytes "POST /a HTTP/1.0")).2.query = [] :=
  ⟨parseRequestLine_grammar.1 _ _ rfl rfl,
    parseRequestLine_grammar.2 [] (Session.fresh []) rfl rfl rfl _ .POST (bytes "/a") .HTTP10
      ⟨by simp, by simp, by decide, by decide +kernel⟩ (by decide)⟩

structure Answers (s : Session (List UInt8)) (chunk : Chunk)
    (_ : Option (Session (List UInt8))) : Prop where
  starts : s.context.state ≠ .ALLOK
  ends : ∃ o c' b', parseRequest chunk.receiveTime s.context (s.inputBuffer ++ chunk.data) =
    some (o, c', b')
  rejected : ∀ c' b', parseRequest chunk.receiveTime s.context (s.inputBuffer ++ chunk.data) =
    some (.returned false, c', b') → c'.state ≠ .ALLOK
  answers : ∀ calls c' b',
    onMessage chunk.callback s.context (s.inputBuffer ++ chunk.data) chunk.receiveTime =
      some (calls, c', b') →
    calls = [] ∨ calls = badRequest ∨ ∃ request, calls = processRequest chunk.callback request
  once : ∀ calls c' b',
    onMessage chunk.callback s.context (s.inputBuffer ++ chunk.data) chunk.receiveTime =
      some (calls, c', b') →
    ¬ (.send badRequestText ∈ calls ∧ ∃ request, .httpCallback request ∈ calls)

/-- Every response has a Connection line, and the text of the 400 answer has none. -/
theorem appendToBuffer_ne_badRequestText (r : HttpResponse) :
    r.appendToBuffer [] ≠ badRequestText := by
  have hline : byte 'n' ∈ r.appendToBuffer [] := by
    rw [HttpResponse.appendToBuffer]
    split
    · have hmem : byte 'n' ∈ bytes "Connection: close\r\n" := by decide
      simp only [List.mem_append, hmem, true_or, or_true]
    · have hmem : byte 'n' ∈ bytes "Connection: keep-alive\r\n" := by decide
      simp only [List.mem_append, hmem, true_or, or_true]
  intro heq
  rw [heq] at hline
  exact absurd hline (by decide)

theorem one_answer {callback : HttpCallback} {calls : List Call}
    (h : calls = [] ∨ calls = badRequest ∨ ∃ request, calls = processRequest callback request) :
    ¬ (.send badRequestText ∈ calls ∧ ∃ request, .httpCallback request ∈ calls) := by
  rintro ⟨hsend, request, hcallback⟩
  rcases h with rfl | rfl | ⟨request₂, rfl⟩
  · cases hsend
  · simp [badRequest] at hcallback
  · simp only [processRequest, List.mem_append, List.mem_cons, List.not_mem_nil, or_false,
      reduceCtorEq, false_or, Call.send.injEq] at hsend
    rcases hsend with heq | hshut
    · exact appendToBuffer_ne_badRequestText _ heq.symm
    · split at hshut
      · cases List.mem_singleton.1 hshut
      · cases hshut

theorem answers_of_live (hlive : s.context.state ≠ .ALLOK) (chunk : Chunk) :
    Answers s chunk (s.receive chunk) := by
  obtain ⟨o, c', b', hrun⟩ :=
    parseRequest_total chunk.receiveTime (s.inputBuffer ++ chunk.data) hlive
  have hanswers : ∀ calls c' b',
      onMessage chunk.callback s.context (s.inputBuffer ++ chunk.data) chunk.receiveTime =
        some (calls, c', b') →
      calls = [] ∨ calls = badRequest ∨
        ∃ request, calls = processRequest chunk.callback request := by
    intro calls c₂ b₂ hcalls
    rcases onMessage_cases chunk.callback chunk.receiveTime (s.inputBuffer ++ chunk.data) hlive with
      ⟨-, request, context, b, heq, -⟩ | ⟨-, correct, context, b, heq, -⟩ | ⟨-, heq⟩
    · rw [heq] at hcalls
      cases hcalls
      exact Or.inr (Or.inr ⟨request, rfl⟩)
    · rw [heq] at hcalls
      cases hcalls
      cases correct with
      | true => exact Or.inl rfl
      | false => exact Or.inr (Or.inl rfl)
    · rw [heq] at hcalls
      cases hcalls
  refine ⟨hlive, ⟨o, c', b', (parseRequest_iff hlive).2 hrun⟩, fun c₂ b₂ hcall hok => ?_,
    hanswers, fun calls c₂ b₂ hcalls => one_answer (hanswers calls c₂ b₂ hcalls)⟩
  have hend := returned_of_allOk ((parseRequest_iff hlive).1 hcall) hlive hok
  cases hend

/-- After every message the parser waits for more or has been reset. -/
theorem live_receive (hlive : s.context.state ≠ .ALLOK) (hs : s.receive chunk = some s') :
    s'.context.state ≠ .ALLOK := by
  obtain ⟨correct, c', -, hcontext⟩ := message_eq_some hlive hs
  rw [hcontext]
  split
  · simp [HttpContext.reset]
  · rename_i hok
    exact hok

theorem onMessage_terminates (chunks : List Chunk) :
    Along Session.receive Answers (Session.fresh []) chunks := by
  refine along_of_invariant (fun s => s.context.state ≠ .ALLOK)
    (R := fun _ _ _ => True) ?_ ?_ chunks ?_ (along_true _ _ _)
  · intro s chunk hlive _
    exact answers_of_live hlive chunk
  · intro s chunk s' hlive _ hs
    exact live_receive hlive hs
  · simp [Session.fresh, HttpContext.fresh]

end HttpServer
end HydrogenWeb
