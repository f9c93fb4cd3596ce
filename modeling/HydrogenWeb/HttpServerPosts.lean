import HydrogenWeb.HttpServerSeparate

set_option autoImplicit false

/-!
# Only a POST stops the server

An exception in the message handler of one client ends the loop for all of them. It is the one of
a body, and a client that has never sent the letters of `POST` has none.
-/
namespace HydrogenWeb.HttpContext
open ListSearch ByteBuffer HttpRequest

/-- `q` is all that has come for a request whose method is known so far. -/
structure Heard (q : List UInt8) (l : Loop) (c : HttpContext) (b : List UInt8) : Prop where
  unread : b <:+ q
  post : c.request.method = .POST → bytes "POST" <:+: q
  known : l = .body ∨ c.state ≠ .EXPECTREQUESTLINE → c.request.method ≠ .INVALID
  body : l = .body ∨ c.state = .EXPECTBODY → c.request.method ≠ .GET

variable {t : ℤ} {q : List UInt8} {l l₁ : Loop} {c c₁ c' : HttpContext} {b b₁ b' : List UInt8}
  {o : Outcome}

/-- Only the word in front of a line can make its method a POST. -/
theorem parseRequestLine_post {r : HttpRequest} {line : List UInt8}
    (h : (parseRequestLine r line).2.method = .POST) :
    r.method = .POST ∨ bytes "POST" <+: line := by
  cases hfind : find (byte ' ') line with
  | none =>
    rw [parseRequestLine, hfind] at h
    exact Or.inl h
  | some space =>
    right
    have hmethod : (parseRequestLine r line).2.method = (r.setMethod (line.take space)).2.method := by
      simp only [parseRequestLine, hfind]
      split
      · split
        · rfl
        · split_ifs <;> simp [setTarget_method, setVersion]
      · rfl
    have hword : line.take space = bytes "POST" := by
      rw [hmethod, setMethod] at h
      dsimp only at h
      split_ifs at h with hget hpost
      exact hpost
    rw [← hword]
    exact List.take_prefix _ _

theorem Heard.unknown (h : Heard q l c b) (hl : l = .body ∨ c.state = .EXPECTBODY) :
    bytes "POST" <:+: q := by
  have hknown : c.request.method ≠ .INVALID := by
    refine h.known (hl.imp_right fun hs hcon => ?_)
    rw [hs] at hcon
    cases hcon
  have hbody := h.body hl
  refine h.post ?_
  cases hm : c.request.method with
  | INVALID => exact absurd hm hknown
  | GET => exact absurd hm hbody
  | POST => rfl

/-- A line at the front of the unread bytes is in the stream. -/
theorem Heard.line (h : Heard q l c b) {line rest : List UInt8} (hp : b = line ++ rest)
    (hpost : bytes "POST" <+: line) : bytes "POST" <:+: q := by
  have hline : line <:+: q := by
    refine List.IsInfix.trans ?_ h.unread.isInfix
    rw [hp]
    exact (List.prefix_append _ _).isInfix
  exact hpost.isInfix.trans hline

theorem Heard.request_line (h : Heard q l c b) {line rest : List UInt8} (hp : b = line ++ rest)
    (hmethod : (parseRequestLine c.request line).2.method = .POST) : bytes "POST" <:+: q :=
  (parseRequestLine_post hmethod).elim h.post (h.line hp)

theorem drop_suffix (h : b <:+ q) (k : ℕ) : b.drop k <:+ q := (List.drop_suffix k b).trans h

theorem Heard.again (h : Heard q l c b) (hlive : Live l c) (hturn : turn t l c b = .again l₁ c₁ b₁) :
    Heard q l₁ c₁ b₁ := by
  cases l with
  | outer =>
    have hcases := outerTurn_of_turn (hlive.resolve_left (by simp)) hturn
    cases hcases with
    | requestLine hs hp hno hgood =>
      obtain ⟨m, target, v, hgrammar⟩ := requestLine_of_parse hgood
      refine ⟨drop_suffix h.unread _, h.request_line hp, fun _ => ?_, fun hcon => ?_⟩
      · exact method_of_known hgrammar.knownMethod c.request
      · rcases hcon with hcon | hcon
        · cases hcon
        · cases hcon
    | field hs hp hno hname =>
      refine ⟨drop_suffix h.unread _, h.post, fun _ => h.known (Or.inr (by simp [hs])), fun hcon => ?_⟩
      simp [hs] at hcon
    | endOfHead hs hp hno hcolon hget =>
      exact ⟨drop_suffix h.unread _, h.post, fun _ => h.known (Or.inr (by simp [hs])), fun _ => hget⟩
    | rightLength hs hstoi hn =>
      exact ⟨h.unread, h.post, fun _ => h.known (Or.inr (by simp [hs])),
        fun _ => h.body (Or.inr hs)⟩
  | body =>
    have hcases := bodyTurn_of_turn hturn
    cases hcases with
    | pair hp hassign hand hvalue =>
      exact ⟨drop_suffix h.unread _, h.post, fun _ => h.known (Or.inl rfl),
        fun _ => h.body (Or.inl rfl)⟩

/-- Where the parser does not return, it is at a body. -/
theorem Heard.finished (h : Heard q l c b) (hlive : Live l c)
    (hturn : turn t l c b = .finished o c₁ b₁) :
    (∃ correct, o = .returned correct ∧ Heard q .outer c₁ b₁) ∨ bytes "POST" <:+: q := by
  cases l with
  | outer =>
    have hcases := outerTurn_of_turn (hlive.resolve_left (by simp)) hturn
    cases hcases with
    | wait hs hnone => exact Or.inl ⟨true, rfl, h⟩
    | badLine hs hp hno hbad =>
      refine Or.inl ⟨false, rfl, h.unread, h.request_line hp, fun hcon => ?_, fun hcon => ?_⟩
      · simp [hs] at hcon
      · simp [hs] at hcon
    | endOfGet hs hp hno hcolon hget =>
      refine Or.inl ⟨true, rfl, drop_suffix h.unread _, h.post,
        fun _ => h.known (Or.inr (by simp [hs])), fun hcon => ?_⟩
      simp at hcon
    | threw hs hstoi => exact Or.inr (h.unknown (Or.inr hs))
    | wrongLength hs hstoi hn => exact Or.inl ⟨false, rfl, h⟩
  | body => exact Or.inr (h.unknown (Or.inl rfl))

theorem Parses.heard (h : Parses t l c b o c' b') (hlive : Live l c) (hheard : Heard q l c b) :
    (∃ correct, o = .returned correct ∧ Heard q .outer c' b') ∨ bytes "POST" <:+: q := by
  induction h with
  | finish hturn => exact hheard.finished hlive hturn
  | again hturn tail ih =>
    obtain ⟨hlive₁, -⟩ := again_progress hlive hturn
    exact ih hlive₁ (hheard.again hlive hturn)

end HydrogenWeb.HttpContext

namespace HydrogenWeb.HttpServer
open TransitionRuns Lifecycle HttpContext
open HttpConnection (Reading Event idle sends)

def stream (chunks : List Chunk) : List UInt8 := chunks.flatMap Chunk.data

def Heeds (q : List UInt8) (s : Session (List UInt8)) : Prop :=
  s.context.state ≠ .ALLOK ∧ (Heard q .outer s.context s.inputBuffer ∨ bytes "POST" <:+: q)

theorem heard_append {q : List UInt8} {c : HttpContext} {b : List UInt8}
    (h : Heard q .outer c b) (data : List UInt8) : Heard (q ++ data) .outer c (b ++ data) where
  unread := by
    obtain ⟨front, rfl⟩ := h.unread
    exact ⟨front, by rw [List.append_assoc]⟩
  post hpost := (h.post hpost).trans (List.prefix_append _ _).isInfix
  known := h.known
  body := h.body

theorem heard_reset {q : List UInt8} {c : HttpContext} {b : List UInt8} (h : b <:+ q) :
    Heard q .outer c.reset b where
  unread := h
  post hpost := by cases hpost
  known hcon := by simp [HttpContext.reset] at hcon
  body hcon := by simp [HttpContext.reset] at hcon

variable {q : List UInt8} {s s' : Session (List UInt8)} {chunk : Chunk}

/-- A message is answered, or it is one of a stream with the letters of a POST. -/
theorem Heeds.receive (h : Heeds q s) (chunk : Chunk) :
    (s.receive chunk = none → bytes "POST" <:+: q ++ chunk.data) ∧
      ∀ s', s.receive chunk = some s' → Heeds (q ++ chunk.data) s' := by
  obtain ⟨hlive, hheard⟩ := h
  rcases hheard with hheard | hpost
  swap
  · have hmore : bytes "POST" <:+: q ++ chunk.data := hpost.trans (List.prefix_append _ _).isInfix
    exact ⟨fun _ => hmore, fun s' hs' => ⟨live_receive hlive hs', Or.inr hmore⟩⟩
  obtain ⟨o, c', b', hparses⟩ := parseRequest_total chunk.receiveTime
    (s.inputBuffer ++ chunk.data) hlive
  rcases hparses.heard (Or.inr hlive) (heard_append hheard chunk.data) with
    ⟨correct, rfl, hheard'⟩ | hpost
  swap
  · exact ⟨fun _ => hpost, fun s' hs' => ⟨live_receive hlive hs', Or.inr hpost⟩⟩
  have hparse := (parseRequest_iff hlive).2 hparses
  have hmessage : onMessage chunk.callback s.context (s.inputBuffer ++ chunk.data)
      chunk.receiveTime = if c'.allOk then
        some ((if correct then [] else badRequest) ++ processRequest chunk.callback c'.request,
          c'.reset, b')
      else some (if correct then [] else badRequest, c', b') := by
    rw [onMessage, hparse]
  constructor
  · intro hnone
    rw [Session.receive, Session.message, hmessage] at hnone
    split_ifs at hnone <;> cases hnone
  · intro s' hs'
    refine ⟨live_receive hlive hs', Or.inl ?_⟩
    rw [Session.receive, Session.message, hmessage] at hs'
    by_cases hok : c'.allOk = true
    · rw [if_pos hok] at hs'
      cases hs'
      exact heard_reset hheard'.unread
    · rw [if_neg hok] at hs'
      cases hs'
      exact hheard'

theorem heeds_run {chunks : List Chunk} (h : Heeds q s)
    (hrun : run Session.receive s chunks = some s') : Heeds (q ++ stream chunks) s' := by
  induction chunks generalizing q s with
  | nil =>
    cases hrun
    rw [stream, List.flatMap_nil, List.append_nil]
    exact h
  | cons chunk chunks ih =>
    rw [run_cons, Option.bind_eq_some_iff] at hrun
    obtain ⟨u, hu, htail⟩ := hrun
    have hrest := ih ((h.receive chunk).2 u hu) htail
    rwa [List.append_assoc] at hrest

theorem heeds_fresh : Heeds [] (Session.fresh []) := by
  refine ⟨HttpContext.fresh_live, Or.inl ⟨List.suffix_rfl, fun hpost => ?_, fun hcon => ?_,
    fun hcon => ?_⟩⟩
  · cases hpost
  · simp [Session.fresh, HttpContext.fresh] at hcon
  · simp [Session.fresh, HttpContext.fresh] at hcon

/-- A connection that is alone and open fails in its message handler for a POST only. -/
theorem lone_fails {x : Client} {g : HttpConnection} (hlone : Lone x g)
    (hopen : ∀ ev ∈ x.events, ev.closes = false) {e : Reading}
    (hfails : HttpConnection.step g (.readable e) = none) :
    bytes "POST" <:+: stream ((x.events ++ [Event.readable e]).filterMap Event.chunk) := by
  obtain ⟨t, ht, hend⟩ := HttpConnection.open_run (HttpConnection.accepted_open _ _) hlone.ran
  rw [if_pos hopen] at hend
  have hheeds := heeds_run heeds_fresh ht
  have hnone := (hend.step_readable e).1
  rw [hfails, Option.isSome_none, eq_comm, Option.isSome_eq_false_iff, Option.isNone_iff_eq_none,
    Event.deliver] at hnone
  cases hchunk : Event.chunk (.readable e) with
  | none =>
    rw [hchunk] at hnone
    cases hnone
  | some chunk =>
    rw [hchunk] at hnone
    have hpost := (hheeds.receive chunk).1 hnone
    rw [List.filterMap_append, List.filterMap_cons_some hchunk, List.filterMap_nil, stream,
      List.flatMap_append, List.flatMap_singleton]
    exact hpost

/-- A step of the server that is possible and fails is the message handler of one client whose
own stream has the letters of a POST; a server whose clients send none takes every step. -/
theorem only_posts_stop_the_server (serverName : String) {timerfd wakenfd listenfd : ℤ}
    (htimer : 0 ≤ timerfd) (hwaken : 0 ≤ wakenfd) (hlisten : 0 ≤ listenfd)
    (hdistinct : [timerfd, wakenfd, listenfd].Nodup) (actions : List Action)
    (hpossible : Along step (fun s a _ => Possible s a)
      (start serverName timerfd wakenfd listenfd) actions) :
    Along step (fun s a o => o = none → ∃ accepted e w id active,
        a = .handleEvent accepted e w ∧ s.tcpServer.phase = .handling (.conn id :: active) ∧
        bytes "POST" <:+: stream ((s.events id ++ [Event.readable e]).filterMap Event.chunk))
      (start serverName timerfd wakenfd listenfd) actions := by
  have hfails := (run_clients
    (start_clients serverName htimer hwaken hlisten hdistinct) hpossible).1
  refine along_of_invariant (fun _ => True) (fun s a _ hstep hnone => ?_) (fun _ _ _ _ _ _ => trivial)
    actions trivial hfails
  obtain ⟨accepted, e, w, id, active, g, ha, hphase, hlone, hopen, hnext⟩ := hstep hnone
  exact ⟨accepted, e, w, id, active, ha, hphase, lone_fails hlone hopen hnext⟩

def postReading : Reading :=
  sends (bytes "POST / HTTP/1.1\r\n\r\n") (by decide) (fun _ response => response) .error

def lengthlessPost : List Action :=
  [.construct, .run,
    .poll (fun fd => if fd = 5 then 1 else 0) 1, .handleEvent 6 idle .error,
    .processFunctors, .functor, .endFunctors,
    .poll (fun fd => if fd = 6 then 1 else 0) 1, .handleEvent (-1) postReading .error]

theorem only_posts_stop_the_server_of_lengthless :
    (run step (start "server" 3 4 5) lengthlessPost).isNone = true ∧
    Along step (fun s a o => o = none → ∃ accepted e w id active,
        a = .handleEvent accepted e w ∧ s.tcpServer.phase = .handling (.conn id :: active) ∧
        bytes "POST" <:+: stream ((s.events id ++ [Event.readable e]).filterMap Event.chunk))
      (start "server" 3 4 5) lengthlessPost :=
  ⟨by decide +kernel, only_posts_stop_the_server "server" (by decide) (by decide) (by decide)
    (by decide) lengthlessPost (by decide +kernel)⟩

end HydrogenWeb.HttpServer
