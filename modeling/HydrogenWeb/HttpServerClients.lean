import HydrogenWeb.HttpClient
import HydrogenWeb.TcpServerSeparate

set_option autoImplicit false

/-!
# The HTTP server with all of its clients

`TcpServer` with the callbacks of `HttpServer`, on one loop: `onConnection` puts a parser into each
connection and `onMessage` answers on the connection that its message came from. The loop takes
the ready connections in any order. What a client gets is what a connection that is alone gives
it, whatever the others do. Every buffer is an ideal byte queue.
-/
namespace HydrogenWeb

/-- `context` is what `setContext` has put into the connections. The history has the events that
the handlers of each connection got, and the bytes that `::write` has taken for it. -/
structure HttpServer where
  tcpServer : TcpServer
  context : ℕ → HttpContext
  events : ℕ → List HttpConnection.Event
  wire : ℕ → List UInt8

namespace HttpServer
open TransitionRuns Lifecycle
open TcpServer (UserCall bares Moves Still)
open TcpConnection (OutputRun acceptedBytes)
open HttpConnection (Reading)

inductive Action where
  | construct
  | run
  | poll (revents : ℤ → BitVec 16) (numEvents : ℤ)
  | handleEvent (accepted : ℤ) (e : Reading) (w : WriteResult)
  | processFunctors
  | functor
  | endFunctors

/-- The step of the `TcpServer`, without the code of `onMessage`. -/
def Action.tcp : Action → TcpServer.Action
  | construct => .construct
  | run => .call .run
  | poll revents numEvents => .poll revents numEvents
  | handleEvent accepted e w => .handleEvent ⟨accepted, e.result, w, []⟩
  | processFunctors => .processFunctors
  | functor => .functor []
  | endFunctors => .endFunctors

def userCall (id : ℕ) (w : WriteResult) : Call → List UserCall
  | .send data => [.send id data w]
  | .shutdown => [.shutdown id]
  | .httpCallback _ => []

def userCalls (id : ℕ) : (ℕ → WriteResult) → List Call → List UserCall
  | _, [] => []
  | answers, c :: calls => userCall id (answers 0) c ++ userCalls id (fun i => answers (i + 1)) calls

def takenBy (s : TcpServer) : UserCall → List UInt8
  | .send id msg w => TcpConnection.accepted ((s.conn id).send true msg w).2
  | _ => []

def taken : TcpServer → List UserCall → List UInt8
  | _, [] => []
  | s, u :: calls => takenBy s u ++ (s.userCall u).elim [] fun s => taken s calls

def after (s : HttpServer) (id : ℕ) (e : HttpConnection.Event) (bytes : List UInt8)
    (o : Option TcpServer) : Option HttpServer :=
  o.map fun tcpServer => { s with
    tcpServer,
    events := Function.update s.events id (s.events id ++ [e]),
    wire := Function.update s.wire id (s.wire id ++ bytes) }

/-- A callback of a connection's channel. `onMessage` first takes its bytes out of the input
buffer; `none` where it does not return. -/
def callback (e : Reading) (w : WriteResult) (id : ℕ) (s : HttpServer) (cb : Callback) :
    Option HttpServer :=
  let c := s.tcpServer.conn id
  let answer := fun user => s.tcpServer.callback ⟨-1, e.result, w, user⟩ (.conn id) cb
  match cb with
  | .close => s.after id .hangup [] (answer [])
  -- `errorHandler` only logs
  | .error => (answer []).map fun tcpServer => { s with tcpServer }
  | .write => s.after id (.writable w) (TcpConnection.accepted (c.writeHandler w).2) (answer [])
  | .read =>
    (c.connectionHandler e.result).bind fun (c, effects) =>
      if .msgCallback ∈ effects then
        (onMessage e.callback (s.context id) c.inputBuffer e.receiveTime).bind
          fun (calls, context, rest) =>
            let user := .clear id (c.inputBuffer.length - rest.length) :: userCalls id e.answers calls
            { s with context := Function.update s.context id context }.after id (.readable e)
              (taken (s.tcpServer.setConn id c) user) (answer user)
      else s.after id (.readable e) [] (answer [])

def plain (s : HttpServer) (a : Action) : Option HttpServer :=
  (s.tcpServer.step a.tcp).map fun tcpServer => { s with tcpServer }

def step (s : HttpServer) (a : Action) : Option HttpServer :=
  match a, s.tcpServer.phase with
  | .handleEvent _ e w, .handling (.conn id :: active) =>
    run (callback e w id)
      { s with tcpServer := { s.tcpServer with phase := .handling active }.mark id .event }
      (s.tcpServer.conn id).channel.handleEvent
  | .functor, .functors (.establishConnection id :: _) =>
    -- `onConnection`
    (s.plain .functor).map fun s =>
      { s with context := Function.update s.context id HttpContext.fresh }
  | _, _ => s.plain a

def Possible (s : HttpServer) (a : Action) : Prop := TcpServer.Possible s.tcpServer a.tcp

instance (s : HttpServer) (a : Action) : Decidable (Possible s a) :=
  inferInstanceAs (Decidable (TcpServer.Possible s.tcpServer a.tcp))

def start (serverName : String) (timerfd wakenfd listenfd : ℤ) : HttpServer where
  tcpServer := TcpServer.start serverName timerfd wakenfd listenfd
  context := fun _ => HttpContext.fresh
  events := fun _ => []
  wire := fun _ => []

structure Client where
  conn : TcpConnection
  context : HttpContext
  events : List HttpConnection.Event
  wire : List UInt8

def client (s : HttpServer) (id : ℕ) : Client :=
  ⟨bares s.tcpServer id, s.context id, s.events id, s.wire id⟩

/-- A connection `h` that is alone, from its `accept` on, has come to the same with the same
events. -/
structure Lone (x : Client) (h : HttpConnection) : Prop where
  ran : run HttpConnection.step (HttpConnection.accepted x.conn.connName x.conn.channel.fd)
    x.events = some h
  context : x.context = h.context
  input : x.conn.inputBuffer = h.conn.inputBuffer
  output : x.conn.outputBuffer = h.conn.outputBuffer
  wire : x.wire = acceptedBytes h.output.history

def Own (x : Client) : Stage → Prop
  | .unborn => x.events = [] ∧ x.wire = []
  | .accepted => x.events = [] ∧ x.wire = [] ∧
      x.conn = TcpConnection.create x.conn.connName x.conn.channel.fd
  | .established => ∃ h, Lone x h ∧ x.conn = h.conn ∧ ∀ e ∈ x.events, e.closes = false
  | .closed => ∃ h, Lone x h ∧ x.conn = h.conn
  | .destroyed | .removed => ∃ h, Lone x h

def turnBuffer {β : Type} : HttpContext.Turn β → β
  | .again _ _ b => b
  | .finished _ _ b => b

section Rest

variable {β : Type} [ByteBuffer β] {t : ℤ} {l : HttpContext.Loop} {c c' : HttpContext} {b b' : β}
  {o : HttpContext.Outcome}

theorem turn_clears (t : ℤ) (l : HttpContext.Loop) (c : HttpContext) (b : β) :
    ∃ k, turnBuffer (HttpContext.turn t l c b) = ByteBuffer.clear b k := by
  have hsame : ∃ k, b = ByteBuffer.clear b k := ⟨0, (ByteBuffer.clear_zero b).symm⟩
  cases l with
  | outer =>
    by_cases hs : c.state = .ALLOK
    · have hturn : HttpContext.turn t .outer c b = .again .outer c b := by
        simp only [HttpContext.turn, hs]
      rw [hturn]
      exact hsame
    · have hcases := HttpContext.outerTurn_cases t b hs
      generalize HttpContext.turn t .outer c b = r at hcases
      cases hcases <;> first
        | exact hsame
        | exact ⟨_, rfl⟩
  | body =>
    have hcases : HttpContext.BodyTurn c b (HttpContext.turn t .body c b) :=
      HttpContext.bodyTurn_of_turn rfl
    generalize HttpContext.turn t .body c b = r at hcases
    cases hcases <;> first
      | exact hsame
      | exact ⟨_, rfl⟩

theorem turns_clears {fuel : ℕ} (h : HttpContext.turns t fuel l c b = some (o, c', b')) :
    ∃ k, b' = ByteBuffer.clear b k := by
  induction fuel generalizing l c b with
  | zero => cases h
  | succ fuel ih =>
    obtain ⟨j, hj⟩ := turn_clears t l c b
    rw [HttpContext.turns] at h
    cases hturn : HttpContext.turn t l c b with
    | again l₁ c₁ b₁ =>
      rw [hturn] at h hj
      obtain ⟨k, hk⟩ := ih h
      have hb : b₁ = ByteBuffer.clear b j := hj
      exact ⟨j + k, by rw [hk, hb, ByteBuffer.clear_clear]⟩
    | finished o₁ c₁ b₁ =>
      rw [hturn] at h hj
      cases h
      exact ⟨j, hj⟩

/-- What `onMessage` leaves is what is behind the bytes that it takes. -/
theorem onMessage_rest {callback : HttpCallback} {buffer rest : List UInt8} {calls : List Call}
    (h : onMessage callback c buffer t = some (calls, c', rest)) :
    buffer.drop (buffer.length - rest.length) = rest := by
  have hclears : ∃ k, rest = buffer.drop k := by
    rw [onMessage] at h
    cases hparse : c.parseRequest t buffer with
    | none => simp [hparse] at h
    | some r =>
      obtain ⟨o, c₁, b₁⟩ := r
      obtain ⟨k, hk⟩ := turns_clears hparse
      rw [hparse] at h
      cases o with
      | returned correct =>
        dsimp only at h
        split_ifs at h
        all_goals
          cases h
          exact ⟨k, hk⟩
      | threw e => cases h
      | badRange => cases h
  obtain ⟨k, rfl⟩ := hclears
  rw [List.length_drop]
  by_cases hk : k ≤ buffer.length
  · rw [show buffer.length - (buffer.length - k) = k by omega]
  · rw [List.drop_eq_nil_of_le (by omega), List.drop_eq_nil_of_le (by omega)]

end Rest

theorem shutdown_accepts (c : TcpConnection) :
    TcpConnection.accepted (c.shutdown true).2 = [] := by
  have hlate : ∀ d : TcpConnection, TcpConnection.accepted d.shutdownInLoopThread.2 = [] := by
    intro d
    rw [TcpConnection.shutdownInLoopThread]
    split_ifs
    · rfl
    · rfl
  rw [TcpConnection.shutdown]
  split_ifs
  · exact hlate _
  · contradiction
  · rfl

theorem taken_cons {s t : TcpServer} {u : UserCall} (h : s.userCall u = some t)
    (calls : List UserCall) : taken s (u :: calls) = takenBy s u ++ taken t calls := by
  rw [taken, h]
  rfl

/-- A call that does the same to the connection in the server and to the one that is alone. -/
theorem perform_own {id : ℕ} {s t : TcpServer} {c : TcpConnection}
    {r q : TcpConnection × List TcpConnection.Effect} (hcalm : TcpConnection.Calm c r)
    (hsame : q = TcpConnection.bareResult r) (h : TcpServer.perform some id s r = some t) :
    Moves id q.1 [] s t := by
  have hmoves := TcpServer.perform_moves (fun _ _ hu => (Option.some.inj hu).symm) h
  rw [TcpServer.calm_marks hcalm] at hmoves
  rw [hsame]
  exact hmoves

/-- The calls of `onMessage` do to the connection in the server what they do to it alone. -/
theorem userCalls_moves {id : ℕ} {answers : ℕ → WriteResult} {calls : List Call}
    {s s' : TcpServer} {o : OutputRun} (ho : bares s id = o.conn)
    (h : TcpServer.userCalls (userCalls id answers calls) s = some s') :
    Moves id (HttpConnection.perform answers o calls).conn [] s s' ∧
      acceptedBytes (HttpConnection.perform answers o calls).history =
        acceptedBytes o.history ++ taken s (userCalls id answers calls) := by
  induction calls generalizing answers s o with
  | nil =>
    rw [TcpServer.userCalls_nil h, HttpConnection.perform, ← ho]
    exact ⟨(Still.refl s).moves id, (List.append_nil _).symm⟩
  | cons c calls ih =>
    cases c with
    | send data =>
      change run TcpServer.userCall s (.send id data (answers 0) :: userCalls id _ calls) = _ at h
      rw [run_cons, Option.bind_eq_some_iff] at h
      obtain ⟨t, ht, hrest⟩ := h
      have hsame : o.conn.send true data (answers 0) =
          TcpConnection.bareResult ((s.conn id).send true data (answers 0)) := by
        rw [← ho]
        exact TcpConnection.send_bare _ _ _
      have hmoves := perform_own (TcpConnection.send_calm _ data (answers 0)) hsame ht
      obtain ⟨htail, hbytes⟩ := ih (o := HttpConnection.call (answers 0) o (.send data))
        hmoves.own hrest
      have hhere : acceptedBytes (HttpConnection.call (answers 0) o (.send data)).history =
          acceptedBytes o.history ++ takenBy s (.send id data (answers 0)) := by
        have hcall : acceptedBytes (if o.conn.connected then [.sent data] else []) = [] := by
          split_ifs
          · rfl
          · rfl
        change acceptedBytes (o.history ++ (if o.conn.connected then [.sent data] else []) ++
          (o.conn.send true data (answers 0)).2.map .did) = _
        rw [TcpConnection.acceptedBytes_append, TcpConnection.acceptedBytes_append, hcall,
          TcpConnection.acceptedBytes_did, hsame, List.append_nil]
        rfl
      refine ⟨hmoves.trans htail, ?_⟩
      change _ = acceptedBytes o.history ++ taken s (.send id data (answers 0) :: userCalls id _ calls)
      rw [HttpConnection.perform, hbytes, hhere, taken_cons ht, List.append_assoc]
    | shutdown =>
      change run TcpServer.userCall s (.shutdown id :: userCalls id _ calls) = _ at h
      rw [run_cons, Option.bind_eq_some_iff] at h
      obtain ⟨t, ht, hrest⟩ := h
      have hsame : o.conn.shutdown true = TcpConnection.bareResult ((s.conn id).shutdown true) := by
        rw [← ho]
        exact TcpConnection.shutdown_bare _
      have hmoves := perform_own (TcpConnection.shutdown_calm _) hsame ht
      obtain ⟨htail, hbytes⟩ := ih (o := HttpConnection.call (answers 0) o .shutdown)
        hmoves.own hrest
      have hhere : acceptedBytes (HttpConnection.call (answers 0) o .shutdown).history =
          acceptedBytes o.history := by
        change acceptedBytes (o.history ++ [.shutdownCalled] ++
          (o.conn.shutdown true).2.map .did) = _
        rw [TcpConnection.acceptedBytes_append, TcpConnection.acceptedBytes_append,
          TcpConnection.acceptedBytes_did, shutdown_accepts, List.append_nil]
        exact List.append_nil _
      refine ⟨hmoves.trans htail, ?_⟩
      change _ = acceptedBytes o.history ++ taken s (.shutdown id :: userCalls id _ calls)
      rw [HttpConnection.perform, hbytes, hhere, taken_cons ht]
      rfl
    | httpCallback request => exact ih ho h

section Lone

variable {g g' : HttpConnection} {c d : TcpConnection} {e : Reading}

def SameSocket (c d : TcpConnection) : Prop :=
  d.connName = c.connName ∧ d.channel.fd = c.channel.fd

theorem SameSocket.trans {c₂ : TcpConnection} (h : SameSocket c d) (h' : SameSocket d c₂) :
    SameSocket c c₂ :=
  ⟨h'.1.trans h.1, h'.2.trans h.2⟩

theorem sameSocket_calm {r : TcpConnection × List TcpConnection.Effect}
    (h : TcpConnection.Calm c r) : SameSocket c r.1 := ⟨h.connName, h.fd⟩

theorem sameSocket_perform (answers : ℕ → WriteResult) (o : OutputRun) (calls : List Call) :
    SameSocket o.conn (HttpConnection.perform answers o calls).conn := by
  induction calls generalizing answers o with
  | nil => exact ⟨rfl, rfl⟩
  | cons call calls ih =>
    suffices hcall : SameSocket o.conn (HttpConnection.call (answers 0) o call).conn from
      hcall.trans (ih _ _)
    cases call with
    | send data => exact sameSocket_calm (TcpConnection.send_calm o.conn data (answers 0))
    | shutdown => exact sameSocket_calm (TcpConnection.shutdown_calm o.conn)
    | httpCallback request => exact ⟨rfl, rfl⟩

theorem closeHandler_eq {r : TcpConnection × List TcpConnection.Effect}
    (h : c.closeHandler = some r) :
    r = ({ c with channel := c.channel.disableAll }, [.update, .closeCallback]) := by
  rw [TcpConnection.closeHandler] at h
  split_ifs at h
  cases h
  rfl

/-- A read has met the end of the stream, or the message callback runs. -/
theorem connectionHandler_cases (c : TcpConnection) (e : Reading) :
    e.result = .delivered [] ∨ c.connectionHandler e.result =
      some ({ c with inputBuffer := (TcpConnection.readFd c.inputBuffer e.result).2 },
        [.msgCallback]) := by
  cases hresult : e.result with
  | error => exact Or.inr (TcpConnection.connectionHandler_error c)
  | delivered data =>
    cases data with
    | nil => exact Or.inl rfl
    | cons b data => exact Or.inr (TcpConnection.connectionHandler_data c (e.counted _ hresult))

/-- A readable event of a connection that is alone, where the message callback runs. -/
theorem lone_message (hlisten : ¬ g.conn.channel.isEmptyEvent = true) (hconn : c.bare = g.conn)
    (hmessage : c.connectionHandler e.result = some (d, [.msgCallback])) :
    HttpConnection.step g (.readable e) =
      (onMessage e.callback g.context d.inputBuffer e.receiveTime).map
        fun (calls, context, inputBuffer) =>
          ⟨HttpConnection.perform e.answers ⟨{ d.bare with inputBuffer }, g.output.history⟩ calls,
            context⟩ := by
  have hhandler : g.conn.connectionHandler e.result = some (d.bare, [.msgCallback]) := by
    rw [← hconn, TcpConnection.connectionHandler_bare, hmessage]
    rfl
  rw [HttpConnection.step, if_neg hlisten, hhandler]
  rfl

/-- Both kinds of end of a connection that is alone. -/
theorem lone_close (hlisten : ¬ g.conn.channel.isEmptyEvent = true) (hconn : c.bare = g.conn)
    {r : TcpConnection × List TcpConnection.Effect} (hclose : c.closeHandler = some r)
    {ev : HttpConnection.Event} (hcloses : ev.closes = true) :
    HttpConnection.step g ev = some ⟨⟨r.1.bare, g.output.history⟩, g.context⟩ := by
  have hhandler : g.conn.closeHandler = some (r.1.bare, [.update, .closeCallback]) := by
    rw [← hconn, TcpConnection.closeHandler_bare, hclose, closeHandler_eq hclose]
    rfl
  cases ev with
  | readable e =>
    have hend : e.result = .delivered [] := by simpa [HttpConnection.Event.closes] using hcloses
    rw [HttpConnection.step, if_neg hlisten, hend, TcpConnection.connectionHandler_end, hhandler]
    rfl
  | writable w => cases hcloses
  | hangup =>
    rw [HttpConnection.step, if_neg hlisten, hhandler]
    rfl

theorem sameSocket_step {ev : HttpConnection.Event} (h : HttpConnection.step g ev = some g') :
    SameSocket g.conn g'.conn := by
  have hclosed : ∀ {r : TcpConnection × List TcpConnection.Effect},
      g.conn.closeHandler = some r → SameSocket g.conn r.1 := by
    intro r hr
    rw [closeHandler_eq hr]
    exact ⟨rfl, rfl⟩
  cases ev with
  | writable w =>
    cases h
    exact sameSocket_calm (TcpConnection.writeHandler_calm _ w)
  | hangup =>
    rw [HttpConnection.step] at h
    split_ifs at h
    obtain ⟨r, hr, rfl⟩ := Option.map_eq_some_iff.1 h
    exact hclosed hr
  | readable e =>
    rw [HttpConnection.step] at h
    split_ifs at h
    obtain ⟨⟨c, effects⟩, hr, hrest⟩ := Option.bind_eq_some_iff.1 h
    rcases connectionHandler_cases g.conn e with hend | hmessage
    · rw [hend, TcpConnection.connectionHandler_end] at hr
      have heq := closeHandler_eq hr
      cases heq
      cases hrest
      exact ⟨rfl, rfl⟩
    · rw [hmessage, Option.some.injEq] at hr
      cases hr
      obtain ⟨r, -, rfl⟩ := Option.map_eq_some_iff.1 hrest
      have hperform := sameSocket_perform e.answers
        ⟨{ g.conn with inputBuffer := r.2.2 }, g.output.history⟩ r.1
      exact SameSocket.trans ⟨rfl, rfl⟩ hperform

/-- One more event of a client, in the server and alone. -/
theorem Lone.next {x : Client} (h : Lone x g) (hconn : x.conn = g.conn)
    {ev : HttpConnection.Event} (hstep : HttpConnection.step g ev = some g') {bytes : List UInt8}
    (hbytes : acceptedBytes g'.output.history = acceptedBytes g.output.history ++ bytes) :
    Lone ⟨g'.conn, g'.context, x.events ++ [ev], x.wire ++ bytes⟩ g' where
  ran := by
    obtain ⟨hname, hfd⟩ := sameSocket_step hstep
    change run HttpConnection.step (HttpConnection.accepted g'.conn.connName g'.conn.channel.fd)
      (x.events ++ [ev]) = some g'
    rw [hname, hfd, ← hconn, run_append, h.ran, Option.bind_some, run_cons, hstep]
    rfl
  context := rfl
  input := rfl
  output := rfl
  wire := by
    change x.wire ++ bytes = _
    rw [hbytes, h.wire]

/-- Without an end of the stream the connection wants to read. -/
theorem Lone.listens {x : Client} (h : Lone x g)
    (hopen : ∀ ev ∈ x.events, ev.closes = false) : ¬ g.conn.channel.isEmptyEvent = true := by
  obtain ⟨t, -, hend⟩ := HttpConnection.open_run (HttpConnection.accepted_open _ _) h.ran
  rw [if_pos hopen] at hend
  exact hend.listening

end Lone

end HttpServer
end HydrogenWeb
