import HydrogenWeb.HttpConnectionRuns
import HydrogenWeb.TcpConnectionInput

set_option autoImplicit false

/-!
# A connection of the HTTP server in its loop

`TcpConnection` with the callbacks of `HttpServer`: a readable event runs `connectionHandler`
and, from there, `onMessage`, whose calls go to the output of the same connection. Every answer
of `readv` and of `::write` is arbitrary, and every buffer an ideal byte queue. The output is
that of a plain `Session` that gets the bytes that `readv` delivered, up to its first `shutdown`.
-/
namespace HydrogenWeb
open TcpConnection (OutputRun OutputOp OutputInvariant)
open HttpServer (Call HttpCallback Chunk Session)

/-- `context` is what `setContext` has put into the connection. The history is that of the
output alone. -/
structure HttpConnection where
  output : OutputRun
  context : HttpContext

namespace HttpConnection
open TransitionRuns TcpConnection HttpServer TraceMarks

def conn (s : HttpConnection) : TcpConnection := s.output.conn

/-- A connection that `establishConnection` and `onConnection` have made ready. -/
def accepted (connName : String) (sockfd : ℤ) : HttpConnection :=
  ⟨⟨established connName sockfd, []⟩, HttpContext.fresh⟩

/-- A readable event: what `readv` did, with a count that fits into `ssize_t`, what the HTTP
callback is, and the answers to the calls of `::write` that follow. -/
structure Reading where
  result : ReadvResult
  counted : ∀ data, result = .delivered data → data.length < 2 ^ 63
  receiveTime : ℤ
  callback : HttpCallback
  answers : ℕ → WriteResult

/-- What `handleEvent` can run for the channel, apart from `errorHandler`. -/
inductive Event where
  | readable (e : Reading)
  | writable (w : WriteResult)
  | hangup

def call (w : WriteResult) (s : OutputRun) : Call → OutputRun
  | .send data => s.step (.send data w)
  | .shutdown => s.step .shutdown
  | .httpCallback _ => s

def perform : (ℕ → WriteResult) → OutputRun → List Call → OutputRun
  | _, s, [] => s
  | answers, s, c :: calls => perform (fun i => answers (i + 1)) (call (answers 0) s c) calls

def message (s : HttpConnection) (e : Reading) : Option HttpConnection :=
  (onMessage e.callback s.context s.conn.inputBuffer e.receiveTime).map
    fun (calls, context, inputBuffer) =>
      ⟨perform e.answers { s.output with conn := { s.conn with inputBuffer } } calls, context⟩

/-- `none` where an assertion fails or an exception leaves the handler, and for an event on a
channel that wants none. -/
def step (s : HttpConnection) : Event → Option HttpConnection
  | .readable e =>
    if s.conn.channel.isEmptyEvent then none
    else (s.conn.connectionHandler e.result).bind fun (conn, effects) =>
      let s := { s with output := { s.output with conn } }
      if .msgCallback ∈ effects then s.message e else some s
  | .writable w => some { s with output := s.output.step (.writable w) }
  | .hangup =>
    if s.conn.channel.isEmptyEvent then none
    else s.conn.closeHandler.map fun (conn, _) => { s with output := { s.output with conn } }

/-- The bytes that an event gives to the server. An error of `readv` runs the message callback
too, without new bytes. -/
def Event.chunk : Event → Option Chunk
  | .readable e =>
    match e.result with
    | .delivered [] => none
    | .delivered (b :: data) => some ⟨b :: data, e.receiveTime, e.callback⟩
    | .error => some ⟨[], e.receiveTime, e.callback⟩
  | _ => none

def Event.closes : Event → Bool
  | .readable e => e.result = .delivered []
  | .writable _ => false
  | .hangup => true

def textOf : Call → List UInt8
  | .send data => data
  | _ => []

/-- What the calls put on the wire: nothing that comes after a `shutdown`. -/
def spoken (calls : List Call) : List UInt8 :=
  (calls.takeWhile fun c => !c.isShutdown).flatMap textOf

def Listens (c : Channel) : Prop := c.events &&& Channel.READEVENT = Channel.READEVENT

theorem Listens.nonempty {c : Channel} (h : Listens c) : c.isEmptyEvent = false := by
  have hne : Channel.EMPTYEVENT &&& Channel.READEVENT ≠ Channel.READEVENT := by decide
  rw [Channel.isEmptyEvent, decide_eq_false_iff_not]
  intro hempty
  rw [Listens, hempty] at h
  exact hne h

theorem Listens.enableWriting {c : Channel} (h : Listens c) : Listens c.enableWriting := by
  have hdisjoint : Channel.WRITEEVENT &&& Channel.READEVENT = 0#32 := by decide
  show (c.events ||| Channel.WRITEEVENT) &&& Channel.READEVENT = Channel.READEVENT
  rw [BitVec.and_comm, BitVec.and_or_distrib_left, BitVec.and_comm, h, BitVec.and_comm,
    hdisjoint, BitVec.or_zero]

theorem Listens.disableWriting {c : Channel} (h : Listens c) : Listens c.disableWriting := by
  have hkeep : ~~~Channel.WRITEEVENT &&& Channel.READEVENT = Channel.READEVENT := by decide
  show (c.events &&& ~~~Channel.WRITEEVENT) &&& Channel.READEVENT = Channel.READEVENT
  rw [BitVec.and_assoc, hkeep, h]

theorem appendRest_listens {c : TcpConnection} (h : Listens c.channel) (data : List UInt8)
    (n left : ℕ) : Listens (c.appendRest data n left).1.channel := by
  unfold appendRest
  split
  · dsimp only
    split
    · exact h
    · exact h.enableWriting
  · exact h

theorem send_listens {c : TcpConnection} (h : Listens c.channel) (msg : List UInt8)
    (w : WriteResult) : Listens (c.send true msg w).1.channel := by
  rw [send, if_pos rfl, sendInLoopThread]
  split
  · split
    · dsimp only
      split
      · exact appendRest_listens h _ _ _
      · exact appendRest_listens h _ _ _
    · exact appendRest_listens h _ _ _
  · exact h

theorem shutdown_channel (c : TcpConnection) : (c.shutdown true).1.channel = c.channel := by
  rw [shutdown, if_pos rfl, shutdownInLoopThread]
  split
  · split <;> rfl
  · rfl

theorem writeHandler_listens {c : TcpConnection} (h : Listens c.channel) (w : WriteResult) :
    Listens (c.writeHandler w).1.channel := by
  unfold writeHandler
  split
  · dsimp only
    split
    · split
      · split
        · rw [shutdownInLoopThread]
          split <;> exact h.disableWriting
        · exact h.disableWriting
      · exact h
    · exact h
  · exact h

def Ended (s : OutputRun) : Prop :=
  s.conn.state = .DISCONNECTING → s.conn.outputBuffer = [] →
    .did .shutdownWrite ∈ s.history

structure Speaks (s : OutputRun) (calls : List Call) : Prop where
  output : OutputInvariant s
  listens : Listens s.conn.channel
  ended : Ended s
  sent : sentBytes s.history = spoken calls
  connected : s.conn.state = .CONNECTED ↔ ∀ c ∈ calls, c.isShutdown = false

theorem spoken_snoc (calls : List Call) (c : Call) : spoken (calls ++ [c]) =
    spoken calls ++ if calls.all (fun d => !d.isShutdown) then textOf c else [] := by
  induction calls with
  | nil => cases c <;> simp [spoken, Call.isShutdown, textOf]
  | cons d calls ih =>
    cases hd : d.isShutdown with
    | true => simp [spoken, hd]
    | false =>
      simp only [spoken, List.cons_append, List.takeWhile_cons, hd, Bool.not_false, if_true,
        List.flatMap_cons, List.all_cons, Bool.true_and, List.append_assoc] at ih ⊢
      rw [ih]

theorem Speaks.connected_iff {s : OutputRun} {calls : List Call} (h : Speaks s calls) :
    s.conn.state = .CONNECTED ↔ calls.all (fun d => !d.isShutdown) = true := by
  rw [h.connected, List.all_eq_true]
  simp

theorem send_state {c : TcpConnection} (h : c.FlagOk) (msg : List UInt8) (w : WriteResult) :
    (c.send true msg w).1.state = c.state := by
  unfold send
  split
  · obtain ⟨d, effects, hd, hstate, -⟩ := sendInLoopThread_spec h msg w
    rw [if_pos rfl, hd]
    exact hstate
  · rfl

theorem send_speaks {s : OutputRun} {calls : List Call} (h : Speaks s calls) (msg : List UInt8)
    (w : WriteResult) : Speaks (s.step (.send msg w)) (calls ++ [.send msg]) := by
  have hstate : (s.step (.send msg w)).conn.state = s.conn.state := send_state h.output.flag msg w
  refine ⟨send_invariant h.output msg w, send_listens h.listens msg w, ?_, ?_, ?_⟩
  · intro hdis hempty
    rw [hstate] at hdis
    have hsame : s.conn.send true msg w = (s.conn, []) := by
      rw [send, if_neg (by rw [hdis]; exact State.noConfusion)]
    simp only [OutputRun.step, hsame] at hempty ⊢
    exact List.mem_append_left _ (List.mem_append_left _ (h.ended hdis hempty))
  · rw [spoken_snoc, ← h.sent]
    simp only [OutputRun.step, sentBytes_append, sentBytes_did, List.append_nil]
    by_cases hc : s.conn.state = .CONNECTED
    · have hcall : s.conn.connected = true := decide_eq_true hc
      rw [if_pos hcall, if_pos (h.connected_iff.1 hc)]
      simp [sentBytes, Event.sentBytes, textOf]
    · have hcall : ¬ s.conn.connected = true := by simpa [connected] using hc
      rw [if_neg hcall, if_neg (mt h.connected_iff.2 hc)]
      rfl
  · rw [hstate, h.connected]
    simp [Call.isShutdown, or_imp, forall_and]

theorem shutdown_state (c : TcpConnection) : (c.shutdown true).1.state ≠ .CONNECTED := by
  unfold shutdown
  split
  · rw [if_pos rfl, shutdownInLoopThread]
    split <;> exact State.noConfusion
  · assumption

theorem shutdown_speaks {s : OutputRun} {calls : List Call} (h : Speaks s calls) :
    Speaks (s.step .shutdown) (calls ++ [.shutdown]) := by
  refine ⟨shutdown_invariant h.output, ?_, ?_, ?_, ?_⟩
  · show Listens (s.conn.shutdown true).1.channel
    rw [shutdown_channel]
    exact h.listens
  · intro hdis hempty
    by_cases hc : s.conn.state = .CONNECTED
    · have hidle : ¬ s.conn.channel.isWriting = true := by
        intro hw
        refine h.output.flag.1 hw ?_
        simpa [OutputRun.step, shutdown, hc, shutdownInLoopThread, setState, hw] using hempty
      simp [OutputRun.step, shutdown, hc, shutdownInLoopThread, setState, hidle]
    · have hsame : s.conn.shutdown true = (s.conn, []) := if_neg hc
      simp only [OutputRun.step, hsame] at hdis hempty ⊢
      exact List.mem_append_left _ (List.mem_append_left _ (h.ended hdis hempty))
  · rw [spoken_snoc, ← h.sent]
    simp [OutputRun.step, sentBytes, Event.sentBytes, textOf]
  · have hstate : (s.step .shutdown).conn.state ≠ .CONNECTED := shutdown_state s.conn
    refine iff_of_false hstate fun hall => ?_
    have hlast := hall .shutdown (by simp)
    cases hlast

/-- A writable event that empties the output of a disconnecting connection shuts it. -/
theorem writeHandler_ends {c : TcpConnection} (hdis : c.state = .DISCONNECTING)
    (hne : c.outputBuffer ≠ []) (w : WriteResult) (hempty : (c.writeHandler w).1.outputBuffer = []) :
    .shutdownWrite ∈ (c.writeHandler w).2 := by
  revert hempty
  unfold writeHandler
  split
  · dsimp only
    split
    · split
      · simp [shutdownInLoopThread]
      · rename_i hrest
        intro hempty
        exact absurd (congrArg List.length hempty) hrest
    · exact fun hempty => absurd hempty hne
  · exact fun hempty => absurd hempty hne

theorem writable_speaks {s : OutputRun} {calls : List Call} (h : Speaks s calls)
    (w : WriteResult) : Speaks (s.step (.writable w)) calls := by
  obtain ⟨d, effects, hd, hstate, -⟩ := writeHandler_spec h.output.flag w
  have hstep : s.step (.writable w) = ⟨d, s.history ++ effects.map .did⟩ := by
    rw [OutputRun.step, hd]
  refine ⟨writable_invariant h.output w, writeHandler_listens h.listens w, ?_, ?_, ?_⟩
  · rw [hstep]
    intro hdis hempty
    have hdis' : s.conn.state = .DISCONNECTING := hstate.symm.trans hdis
    by_cases hne : s.conn.outputBuffer = []
    · exact List.mem_append_left _ (h.ended hdis' hne)
    · have hends := writeHandler_ends hdis' hne w (by rw [hd]; exact hempty)
      rw [hd] at hends
      exact List.mem_append_right _ (List.mem_map_of_mem hends)
  · rw [hstep, ← h.sent]
    simp
  · rw [hstep, hstate]
    exact h.connected

theorem call_speaks {s : OutputRun} {calls : List Call} (h : Speaks s calls) (w : WriteResult)
    (c : Call) : Speaks (call w s c) (calls ++ [c]) := by
  cases c with
  | send data => exact send_speaks h data w
  | shutdown => exact shutdown_speaks h
  | httpCallback request =>
    refine ⟨h.output, h.listens, h.ended, ?_, ?_⟩
    · rw [spoken_snoc, call, h.sent]
      simp [textOf]
    · rw [call, h.connected]
      simp [Call.isShutdown, or_imp, forall_and]

theorem perform_speaks {s : OutputRun} {calls : List Call} (h : Speaks s calls)
    (answers : ℕ → WriteResult) (new : List Call) :
    Speaks (perform answers s new) (calls ++ new) := by
  induction new generalizing s calls answers with
  | nil =>
    rw [List.append_nil]
    exact h
  | cons c new ih =>
    rw [List.append_cons]
    exact ih (call_speaks h (answers 0) c) _

theorem sendInLoopThread_inputBuffer (c : TcpConnection) (data : List UInt8) (w : WriteResult) :
    (c.sendInLoopThread data w).1.inputBuffer = c.inputBuffer := by
  have hrest : ∀ n left, (c.appendRest data n left).1.inputBuffer = c.inputBuffer := by
    intro n left
    unfold appendRest
    split
    · dsimp only
      split <;> rfl
    · rfl
  unfold sendInLoopThread
  split
  · dsimp only
    split
    · exact hrest _ _
    · exact hrest _ _
  · exact hrest _ _

theorem call_inputBuffer (w : WriteResult) (s : OutputRun) (c : Call) :
    (call w s c).conn.inputBuffer = s.conn.inputBuffer := by
  cases c with
  | send data =>
    show (s.conn.send true data w).1.inputBuffer = _
    unfold send
    split
    · exact sendInLoopThread_inputBuffer _ _ _
    · rfl
  | shutdown =>
    show (s.conn.shutdown true).1.inputBuffer = _
    unfold shutdown
    split
    · rw [if_pos rfl, shutdownInLoopThread]
      split <;> rfl
    · rfl
  | httpCallback request => rfl

theorem perform_inputBuffer (answers : ℕ → WriteResult) (s : OutputRun) (calls : List Call) :
    (perform answers s calls).conn.inputBuffer = s.conn.inputBuffer := by
  induction calls generalizing answers s with
  | nil => rfl
  | cons c calls ih =>
    rw [perform, ih]
    exact call_inputBuffer _ _ _

theorem writeHandler_inputBuffer (c : TcpConnection) (w : WriteResult) :
    (c.writeHandler w).1.inputBuffer = c.inputBuffer := by
  unfold writeHandler
  split
  · dsimp only
    split
    · split
      · split
        · rw [shutdownInLoopThread]
          split <;> rfl
        · rfl
      · rfl
    · rfl
  · rfl

/-- A connection whose handlers run, and the session that has received the same bytes. -/
structure Open (s : HttpConnection) (t : Session (List UInt8)) : Prop where
  speaks : Speaks s.output t.calls
  context : s.context = t.context
  live : t.context.state ≠ .ALLOK
  input : s.conn.inputBuffer = t.inputBuffer

structure Closed (s : HttpConnection) (t : Session (List UInt8)) : Prop where
  was : ∃ conn : TcpConnection, Open ⟨⟨conn, s.output.history⟩, s.context⟩ t ∧
    s.conn = { conn with channel := conn.channel.disableAll }

theorem accepted_open (connName : String) (sockfd : ℤ) :
    Open (accepted connName sockfd) (Session.fresh []) := by
  refine ⟨⟨start_invariant connName sockfd, ?_, ?_, rfl, ?_⟩, rfl, HttpContext.fresh_live, rfl⟩
  · show (Channel.EMPTYEVENT ||| Channel.READEVENT) &&& Channel.READEVENT = Channel.READEVENT
    decide
  · intro hdis
    cases hdis
  · exact iff_of_true rfl fun c hc => absurd hc List.not_mem_nil

/-- The unread bytes are no part of the output. -/
theorem Speaks.withInput {s : OutputRun} {calls : List Call} (h : Speaks s calls)
    (inputBuffer : List UInt8) :
    Speaks { s with conn := { s.conn with inputBuffer } } calls where
  output := ⟨h.output.flag, h.output.fifo, h.output.alive, h.output.asked, h.output.shut,
    h.output.marked⟩
  listens := h.listens
  ended := h.ended
  sent := h.sent
  connected := h.connected

variable {s s' : HttpConnection} {t : Session (List UInt8)}

/-- The message callback on the bytes of a chunk does what the session does, and fails where it
fails. -/
theorem Open.message (h : Open s t) (e : Reading) (data : List UInt8) {chunk : Chunk}
    (hchunk : chunk = ⟨data, e.receiveTime, e.callback⟩) :
    ((message ⟨⟨{ s.conn with inputBuffer := s.conn.inputBuffer ++ data }, s.output.history⟩,
        s.context⟩ e).isSome = (t.receive chunk).isSome) ∧
    ∀ s', message ⟨⟨{ s.conn with inputBuffer := s.conn.inputBuffer ++ data }, s.output.history⟩,
      s.context⟩ e = some s' → ∃ t', t.receive chunk = some t' ∧ Open s' t' := by
  subst hchunk
  have hreceive : t.receive ⟨data, e.receiveTime, e.callback⟩ =
      (onMessage e.callback s.context (s.conn.inputBuffer ++ data) e.receiveTime).map
        fun (calls, context, b) => ⟨context, b, t.calls ++ calls⟩ := by
    rw [h.context, h.input]
    rfl
  rw [hreceive, HttpConnection.message]
  constructor
  · rw [Option.isSome_map, Option.isSome_map]
    rfl
  · intro s' hs'
    obtain ⟨⟨calls, context, b⟩, hcalls, rfl⟩ := Option.map_eq_some_iff.1 hs'
    have hrun : onMessage e.callback s.context (s.conn.inputBuffer ++ data) e.receiveTime =
        some (calls, context, b) := hcalls
    have hreceived : t.receive ⟨data, e.receiveTime, e.callback⟩ =
        some ⟨context, b, t.calls ++ calls⟩ := by rw [hreceive, hrun, Option.map_some]
    refine ⟨⟨context, b, t.calls ++ calls⟩, by rw [hrun, Option.map_some], ?_, rfl, ?_, ?_⟩
    · exact perform_speaks (h.speaks.withInput b) e.answers calls
    · exact live_receive h.live hreceived
    · exact perform_inputBuffer _ _ _

theorem Open.listening (h : Open s t) : ¬ s.conn.channel.isEmptyEvent = true := by
  have hevents : s.conn.channel.isEmptyEvent = false := h.speaks.listens.nonempty
  rw [hevents]
  exact Bool.false_ne_true

theorem Open.closeHandler (h : Open s t) : ∃ conn effects,
    s.conn.closeHandler = some (conn, effects) ∧ .msgCallback ∉ effects ∧
      Closed { s with output := { s.output with conn } } t := by
  refine ⟨_, _, if_pos h.speaks.output.alive, by simp, ⟨s.conn, h, rfl⟩⟩

def Event.deliver (e : Event) (t : Session (List UInt8)) : Option (Session (List UInt8)) :=
  match e.chunk with
  | some chunk => t.receive chunk
  | none => some t

theorem run_chunks (e : Event) (events : List Event) (t : Session (List UInt8)) :
    run Session.receive t ((e :: events).filterMap Event.chunk) =
      (e.deliver t).bind fun t => run Session.receive t (events.filterMap Event.chunk) := by
  cases hchunk : e.chunk with
  | none => rw [List.filterMap_cons_none hchunk, Event.deliver, hchunk, Option.bind_some]
  | some chunk => rw [List.filterMap_cons_some hchunk, Event.deliver, hchunk, run_cons]

theorem Open.step_readable (h : Open s t) (e : Reading) :
    (step s (.readable e)).isSome = (Event.deliver (.readable e) t).isSome ∧
    ∀ s', step s (.readable e) = some s' → ∃ t', Event.deliver (.readable e) t = some t' ∧
      if Event.closes (.readable e) then Closed s' t' else Open s' t' := by
  have hstep : step s (.readable e) = (s.conn.connectionHandler e.result).bind
      fun (conn, effects) => if .msgCallback ∈ effects then
        HttpConnection.message ⟨⟨conn, s.output.history⟩, s.context⟩ e
        else some ⟨⟨conn, s.output.history⟩, s.context⟩ := if_neg h.listening
  cases hresult : e.result with
  | error =>
    have hchunk : Event.chunk (.readable e) = some ⟨[], e.receiveTime, e.callback⟩ := by
      simp [Event.chunk, hresult]
    have hcloses : Event.closes (.readable e) = false := by simp [Event.closes, hresult]
    have hmessage := h.message e [] rfl
    simp only [List.append_nil] at hmessage
    rw [hstep, hresult, connectionHandler_error, Event.deliver, hchunk, hcloses]
    simpa using hmessage
  | delivered data =>
    cases data with
    | nil =>
      have hchunk : Event.chunk (.readable e) = none := by simp [Event.chunk, hresult]
      have hcloses : Event.closes (.readable e) = true := by simp [Event.closes, hresult]
      obtain ⟨conn, effects, hclose, hnot, hclosed⟩ := h.closeHandler
      rw [hstep, hresult, connectionHandler_end, hclose, Event.deliver, hchunk, hcloses]
      simpa [hnot] using hclosed
    | cons b data =>
      have hchunk : Event.chunk (.readable e) = some ⟨b :: data, e.receiveTime, e.callback⟩ := by
        simp [Event.chunk, hresult]
      have hcloses : Event.closes (.readable e) = false := by simp [Event.closes, hresult]
      have hmessage := h.message e (b :: data) rfl
      rw [hstep, hresult, connectionHandler_data _ (e.counted _ hresult), Event.deliver, hchunk,
        hcloses]
      simpa using hmessage

theorem Open.step (h : Open s t) (e : Event) :
    (step s e).isSome = (e.deliver t).isSome ∧
    ∀ s', step s e = some s' → ∃ t', e.deliver t = some t' ∧
      if e.closes then Closed s' t' else Open s' t' := by
  cases e with
  | readable e => exact h.step_readable e
  | writable w =>
    refine ⟨rfl, fun s' hs' => ⟨t, rfl, ?_⟩⟩
    cases hs'
    exact ⟨writable_speaks h.speaks w, h.context, h.live,
      (writeHandler_inputBuffer _ _).trans h.input⟩
  | hangup =>
    obtain ⟨conn, effects, hclose, -, hclosed⟩ := h.closeHandler
    have hstep : HttpConnection.step s .hangup =
        some ⟨⟨conn, s.output.history⟩, s.context⟩ := by
      rw [HttpConnection.step, if_neg h.listening, hclose]
      rfl
    rw [hstep]
    refine ⟨rfl, fun s' hs' => ⟨t, rfl, ?_⟩⟩
    cases hs'
    exact hclosed

/-- Nothing happens on a channel without events. -/
theorem Closed.step (h : Closed s t) {e : Event} (hs : step s e = some s') :
    s' = s ∧ e.chunk = none := by
  obtain ⟨conn, -, hconn⟩ := h.was
  have hempty : s.conn.channel.isEmptyEvent = true := by rw [hconn]; rfl
  cases e with
  | readable e =>
    rw [HttpConnection.step, if_pos hempty] at hs
    cases hs
  | writable w =>
    have hidle : s.conn.writeHandler w = (s.conn, []) := by
      rw [writeHandler, if_neg]
      rw [hconn]
      simp
    have hkeep : s.output.step (.writable w) = s.output := by
      show OutputRun.mk (s.conn.writeHandler w).1
        (s.output.history ++ (s.conn.writeHandler w).2.map .did) = s.output
      rw [hidle, List.map_nil, List.append_nil]
      rfl
    rw [HttpConnection.step, hkeep] at hs
    cases hs
    exact ⟨rfl, rfl⟩
  | hangup =>
    rw [HttpConnection.step, if_pos hempty] at hs
    cases hs

theorem closed_run (h : Closed s t) {events : List Event} (hrun : run step s events = some s') :
    s' = s ∧ events.filterMap Event.chunk = [] := by
  induction events with
  | nil =>
    cases hrun
    exact ⟨rfl, rfl⟩
  | cons e events ih =>
    rw [run_cons, Option.bind_eq_some_iff] at hrun
    obtain ⟨u, hu, htail⟩ := hrun
    obtain ⟨rfl, hchunk⟩ := h.step hu
    obtain ⟨hsame, hrest⟩ := ih htail
    exact ⟨hsame, by rw [List.filterMap_cons_none hchunk, hrest]⟩

theorem open_run (h : Open s t) {events : List Event} (hrun : run step s events = some s') :
    ∃ t', run Session.receive t (events.filterMap Event.chunk) = some t' ∧
      if ∀ e ∈ events, e.closes = false then Open s' t' else Closed s' t' := by
  induction events generalizing s t with
  | nil =>
    cases hrun
    exact ⟨t, rfl, by simpa using h⟩
  | cons e events ih =>
    rw [run_cons, Option.bind_eq_some_iff] at hrun
    obtain ⟨u, hu, htail⟩ := hrun
    obtain ⟨t₁, ht₁, hnext⟩ := (h.step e).2 u hu
    rw [run_chunks, ht₁, Option.bind_some]
    cases hcloses : e.closes with
    | false =>
      rw [hcloses, if_neg Bool.false_ne_true] at hnext
      simpa [hcloses] using ih hnext htail
    | true =>
      rw [hcloses, if_pos rfl] at hnext
      obtain ⟨rfl, hrest⟩ := closed_run hnext htail
      exact ⟨t₁, by rw [hrest, run_nil], by simpa [hcloses] using hnext⟩

/-- The connection as the session's carrier: the parser has the same bytes, the calls up to the
first `shutdown` are on the wire or in the output buffer, and the write side is shut behind the
last of their bytes. -/
structure Delivers (s : HttpConnection) (t : Session (List UInt8)) : Prop where
  context : s.context = t.context
  input : s.conn.inputBuffer = t.inputBuffer
  wire : acceptedBytes s.output.history ++ s.conn.outputBuffer = spoken t.calls
  drained : .did .shutdownWrite ∈ s.output.history → s.conn.outputBuffer = []
  shut : ∀ before after, s.output.history = before ++ .did .shutdownWrite :: after →
    (∃ c ∈ t.calls, c.isShutdown = true) ∧ acceptedBytes before = spoken t.calls ∧ Quiet after

theorem error_counted (data : List UInt8) (h : ReadvResult.error = .delivered data) :
    data.length < 2 ^ 63 := by
  cases h

theorem counted_of_short {request : List UInt8} (h : request.length < 2 ^ 63) (data : List UInt8)
    (hdata : ReadvResult.delivered request = .delivered data) : data.length < 2 ^ 63 := by
  cases hdata
  exact h

def idle : Reading := ⟨.error, error_counted, 0, fun _ response => response, fun _ => .error⟩

/-- The bytes of a client, and the answer to every write that follows. -/
def sends (request : List UInt8) (h : request.length < 2 ^ 63) (callback : HttpCallback)
    (answer : WriteResult) : Reading :=
  ⟨.delivered request, counted_of_short h, 0, callback, fun _ => answer⟩

def rejectedReading (answer : WriteResult) : Reading :=
  sends (bytes "A\r\n") (by decide) (fun _ response => response) answer

end HttpConnection
end HydrogenWeb
