import HydrogenWeb.EventLoopWakeup
import HydrogenWeb.Poller
import HydrogenWeb.TcpConnectionOutput

set_option autoImplicit false

/-!
# A connection that other threads send on

`send` in another thread reads the state at one point and pushes its functor at a later
one. The loop of the connection is also the one of its server. The build is a Release
one: where an assertion would fail the code goes on.
-/
namespace HydrogenWeb
open TransitionRuns

namespace TcpConnection.Release

def closeHandler (c : TcpConnection) : TcpConnection × List Effect :=
  ({ c with channel := c.channel.disableAll }, [.update, .closeCallback])

def destroyConnection (c : TcpConnection) : TcpConnection × List Effect :=
  ({ c with state := .DISCONNECTED, channel := c.channel.disableAll },
    [.update, .connCallback, .removeChannel])

def connectionHandler (c : TcpConnection) (r : ReadvResult) : TcpConnection × List Effect :=
  let (ret, inputBuffer) := readFd c.inputBuffer r
  let c := { c with inputBuffer }
  let n := sizeOfSsize ret
  if n > 0 then (c, [.msgCallback])
  else if n = 0 then closeHandler c
  else c.errorHandler

end TcpConnection.Release

namespace ForeignSend

/-- What the loop's queue holds; `other` functors have nothing of the connection in them. -/
inductive Functor where
  | sendInLoopThread (msg : List UInt8)
  | destroyConnection
  | other
deriving DecidableEq

inductive Action (τ ι : Type*) where
  | loop (a : EventLoop.Action τ Functor)
  | pollReturn (revents : BitVec 32)
  | callback (r : ReadvResult) (w : WriteResult)
  | runFunctor (w : WriteResult)
  | send (msg : List UInt8) (w : WriteResult)
  | shutdown
  | check (t : τ) (msg : List UInt8)
  | push (t : τ) (msg : List UInt8)
  | updateOther (i : ι) (events : BitVec 32)
  | removeOther (i : ι)

end ForeignSend

/-- In the poller `none` is the channel of the connection, the others are names in `ι`. -/
structure ForeignSend (τ ι : Type*) where
  loop : EventLoop τ ForeignSend.Functor
  conn : TcpConnection
  poller : Poller (Option ι)
  others : ι → Channel
  /-- The threads that have read CONNECTED in `send` and are before the push. -/
  checked : List (τ × List UInt8)
  /-- What the connection's `handleEvent` has still to run. -/
  callbacks : List Callback
  /-- `Poller::removeChannel` has run on the channel. -/
  removed : Bool
  history : List TcpConnection.Event

namespace ForeignSend
open TcpConnection

variable {τ ι : Type*}

def start (connName : String) (sockfd : ℤ) (poller : Poller (Option ι)) (others : ι → Channel) :
    ForeignSend τ ι where
  loop := .fresh
  conn := { established connName sockfd with
    channel := (established connName sockfd).channel.set_index poller.fds.length }
  poller := ⟨poller.fds ++ [⟨sockfd, Channel.READEVENT.setWidth 16, 0⟩],
    poller.channels.insert sockfd none⟩
  others
  checked := []
  callbacks := []
  removed := false
  history := []

def runCallback (c : TcpConnection) (r : ReadvResult) (w : WriteResult) :
    Callback → TcpConnection × List Effect
  | .close => Release.closeHandler c
  | .error => c.errorHandler
  | .read => Release.connectionHandler c r
  | .write => c.writeHandler w

def call (c : TcpConnection) (w : WriteResult) : Functor → TcpConnection × List Effect
  | .sendInLoopThread msg => c.sendInLoopThread msg w
  | .destroyConnection => Release.destroyConnection c
  | .other => (c, [])

def inCallback (s : ForeignSend τ ι) : Bool := s.loop.mayCall .loop && s.loop.point .loop = .idle

def runs (s : ForeignSend τ ι) : Action τ ι → Option (TcpConnection × List Effect)
  | .callback r w =>
    if s.loop.ready .handling then s.callbacks.head?.map (runCallback s.conn r w) else none
  | .runFunctor w =>
    if s.loop.ready .running then s.loop.functors.head?.map (call s.conn w) else none
  | .send msg w => if s.inCallback then some (s.conn.send true msg w) else none
  | .shutdown => if s.inCallback then some (s.conn.shutdown true) else none
  | _ => none

variable [DecidableEq ι]

def storeIndex (s : ForeignSend τ ι) : Option (Option ι × ℤ) → ForeignSend τ ι
  | none => s
  | some (none, idx) =>
    { s with conn := { s.conn with channel := s.conn.channel.set_index idx } }
  | some (some i, idx) =>
    { s with others := Function.update s.others i ((s.others i).set_index idx) }

/-- `Poller::removeChannel` may give another entry to the channel, and nothing else of it. -/
theorem storeIndex_spec (s : ForeignSend τ ι) (moved : Option (Option ι × ℤ)) :
    ∃ others index, s.storeIndex moved = { s with
      others, conn := { s.conn with channel := s.conn.channel.set_index index } } := by
  rcases moved with _ | ⟨_ | i, idx⟩
  · exact ⟨s.others, s.conn.channel.index, rfl⟩
  · exact ⟨s.others, idx, rfl⟩
  · exact ⟨_, s.conn.channel.index, rfl⟩

def polled (s : ForeignSend τ ι) : Bool :=
  s.poller.channels[s.conn.channel.fd]? = some none &&
    (s.poller.fds[s.conn.channel.index.toNat]?).any fun pfd => 0 ≤ pfd.fd

variable [DecidableEq τ]

/-- `none` is an access outside of the poller's tables. -/
def perform (s : ForeignSend τ ι) : Effect → Option (ForeignSend τ ι)
  | .update =>
    (s.poller.updateChannel none s.conn.channel).map fun (poller, channel) =>
      { s with poller, conn := { s.conn with channel } }
  | .removeChannel =>
    (s.poller.removeChannel s.conn.channel).map fun (poller, moved) =>
      { s.storeIndex moved with poller, removed := true }
  -- `TcpServer::removeConnection`
  | .closeCallback =>
    (EventLoop.step s.loop (.push .loop .destroyConnection)).map fun loop => { s with loop }
  | _ => some s

def performAll (s : ForeignSend τ ι) : List Effect → Option (ForeignSend τ ι)
  | [] => some s
  | e :: effects => (s.perform e).bind fun s => s.performAll effects

def does (s : ForeignSend τ ι) (r : TcpConnection × List Effect) : Option (ForeignSend τ ι) :=
  { s with conn := r.1, history := s.history ++ r.2.map Event.did }.performAll r.2

def free (s : ForeignSend τ ι) : Caller τ → Bool
  | .loop => true
  | .foreign t => t ∉ s.checked.map Prod.fst

def plain (s : ForeignSend τ ι) : EventLoop.Action τ Functor → Bool
  | .pollReturn | .runFunctor => false
  | .beginFunctors => s.callbacks.isEmpty
  | .push c f => f = .other && s.free c
  | .quit c => s.free c
  | _ => true

def enter (s : ForeignSend τ ι) : Action τ ι → ForeignSend τ ι
  | .callback _ _ => { s with callbacks := s.callbacks.tail }
  | .runFunctor _ => { s with loop := s.loop.effect .runFunctor }
  | .send msg _ => if s.conn.connected then { s with history := s.history ++ [.sent msg] } else s
  | .shutdown => { s with history := s.history ++ [.shutdownCalled] }
  | _ => s

def step (s : ForeignSend τ ι) (a : Action τ ι) : Option (ForeignSend τ ι) :=
  match a with
  | .loop a =>
    if s.plain a then (EventLoop.step s.loop a).map fun loop => { s with loop } else none
  | .pollReturn revents =>
    (EventLoop.step s.loop .pollReturn).map fun loop =>
      if s.polled then
        let channel := s.conn.channel.set_revents revents
        { s with loop, conn := { s.conn with channel }, callbacks := channel.handleEvent }
      else { s with loop }
  | .callback _ _ | .runFunctor _ | .send _ _ | .shutdown => (s.runs a).bind (s.enter a).does
  | .check t msg =>
    if s.loop.point (.foreign t) = .idle ∧ s.free (.foreign t) then
      if s.conn.connected then
        some { s with checked := s.checked ++ [(t, msg)], history := s.history ++ [.sent msg] }
      else some s
    else none
  | .push t msg =>
    if (t, msg) ∈ s.checked then
      (EventLoop.step s.loop (.push (.foreign t) (.sendInLoopThread msg))).map fun loop =>
        { s with loop, checked := s.checked.erase (t, msg) }
    else none
  | .updateOther i events =>
    if s.inCallback then
      (s.poller.updateChannel (some i) { s.others i with events }).map fun (poller, channel) =>
        { s with poller, others := Function.update s.others i channel }
    else none
  | .removeOther i =>
    if s.inCallback then
      (s.poller.removeChannel (s.others i)).map fun (poller, moved) =>
        { s.storeIndex moved with poller }
    else none

inductive Runs (s : ForeignSend τ ι) : Action τ ι → TcpConnection × List Effect → Prop
  | callback {c : ReadvResult} {w : WriteResult} {callback : Callback}
      (hready : s.loop.ready .handling = true) (hhead : s.callbacks.head? = some callback) :
      Runs s (.callback c w) (runCallback s.conn c w callback)
  | runFunctor {w : WriteResult} {f : Functor} (hready : s.loop.ready .running = true)
      (hhead : s.loop.functors.head? = some f) : Runs s (.runFunctor w) (call s.conn w f)
  | send {msg : List UInt8} {w : WriteResult} (hin : s.inCallback = true) :
      Runs s (.send msg w) (s.conn.send true msg w)
  | shutdown (hin : s.inCallback = true) : Runs s .shutdown (s.conn.shutdown true)

omit [DecidableEq τ] [DecidableEq ι] in
theorem runs_cases {s : ForeignSend τ ι} {a : Action τ ι} {r : TcpConnection × List Effect}
    (h : s.runs a = some r) : Runs s a r := by
  cases a with
  | callback c w =>
    obtain ⟨hready, h⟩ := Option.ite_none_right_eq_some.1 h
    obtain ⟨callback, hhead, rfl⟩ := Option.map_eq_some_iff.1 h
    exact .callback hready hhead
  | runFunctor w =>
    obtain ⟨hready, h⟩ := Option.ite_none_right_eq_some.1 h
    obtain ⟨f, hhead, rfl⟩ := Option.map_eq_some_iff.1 h
    exact .runFunctor hready hhead
  | send msg w =>
    obtain ⟨hin, h⟩ := Option.ite_none_right_eq_some.1 h
    cases h
    exact .send hin
  | shutdown =>
    obtain ⟨hin, h⟩ := Option.ite_none_right_eq_some.1 h
    cases h
    exact .shutdown hin
  | _ => cases h

/-- The rest of the state is as before, and a removal is only done by `removeChannel`. -/
theorem perform_frame {s u : ForeignSend τ ι} {e : Effect} (h : s.perform e = some u) :
    u.history = s.history ∧ u.callbacks = s.callbacks ∧ u.loop.phase = s.loop.phase ∧
      (e ≠ .removeChannel → u.removed = s.removed) := by
  cases e with
  | update =>
    obtain ⟨r, -, rfl⟩ := Option.map_eq_some_iff.1 h
    exact ⟨rfl, rfl, rfl, fun _ => rfl⟩
  | removeChannel =>
    obtain ⟨⟨poller, moved⟩, -, rfl⟩ := Option.map_eq_some_iff.1 h
    obtain ⟨others, index, hstore⟩ := storeIndex_spec s moved
    simp [hstore]
  | closeCallback =>
    obtain ⟨loop, hloop, rfl⟩ := Option.map_eq_some_iff.1 h
    obtain ⟨-, rfl⟩ := EventLoop.step_eq_some hloop
    exact ⟨rfl, rfl, rfl, fun _ => rfl⟩
  | _ =>
    cases h
    exact ⟨rfl, rfl, rfl, fun _ => rfl⟩

theorem performAll_frame {s u : ForeignSend τ ι} {effects : List Effect}
    (h : s.performAll effects = some u) :
    u.history = s.history ∧ u.callbacks = s.callbacks ∧ u.loop.phase = s.loop.phase ∧
      (.removeChannel ∉ effects → u.removed = s.removed) := by
  induction effects generalizing s with
  | nil =>
    cases h
    exact ⟨rfl, rfl, rfl, fun _ => rfl⟩
  | cons e effects ih =>
    obtain ⟨t, ht, htail⟩ := Option.bind_eq_some_iff.1 h
    obtain ⟨hhistory, hcallbacks, hphase, hremoved⟩ := perform_frame ht
    obtain ⟨hhistory', hcallbacks', hphase', hremoved'⟩ := ih htail
    refine ⟨hhistory'.trans hhistory, hcallbacks'.trans hcallbacks, hphase'.trans hphase, ?_⟩
    intro hnot
    rw [List.mem_cons, not_or] at hnot
    exact (hremoved' hnot.2).trans (hremoved (Ne.symm hnot.1))

def Inert : Effect → Prop
  | .update | .removeChannel | .closeCallback => False
  | _ => True

theorem performAll_inert {effects : List Effect} (h : ∀ e ∈ effects, Inert e)
    (s : ForeignSend τ ι) : s.performAll effects = some s := by
  induction effects with
  | nil => rfl
  | cons e effects ih =>
    have hperform : s.perform e = some s := by
      have he := h e List.mem_cons_self
      cases e <;> first | rfl | exact absurd he (by simp [Inert])
    rw [performAll, hperform]
    exact ih fun e he => h e (List.mem_cons_of_mem _ he)

theorem does_inert {r : TcpConnection × List Effect} (h : ∀ e ∈ r.2, Inert e)
    (s : ForeignSend τ ι) :
    s.does r = some { s with conn := r.1, history := s.history ++ r.2.map Event.did } :=
  performAll_inert h _

theorem does_frame {s u : ForeignSend τ ι} {r : TcpConnection × List Effect}
    (h : s.does r = some u) : u.history = s.history ++ r.2.map Event.did ∧
      u.callbacks = s.callbacks ∧ u.loop.phase = s.loop.phase ∧
      (.removeChannel ∉ r.2 → u.removed = s.removed) :=
  performAll_frame h

end ForeignSend
end HydrogenWeb
