import HydrogenWeb.Lifecycle
import HydrogenWeb.Poller
import HydrogenWeb.TcpConnection

set_option autoImplicit false

/-!
# TcpServer on one event loop

The server, its acceptor, its connections and the loop that owns them all. A connection
is named by the value of `_newConnId` at its accept. A step is one pass through the body
of a loop: a return of `poll`, an event handler, a functor. What the kernel answers and
what the callbacks of the user call comes with the action; `none` is a failed assertion.
The marks in `log` record the history.
-/
namespace HydrogenWeb
open TransitionRuns Lifecycle

inductive ChannelId where
  | timer
  | waken
  | acceptor
  | conn (id : ℕ)
deriving DecidableEq

namespace TcpServer

/-- What `_unprocessedFunctors` holds; a functor of the user has no connection bound into it. -/
inductive Functor where
  | establishConnection (id : ℕ)
  | destroyConnection (id : ℕ)
  | user
deriving DecidableEq

/-- Where the loop is, with the rest of `_activeChannels` or of the swapped functors. -/
inductive Phase where
  | created
  | polling
  | handling (active : List ChannelId)
  | functors (batch : List Functor)
deriving DecidableEq

inductive UserCall where
  | send (id : ℕ) (msg : List UInt8) (w : WriteResult)
  | shutdown (id : ℕ)
  | clear (id : ℕ) (len : ℕ)
  | run
  | addToLoopThread

structure Answers where
  accepted : ℤ
  readv : ReadvResult
  write : WriteResult
  user : List UserCall

inductive Action where
  | construct
  | poll (revents : ℤ → BitVec 16) (numEvents : ℤ)
  | handleEvent (answers : Answers)
  | processFunctors
  | functor (user : List UserCall)
  | endFunctors
  | addToLoopThread
  | call (u : UserCall)

end TcpServer

structure TcpServer where
  serverName : String
  listening : Bool
  newConnId : ℕ
  connections : Std.ExtTreeMap String ℕ
  conn : ℕ → TcpConnection
  timerChannel : Channel
  wakenChannel : Channel
  acceptorChannel : Channel
  poller : Poller ChannelId
  unprocessedFunctors : List TcpServer.Functor
  phase : TcpServer.Phase
  log : List (ℕ × Mark)

namespace TcpServer
open Poller

instance (p : Poller ChannelId) (a : ChannelId) (c : Channel) : Decidable (UpdateEntry p a c) := by
  unfold UpdateEntry
  infer_instance

instance (p : Poller ChannelId) (c : Channel) : Decidable (UpdateAsserts p c) := by
  unfold UpdateAsserts
  infer_instance

instance (p : Poller ChannelId) (a : ChannelId) (c : Channel) : Decidable (RemoveEntry p a c) := by
  unfold RemoveEntry
  infer_instance

instance (p : Poller ChannelId) (c : Channel) : Decidable (RemoveAsserts p c) :=
  decidable_of_iff (0 ≤ c.index ∧ c.index < p.fds.length ∧ ∃ pfd ∈ p.fds[c.index.toNat]?,
    pfd.fd = -c.fd - 1 ∧ pfd.events.signExtend 32 = c.events) Iff.rfl

def chan (s : TcpServer) : ChannelId → Channel
  | .timer => s.timerChannel
  | .waken => s.wakenChannel
  | .acceptor => s.acceptorChannel
  | .conn id => (s.conn id).channel

def setConn (s : TcpServer) (id : ℕ) (c : TcpConnection) : TcpServer :=
  { s with conn := Function.update s.conn id c }

def setChannel (s : TcpServer) : ChannelId → Channel → TcpServer
  | .timer, c => { s with timerChannel := c }
  | .waken, c => { s with wakenChannel := c }
  | .acceptor, c => { s with acceptorChannel := c }
  | .conn id, c => s.setConn id { s.conn id with channel := c }

def mark (s : TcpServer) (id : ℕ) (m : Mark) : TcpServer := { s with log := s.log ++ [(id, m)] }

def trace (s : TcpServer) (id : ℕ) : List Mark :=
  (s.log.filter fun entry => entry.1 = id).map Prod.snd

def updateChannel (s : TcpServer) (a : ChannelId) : Option TcpServer :=
  if UpdateEntry s.poller a (s.chan a) ∧ UpdateAsserts s.poller (s.chan a) then
    (s.poller.updateChannel a (s.chan a)).map fun (poller, c) => { s.setChannel a c with poller }
  else none

/-- The index that a removal stores into the channel whose entry it moves. -/
def storeIndex (s : TcpServer) : Option (ChannelId × ℤ) → TcpServer
  | none => s
  | some (a, idx) => s.setChannel a ((s.chan a).set_index idx)

def removeChannel (s : TcpServer) (a : ChannelId) : Option TcpServer :=
  if RemoveEntry s.poller a (s.chan a) ∧ RemoveAsserts s.poller (s.chan a) then
    (s.poller.removeChannel (s.chan a)).map fun (poller, moved) =>
      { s.storeIndex moved with poller }
  else none

/-- `EventLoop::addToLoopThread`; the wake-up has no effect on the server. -/
def addToLoopThread (s : TcpServer) (f : Functor) : TcpServer :=
  { s with unprocessedFunctors := s.unprocessedFunctors ++ [f] }

/-- `removeConnection`, which is called in the loop's thread. -/
def removeConnectionInLoopThread (s : TcpServer) (id : ℕ) : Option TcpServer :=
  let name := (s.conn id).connName
  -- assert(n == 1)
  if name ∈ s.connections then
    some ({ s with connections := s.connections.erase name }.addToLoopThread
      (.destroyConnection id))
  else none

def effect (user : TcpServer → Option TcpServer) (id : ℕ) (s : TcpServer) :
    TcpConnection.Effect → Option TcpServer
  | .update => s.updateChannel (.conn id)
  | .removeChannel => (s.mark id .remove).removeChannel (.conn id)
  -- the last thing that `closeHandler` does
  | .closeCallback => (s.mark id .close).removeConnectionInLoopThread id
  | .connCallback => user s
  | .msgCallback => user s
  | .write _ _ => some s
  | .shutdownWrite => some s
  -- not in the loop's thread
  | .addToLoopThread _ => some s

def perform (user : TcpServer → Option TcpServer) (id : ℕ) (s : TcpServer)
    (r : TcpConnection × List TcpConnection.Effect) : Option TcpServer :=
  run (effect user id) (s.setConn id r.1) r.2

def listen (s : TcpServer) : Option TcpServer :=
  { s with listening := true, acceptorChannel := s.acceptorChannel.enableReading }.updateChannel
    .acceptor

/-- `send(HyBuffer*)` is `send` of what the buffer has and then `clear`. -/
def userCall (s : TcpServer) : UserCall → Option TcpServer
  | .send id msg w => perform some id s ((s.conn id).send true msg w)
  | .shutdown id => perform some id s ((s.conn id).shutdown true)
  | .clear id len =>
    some (s.setConn id
      { s.conn id with inputBuffer := (s.conn id).inputBuffer.drop len })
  | .run => if s.listening then some s else s.listen
  | .addToLoopThread => some (s.addToLoopThread .user)

def userCalls (user : List UserCall) (s : TcpServer) : Option TcpServer := run userCall s user

/-- `snprintf` of `"#%d"` with the 32-bit `_newConnId`. -/
def connId (newConnId : ℕ) : String := "#" ++ toString (BitVec.ofNat 32 newConnId).toInt

def newConnectionHandler (s : TcpServer) (connfd : ℤ) : TcpServer :=
  let id := s.newConnId
  let connName := s.serverName ++ connId id
  let s := { s.setConn id (TcpConnection.create connName connfd) with
    newConnId := id + 1, connections := s.connections.insert connName id }
  (s.mark id .accept).addToLoopThread (.establishConnection id)

def incomingHandler (s : TcpServer) (connfd : ℤ) : TcpServer :=
  if connfd ≥ 0 then s.newConnectionHandler connfd else s

/-- The callbacks as the constructors set them; the others are empty. -/
def callback (answers : Answers) (a : ChannelId) (s : TcpServer) (cb : Callback) :
    Option TcpServer :=
  let user := userCalls answers.user
  match a, cb with
  -- the timers that are due run the user's code
  | .timer, .read => user s
  | .waken, .read => some s
  | .acceptor, .read => some (s.incomingHandler answers.accepted)
  | .conn id, .close => (s.conn id).closeHandler.bind (perform user id s)
  | .conn id, .error => perform user id s (s.conn id).errorHandler
  | .conn id, .read => ((s.conn id).connectionHandler answers.readv).bind (perform user id s)
  | .conn id, .write => perform user id s ((s.conn id).writeHandler answers.write)
  | _, _ => some s

def handleEvent (answers : Answers) (s : TcpServer) (a : ChannelId) : Option TcpServer :=
  let s := match a with
    | .conn id => s.mark id .event
    | _ => s
  run (callback answers a) s (s.chan a).handleEvent

def runFunctor (user : List UserCall) (s : TcpServer) : Functor → Option TcpServer
  | .establishConnection id =>
    (s.conn id).establishConnection.bind (perform (userCalls user) id (s.mark id .establish))
  | .destroyConnection id =>
    (s.conn id).destroyConnection.bind (perform (userCalls user) id (s.mark id .destroy))
  | .user => userCalls user s

/-- The channels of the loop are registered by its constructor, the timer's first. -/
def construct (s : TcpServer) : Option TcpServer :=
  ({ s with timerChannel := s.timerChannel.enableReading }.updateChannel .timer).bind fun s =>
    { s with wakenChannel := s.wakenChannel.enableReading }.updateChannel .waken

def storeRevents (s : TcpServer) (active : List (ChannelId × BitVec 16)) : TcpServer :=
  active.foldl
    (fun s (a, revents) => s.setChannel a ((s.chan a).set_revents (revents.signExtend 32))) s

def poll (s : TcpServer) (revents : ℤ → BitVec 16) (numEvents : ℤ) : Option TcpServer :=
  let poller := s.poller.answer revents
  (poller.fillActiveChannels s.chan numEvents).map fun active =>
    { s.storeRevents active with poller, phase := .handling (active.map Prod.fst) }

def step (s : TcpServer) : Action → Option TcpServer
  | .construct => { s with phase := .polling }.construct
  | .poll revents numEvents => s.poll revents numEvents
  | .handleEvent answers =>
    match s.phase with
    | .handling (a :: active) => handleEvent answers { s with phase := .handling active } a
    | _ => none
  | .processFunctors =>
    some { s with phase := .functors s.unprocessedFunctors, unprocessedFunctors := [] }
  | .functor user =>
    match s.phase with
    | .functors (f :: batch) => runFunctor user { s with phase := .functors batch } f
    | _ => none
  | .endFunctors => some { s with phase := .polling }
  | .addToLoopThread => some (s.addToLoopThread .user)
  | .call u => s.userCall u

/-- The members as their constructors leave them, with no channel registered yet. -/
def start (serverName : String) (timerfd wakenfd listenfd : ℤ) : TcpServer where
  serverName := serverName
  listening := false
  newConnId := 0
  connections := ∅
  conn := fun _ => TcpConnection.create "" (-1)
  timerChannel := Channel.create timerfd
  wakenChannel := Channel.create wakenfd
  acceptorChannel := Channel.create listenfd
  poller := Poller.fresh
  unprocessedFunctors := []
  phase := .created
  log := []

end TcpServer
end HydrogenWeb
