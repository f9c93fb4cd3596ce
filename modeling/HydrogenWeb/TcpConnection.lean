import HydrogenWeb.Channel

set_option autoImplicit false

/-!
# TcpConnection

Both buffers are ideal byte queues here. A method returns the connection after it and,
in order, what it did outside of the connection: system calls, `Channel::update`,
callbacks and functors given to the loop. `none` is a failed assertion.
-/
namespace HydrogenWeb

/-- The answer to one `::write`: an error, or a count that the kernel cuts to the offer. -/
inductive WriteResult where
  | error
  | wrote (n : ℕ)
deriving DecidableEq

def WriteResult.value (offered : List UInt8) : WriteResult → ℤ
  | .error => -1
  | .wrote n => min n offered.length

theorem WriteResult.value_le (w : WriteResult) (offered : List UInt8) :
    (w.value offered).toNat ≤ offered.length := by
  cases w <;> simp [WriteResult.value]

/-- A `ssize_t` assigned to a `size_t`. -/
def sizeOfSsize (n : ℤ) : ℕ := (n % 2 ^ 64).toNat

namespace TcpConnection

inductive State where
  | CONNECTING
  | CONNECTED
  | DISCONNECTED
  | DISCONNECTING
deriving DecidableEq

inductive Bound where
  | sendInLoopThread (msg : List UInt8)
  | shutdownInLoopThread
deriving DecidableEq

inductive Effect where
  | write (offered : List UInt8) (n : ℤ)
  | shutdownWrite
  | update
  | removeChannel
  | connCallback
  | msgCallback
  | closeCallback
  | addToLoopThread (f : Bound)
deriving DecidableEq

end TcpConnection

structure TcpConnection where
  connName : String
  state : TcpConnection.State
  channel : Channel
  inputBuffer : List UInt8
  outputBuffer : List UInt8
deriving DecidableEq

namespace TcpConnection

def create (connName : String) (sockfd : ℤ) : TcpConnection :=
  ⟨connName, .CONNECTING, Channel.create sockfd, [], []⟩

def connected (c : TcpConnection) : Bool := c.state = .CONNECTED
def setState (c : TcpConnection) (s : State) : TcpConnection := { c with state := s }

def establishConnection (c : TcpConnection) : Option (TcpConnection × List Effect) :=
  if c.state = .CONNECTING then
    some ({ c with state := .CONNECTED, channel := c.channel.enableReading },
      [.update, .connCallback])
  else none

def destroyConnection (c : TcpConnection) : Option (TcpConnection × List Effect) :=
  if c.state = .CONNECTED ∨ c.state = .DISCONNECTING then
    some ({ c with state := .DISCONNECTED, channel := c.channel.disableAll },
      [.update, .connCallback, .removeChannel])
  else none

def closeHandler (c : TcpConnection) : Option (TcpConnection × List Effect) :=
  if c.state = .CONNECTED ∨ c.state = .DISCONNECTING then
    some ({ c with channel := c.channel.disableAll }, [.update, .closeCallback])
  else none

/-- Logs only. -/
def errorHandler (c : TcpConnection) : TcpConnection × List Effect := (c, [])

def readFd (buffer : List UInt8) : ReadvResult → ℤ × List UInt8
  | .error => (-1, buffer)
  | .delivered data => (data.length, buffer ++ data)

def connectionHandler (c : TcpConnection) (r : ReadvResult) :
    Option (TcpConnection × List Effect) :=
  let (ret, inputBuffer) := readFd c.inputBuffer r
  let c := { c with inputBuffer }
  let n := sizeOfSsize ret
  if n > 0 then some (c, [.msgCallback])
  else if n = 0 then c.closeHandler
  else some c.errorHandler

def shutdownInLoopThread (c : TcpConnection) : TcpConnection × List Effect :=
  if c.channel.isWriting then (c, []) else (c, [.shutdownWrite])

def writeHandler (c : TcpConnection) (w : WriteResult) : TcpConnection × List Effect :=
  if c.channel.isWriting then
    let n := w.value c.outputBuffer
    let wrote := Effect.write c.outputBuffer n
    if n > 0 then
      let c := { c with outputBuffer := c.outputBuffer.drop n.toNat }
      if c.outputBuffer.length = 0 then
        let c := { c with channel := c.channel.disableWriting }
        if c.state = .DISCONNECTING then
          let (c, effects) := c.shutdownInLoopThread
          (c, wrote :: .update :: effects)
        else (c, [wrote, .update])
      else (c, [wrote])
    else (c, [wrote])
  else (c, [])

/-- The second half of `sendInLoopThread`, with `n` bytes of `data` written. -/
def appendRest (c : TcpConnection) (data : List UInt8) (n left : ℕ) :
    TcpConnection × List Effect :=
  if n < data.length then
    let c := { c with outputBuffer := c.outputBuffer ++ (data.drop n).take left }
    if c.channel.isWriting then (c, [])
    else ({ c with channel := c.channel.enableWriting }, [.update])
  else (c, [])

def sendInLoopThread (c : TcpConnection) (data : List UInt8) (w : WriteResult) :
    TcpConnection × List Effect :=
  if c.channel.isWriting = false ∧ c.outputBuffer.length = 0 then
    let n := w.value data
    let (c, effects) :=
      if n ≥ 0 then c.appendRest data n.toNat (data.length - n.toNat)
      else c.appendRest data 0 data.length
    (c, .write data n :: effects)
  else c.appendRest data 0 data.length

def send (c : TcpConnection) (inLoopThread : Bool) (msg : List UInt8) (w : WriteResult) :
    TcpConnection × List Effect :=
  if c.state = .CONNECTED then
    if inLoopThread then c.sendInLoopThread msg w
    else (c, [.addToLoopThread (.sendInLoopThread msg)])
  else (c, [])

def shutdown (c : TcpConnection) (inLoopThread : Bool) : TcpConnection × List Effect :=
  if c.state = .CONNECTED then
    let c := c.setState .DISCONNECTING
    if inLoopThread then c.shutdownInLoopThread
    else (c, [.addToLoopThread .shutdownInLoopThread])
  else (c, [])

end TcpConnection
end HydrogenWeb
