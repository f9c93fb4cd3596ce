import HydrogenWeb.EchoServer
import HydrogenWeb.SharedBuf

set_option autoImplicit false

/-!
# The prethreaded echo server

`main` puts what `Accept` returns into the buffer, and every worker, named by `ω`, takes a
descriptor from it, echoes and closes it. A step is one of `SharedBuf`, one system call of `main`,
or one half of a round of `echo`.
-/
namespace HydrogenWeb.Echo
open Riob Rio

inductive Work where
  | taking
  | reading (connfd : ℤ) (usrbuf : UserBuf) (riob : Riob)
  | writing (connfd : ℤ) (usrbuf : UserBuf) (n : ℕ) (riob : Riob)
  | closing (connfd : ℤ)

/-- `connfd` is what `main` holds between `Accept` and `insert`, and `table` the numbers of the
connections behind the open descriptors. -/
structure EchoServert (ω : Type) where
  buf : SharedBuf (Option ω)
  connfd : Option ℤ
  work : ω → Work
  byteCnt : ℕ
  accepted : List ℤ
  table : ℤ → Option ℕ
  output : ℕ → Receiver
  closed : List ℕ

namespace EchoServert

variable {ω : Type}

/-- `array` is what the `buf` of `echo` holds in the beginning. -/
inductive Action (ω : Type) where
  | accept (connfd : ℤ)
  | insert
  | push
  | postItem
  | remove (w : ω)
  | pop (w : ω)
  | postSlot (w : ω) (array : UserBuf)
  | read (w : ω)
  | write (w : ω)
  | close (w : ω)

/-- `SharedBuf buf(n)`; what the clients can receive is `output`. -/
def create (n : ℤ) (output : ℕ → Receiver) : EchoServert ω where
  buf := SharedBuf.create n
  connfd := none
  work := fun _ => .taking
  byteCnt := 0
  accepted := []
  table := fun _ => none
  output := output
  closed := []

def inputOf (s : EchoServert ω) (input : ℕ → Descriptor) (connfd : ℤ) : Descriptor :=
  (s.table connfd).elim ⟨[], []⟩ input

/-- A number that is not open fails with `EBADF`. -/
def readLine (s : EchoServert ω) (connfd : ℤ) (riob : Riob) : Option (ℤ × List UInt8 × Riob) :=
  if s.table connfd = none then some (-1, [], riob) else riob.readlineb MAXLINE

/-- The descriptors that `writen` changed. -/
def writeLine (s : EchoServert ω) (connfd : ℤ) (usrbuf : UserBuf) (n : ℕ) :
    Option (ℕ → Receiver) :=
  match s.table connfd with
  | none => some s.output
  | some i => (writen (s.output i) usrbuf n).map fun r => Function.update s.output i r.2

/-- Below zero `Accept` failed; otherwise the kernel returns a number that is not open. -/
def accept (s : EchoServert ω) (connfd : ℤ) : Option (EchoServert ω) :=
  if s.connfd = none ∧ s.buf.point none = .idle ∧ s.table connfd = none then
    some { s with
      connfd := some connfd, accepted := s.accepted ++ [connfd]
      table := if 0 ≤ connfd then Function.update s.table connfd (some s.accepted.length)
        else s.table }
  else none

variable [DecidableEq ω]

def setWork (s : EchoServert ω) (w : ω) (work : Work) : EchoServert ω :=
  { s with work := Function.update s.work w work }

/-- `readlineb`, the test of the loop and what it does under the mutex. -/
def read (s : EchoServert ω) (w : ω) : Option (EchoServert ω) :=
  match s.work w with
  | .reading connfd usrbuf riob => do
    let (ret, data, riob) ← s.readLine connfd riob
    let n := sizeOfSsize ret
    if n = 0 then some (s.setWork w (.closing connfd))
    else do
      let usrbuf ← fill usrbuf (if ret = -1 then data else data ++ [0])
      some { s.setWork w (.writing connfd usrbuf n riob) with byteCnt := (s.byteCnt + n) % 2 ^ 64 }
  | _ => none

def write (s : EchoServert ω) (w : ω) : Option (EchoServert ω) :=
  match s.work w with
  | .writing connfd usrbuf n riob =>
    (s.writeLine connfd usrbuf n).map fun output =>
      { s.setWork w (.reading connfd usrbuf riob) with output }
  | _ => none

def close (s : EchoServert ω) (w : ω) : Option (EchoServert ω) :=
  match s.work w with
  | .closing connfd =>
    some { s.setWork w .taking with
      table := Function.update s.table connfd none
      closed := s.closed ++ (s.table connfd).toList }
  | _ => none

def step (input : ℕ → Descriptor) (s : EchoServert ω) : Action ω → Option (EchoServert ω)
  | .accept connfd => s.accept connfd
  | .insert =>
    s.connfd.bind fun connfd =>
      (s.buf.step (.insert none connfd)).map fun buf => { s with buf, connfd := none }
  | .push => (s.buf.step (.push none)).map fun buf => { s with buf }
  | .postItem => (s.buf.step (.postItem none)).map fun buf => { s with buf }
  | .remove w =>
    match s.work w with
    | .taking => (s.buf.step (.remove (some w))).map fun buf => { s with buf }
    | _ => none
  | .pop w => (s.buf.step (.pop (some w))).map fun buf => { s with buf }
  | .postSlot w array =>
    match s.buf.point (some w) with
    | .popped connfd =>
      if array.bytes.length = MAXLINE then
        (s.buf.step (.postSlot (some w))).map fun buf =>
          { s.setWork w (.reading connfd array (Riob.create (s.inputOf input connfd))) with buf }
      else none
    | _ => none
  | .read w => s.read w
  | .write w => s.write w
  | .close w => s.close w

end EchoServert
end HydrogenWeb.Echo
