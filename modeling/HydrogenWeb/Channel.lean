import HydrogenWeb.HyBuffer

set_option autoImplicit false

/-!
# Channel

The masks are the bits of `poll.h`. The methods that change `_events` end with
`update()`; the caller of the model runs `Poller::updateChannel` at that point.
-/
namespace HydrogenWeb

def POLLIN : BitVec 32 := 0x001
def POLLPRI : BitVec 32 := 0x002
def POLLOUT : BitVec 32 := 0x004
def POLLERR : BitVec 32 := 0x008
def POLLHUP : BitVec 32 := 0x010
def POLLNVAL : BitVec 32 := 0x020
def POLLRDHUP : BitVec 32 := 0x2000

structure Channel where
  fd : ℤ
  events : BitVec 32
  revents : BitVec 32
  index : ℤ
deriving DecidableEq

inductive Callback where
  | close
  | error
  | read
  | write
deriving DecidableEq

namespace Channel

def EMPTYEVENT : BitVec 32 := 0
def READEVENT : BitVec 32 := POLLIN ||| POLLPRI
def WRITEEVENT : BitVec 32 := POLLOUT

def create (fd : ℤ) : Channel := ⟨fd, 0, 0, -1⟩

def isEmptyEvent (c : Channel) : Bool := c.events = EMPTYEVENT
def isWriting (c : Channel) : Bool := c.events &&& WRITEEVENT ≠ 0
def set_revents (c : Channel) (revents : BitVec 32) : Channel := { c with revents }
def set_index (c : Channel) (index : ℤ) : Channel := { c with index }

def enableReading (c : Channel) : Channel := { c with events := c.events ||| READEVENT }
def enableWriting (c : Channel) : Channel := { c with events := c.events ||| WRITEEVENT }
def disableWriting (c : Channel) : Channel := { c with events := c.events &&& ~~~WRITEEVENT }
def disableAll (c : Channel) : Channel := { c with events := EMPTYEVENT }

def handleEvent (c : Channel) : List Callback :=
  (if c.revents &&& POLLHUP ≠ 0 ∧ c.revents &&& POLLIN = 0 then [.close] else []) ++
  (if c.revents &&& (POLLERR ||| POLLNVAL) ≠ 0 then [.error] else []) ++
  (if c.revents &&& (POLLIN ||| POLLPRI ||| POLLRDHUP) ≠ 0 then [.read] else []) ++
  (if c.revents &&& POLLOUT ≠ 0 then [.write] else [])

/-- The event sets that the four methods can build from the empty one. -/
def KnownEvents (events : BitVec 32) : Prop :=
  events = EMPTYEVENT ∨ events = READEVENT ∨ events = WRITEEVENT ∨ events = READEVENT ||| WRITEEVENT

instance (events : BitVec 32) : Decidable (KnownEvents events) :=
  inferInstanceAs (Decidable (_ ∨ _))

structure Alike (c d : Channel) : Prop where
  fd_eq : c.fd = d.fd
  events_eq : c.events = d.events
  index_eq : c.index = d.index

theorem Alike.refl (c : Channel) : Alike c c := ⟨rfl, rfl, rfl⟩

theorem Alike.isEmptyEvent_eq {c d : Channel} (h : Alike c d) :
    c.isEmptyEvent = d.isEmptyEvent := by
  rw [isEmptyEvent, isEmptyEvent, h.events_eq]

theorem enableReading_known {c : Channel} (h : KnownEvents c.events) :
    KnownEvents c.enableReading.events := by
  show KnownEvents (c.events ||| READEVENT)
  rcases h with h | h | h | h <;> rw [h] <;> decide

theorem enableWriting_known {c : Channel} (h : KnownEvents c.events) :
    KnownEvents c.enableWriting.events := by
  show KnownEvents (c.events ||| WRITEEVENT)
  rcases h with h | h | h | h <;> rw [h] <;> decide

theorem disableWriting_known {c : Channel} (h : KnownEvents c.events) :
    KnownEvents c.disableWriting.events := by
  show KnownEvents (c.events &&& ~~~WRITEEVENT)
  rcases h with h | h | h | h <;> rw [h] <;> decide

theorem disableAll_known (c : Channel) : KnownEvents c.disableAll.events := Or.inl rfl

@[simp] theorem set_index_isEmptyEvent (c : Channel) (index : ℤ) :
    (c.set_index index).isEmptyEvent = c.isEmptyEvent := rfl

@[simp] theorem create_isWriting (fd : ℤ) : (create fd).isWriting = false := by
  simp [isWriting, create]

@[simp] theorem enableReading_isWriting (c : Channel) :
    c.enableReading.isWriting = c.isWriting := by
  have h : (c.events ||| READEVENT) &&& WRITEEVENT = c.events &&& WRITEEVENT := by
    have hdisjoint : READEVENT &&& WRITEEVENT = 0 := by decide
    ext i hi
    have hbit := congrArg (fun e : BitVec 32 => e[i]) hdisjoint
    simp only [BitVec.getElem_and, BitVec.getElem_or] at hbit ⊢
    rw [Bool.and_or_distrib_right, hbit]
    simp
  simp [isWriting, enableReading, h]

@[simp] theorem enableWriting_isWriting (c : Channel) : c.enableWriting.isWriting = true := by
  have h : (c.events ||| WRITEEVENT) &&& WRITEEVENT = WRITEEVENT := by
    ext i hi
    simp only [BitVec.getElem_and, BitVec.getElem_or]
    cases WRITEEVENT[i] <;> simp
  simp only [isWriting, enableWriting, h]
  decide

@[simp] theorem disableWriting_isWriting (c : Channel) : c.disableWriting.isWriting = false := by
  have h : (c.events &&& ~~~WRITEEVENT) &&& WRITEEVENT = 0 := by
    ext i hi
    simp only [BitVec.getElem_and, BitVec.getElem_not]
    cases WRITEEVENT[i] <;> simp
  simp [isWriting, disableWriting, h]

@[simp] theorem disableAll_isWriting (c : Channel) : c.disableAll.isWriting = false := by
  simp [isWriting, disableAll, EMPTYEVENT]

end Channel
end HydrogenWeb
