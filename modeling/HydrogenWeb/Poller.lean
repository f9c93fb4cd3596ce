import HydrogenWeb.Channel
import HydrogenWeb.SwapRemove

set_option autoImplicit false

/-!
# Poller

Channel pointers are names in `ι`; the objects they point to are the function `chan`.
A call returns what it changes. `none` is an access outside `_fds` or through a null
pointer; the assertions are predicates of their own, since a Release build has none.
-/
namespace HydrogenWeb

structure PollFd where
  fd : ℤ
  events : BitVec 16
  revents : BitVec 16
deriving DecidableEq

structure Poller (ι : Type*) where
  fds : List PollFd
  channels : Std.ExtTreeMap ℤ ι

namespace Poller

variable {ι : Type*}

def fresh : Poller ι := ⟨[], ∅⟩

def UpdateEntry (p : Poller ι) (id : ι) (c : Channel) : Prop :=
  if c.index < 0 then p.channels[c.fd]? = none else p.channels[c.fd]? = some id

/-- A new channel gets the next entry of `_fds`; the entry of a known one is rewritten. -/
def updateChannel (p : Poller ι) (id : ι) (c : Channel) : Option (Poller ι × Channel) :=
  if c.index < 0 then
    let pfd : PollFd := ⟨c.fd, c.events.setWidth 16, 0⟩
    let fds := p.fds ++ [pfd]
    let idx : ℤ := fds.length - 1
    some (⟨fds, p.channels.insert pfd.fd id⟩, c.set_index idx)
  else
    match p.fds[c.index.toNat]? with
    | none => none
    | some pfd =>
      let pfd : PollFd := { pfd with events := c.events.setWidth 16, revents := 0 }
      -- a negative descriptor makes poll ignore the entry
      let pfd := if c.isEmptyEvent then { pfd with fd := -c.fd - 1 } else pfd
      some (⟨p.fds.set c.index.toNat pfd, p.channels⟩, c)

def UpdateAsserts (p : Poller ι) (c : Channel) : Prop :=
  c.index < 0 ∨ (0 ≤ c.index ∧ c.index < p.fds.length ∧
    ∃ pfd ∈ p.fds[c.index.toNat]?, pfd.fd = c.fd ∨ pfd.fd = -c.fd - 1)

def RemoveEntry (p : Poller ι) (id : ι) (c : Channel) : Prop :=
  p.channels[c.fd]? = some id ∧ c.isEmptyEvent = true

def RemoveAsserts (p : Poller ι) (c : Channel) : Prop :=
  0 ≤ c.index ∧ c.index < p.fds.length ∧
    ∃ pfd, p.fds[c.index.toNat]? = some pfd ∧ pfd.fd = -c.fd - 1 ∧
      pfd.events.signExtend 32 = c.events

def iterSwap {α : Type*} (l : List α) (i j : ℕ) : List α :=
  match l[i]?, l[j]? with
  | some a, some b => (l.set i b).set j a
  | _, _ => l

/-- Besides the poller, a removal changes the index of the channel whose entry moves. -/
def removeChannel (p : Poller ι) (c : Channel) : Option (Poller ι × Option (ι × ℤ)) :=
  let idx := c.index
  let channels := p.channels.erase c.fd
  if idx < 0 ∨ (p.fds.length : ℤ) ≤ idx then none
  else if idx.toNat = p.fds.length - 1 then some (⟨p.fds.dropLast, channels⟩, none)
  else
    match p.fds.getLast? with
    | none => none
    | some last =>
      let fds := iterSwap p.fds idx.toNat (p.fds.length - 1)
      let lastFd := if last.fd < 0 then -last.fd - 1 else last.fd
      match channels[lastFd]? with
      | none => none
      | some moved => some (⟨fds.dropLast, channels⟩, some (moved, idx))

/-- What `::poll` writes: the kernel answers each entry, and skips negative descriptors. -/
def answer (p : Poller ι) (revents : ℤ → BitVec 16) : Poller ι :=
  { p with fds := p.fds.map fun pfd =>
      { pfd with revents := if pfd.fd < 0 then 0 else revents pfd.fd } }

/-- The scan of `fillActiveChannels`: it stops when `numEvents` entries are found. -/
def fillFrom (p : Poller ι) (chan : ι → Channel) :
    List PollFd → ℤ → Option (List (ι × BitVec 16))
  | [], _ => some []
  | pfd :: rest, numEvents =>
    if numEvents > 0 then
      if pfd.revents.toInt > 0 then
        match p.channels[pfd.fd]? with
        | none => none
        | some id =>
          if (chan id).fd = pfd.fd then
            (fillFrom p chan rest (numEvents - 1)).map fun active => (id, pfd.revents) :: active
          else none
      else fillFrom p chan rest numEvents
    else some []

def fillActiveChannels (p : Poller ι) (chan : ι → Channel) (numEvents : ℤ) :
    Option (List (ι × BitVec 16)) :=
  p.fillFrom chan p.fds numEvents

/-- An update writes at most the index into the channel, and its name into the map. -/
theorem updateChannel_spec {p q : Poller ι} {id : ι} {c d : Channel}
    (h : p.updateChannel id c = some (q, d)) : (∃ idx, d = c.set_index idx) ∧
      (q.channels = p.channels ∨ q.channels = p.channels.insert c.fd id) := by
  unfold updateChannel at h
  split at h
  · cases h
    exact ⟨⟨_, rfl⟩, Or.inr rfl⟩
  · split at h
    · cases h
    · cases h
      exact ⟨⟨c.index, rfl⟩, Or.inl rfl⟩

theorem removeChannel_channels {p q : Poller ι} {c : Channel}
    {moved : Option (ι × ℤ)} (h : p.removeChannel c = some (q, moved)) :
    q.channels = p.channels.erase c.fd := by
  simp only [removeChannel] at h
  split_ifs at h
  · cases h
    rfl
  · split at h
    · cases h
    · split at h
      · cases h
      · cases h
        rfl

theorem dropLast_iterSwap {α : Type*} {l : List α} {i : ℕ} {x : α} (h : l[i]? = some x) :
    (iterSwap l i (l.length - 1)).dropLast = SwapRemove.swapRemove l i := by
  have hi := (List.getElem?_eq_some_iff.1 h).1
  have hlast : l[l.length - 1]? = l.getLast? := List.getLast?_eq_getElem?.symm
  have hne : l ≠ [] := List.ne_nil_of_length_pos (by omega)
  simp only [iterSwap, h, hlast, SwapRemove.swapRemove, List.getLast?_eq_getLast_of_ne_nil hne]
  apply List.ext_getElem?
  intro j
  simp only [List.getElem?_dropLast, List.length_set, List.getElem?_set]
  split_ifs <;> first | rfl | omega

end Poller
end HydrogenWeb
