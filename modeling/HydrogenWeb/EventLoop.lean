import HydrogenWeb.TransitionRuns

set_option autoImplicit false

/-!
# EventLoop: the functor queue and the eventfd

Threads other than the loop's own are named by `τ`, functors by `φ`. A step is what one
thread does between two points where another can come in: the push under the mutex and
the wake-up after it are two steps. `executed` and `pushed` record the history.
-/
namespace HydrogenWeb

inductive Caller (τ : Type*) where
  | loop
  | foreign (t : τ)
deriving DecidableEq

inductive CallPoint where
  | idle
  | afterPush
  | afterQuit
deriving DecidableEq

inductive LoopPhase where
  | outside
  | checking
  | polling
  | handling
  | swapping
  | running
deriving DecidableEq

structure EventLoop (τ φ : Type*) where
  looping : Bool
  quit : Bool
  processingFunctors : Bool
  wakenCounter : ℕ
  unprocessedFunctors : List φ
  functors : List φ
  phase : LoopPhase
  point : Caller τ → CallPoint
  executed : List φ
  pushed : List φ

namespace EventLoop

inductive Action (τ φ : Type*) where
  | enter
  | check
  | pollReturn
  | readFd
  | beginFunctors
  | swap
  | runFunctor
  | endFunctors
  | push (c : Caller τ) (f : φ)
  | quit (c : Caller τ)
  | waken (c : Caller τ)

variable {τ φ : Type*}

def fresh : EventLoop τ φ where
  looping := false
  quit := false
  processingFunctors := false
  wakenCounter := 0
  unprocessedFunctors := []
  functors := []
  phase := .outside
  point := fun _ => .idle
  executed := []
  pushed := []

/-- `write` of 1 to a nonblocking eventfd: it fails where the counter would pass its limit. -/
def waken (l : EventLoop τ φ) : EventLoop τ φ :=
  if l.wakenCounter + 1 ≤ 2 ^ 64 - 2 then { l with wakenCounter := l.wakenCounter + 1 } else l

/-- `read` of an eventfd resets it, and fails at zero. -/
def readFd (l : EventLoop τ φ) : EventLoop τ φ := { l with wakenCounter := 0 }

/-- The loop thread pushes only from a handler or a functor that `loop()` runs. -/
def mayCall (l : EventLoop τ φ) : Caller τ → Bool
  | .loop => l.phase = .handling || l.phase = .running
  | .foreign _ => true

/-- The loop thread is at `p`, and no call of its own is under way. -/
def ready (l : EventLoop τ φ) (p : LoopPhase) : Bool := l.phase = p && l.point .loop = .idle

theorem ready_iff {l : EventLoop τ φ} {p : LoopPhase} :
    l.ready p = true ↔ l.phase = p ∧ l.point .loop = .idle := by
  simp [ready]

theorem waken_spec (l : EventLoop τ φ) :
    ∃ n, 0 < n ∧ l.waken = { l with wakenCounter := n } := by
  unfold waken
  split
  · exact ⟨l.wakenCounter + 1, Nat.succ_pos _, rfl⟩
  · exact ⟨l.wakenCounter, by omega, rfl⟩

variable [DecidableEq τ]

/-- The test after the lock of `addToLoopThread` is released, and the one in `quit`. -/
def mustWaken (l : EventLoop τ φ) (c : Caller τ) : CallPoint → Bool
  | .afterPush => c ≠ .loop || l.processingFunctors
  | .afterQuit => c ≠ .loop
  | .idle => false

def enabled (l : EventLoop τ φ) : Action τ φ → Bool
  | .enter => l.ready .outside
  | .check => l.ready .checking
  | .pollReturn => l.ready .polling
  | .readFd | .beginFunctors => l.ready .handling
  | .swap => l.ready .swapping
  | .runFunctor => l.ready .running && !l.functors.isEmpty
  | .endFunctors => l.ready .running && l.functors.isEmpty
  | .push c _ | .quit c => l.point c = .idle && l.mayCall c
  | .waken c => l.point c ≠ .idle

def effect (l : EventLoop τ φ) : Action τ φ → EventLoop τ φ
  | .enter => { l with looping := true, quit := false, phase := .checking }
  | .check =>
    if l.quit then { l with looping := false, phase := .outside } else { l with phase := .polling }
  -- an event or the timeout of 10 s ends the poll; handlers may read the eventfd or not
  | .pollReturn => { l with phase := .handling }
  | .readFd => l.readFd
  | .beginFunctors => { l with processingFunctors := true, phase := .swapping }
  | .swap =>
    { l with functors := l.unprocessedFunctors, unprocessedFunctors := [], phase := .running }
  | .runFunctor =>
    { l with functors := l.functors.tail, executed := l.executed ++ l.functors.take 1 }
  | .endFunctors => { l with processingFunctors := false, phase := .checking }
  | .push c f =>
    { l with unprocessedFunctors := l.unprocessedFunctors ++ [f], pushed := l.pushed ++ [f]
             point := Function.update l.point c .afterPush }
  | .quit c => { l with quit := true, point := Function.update l.point c .afterQuit }
  | .waken c =>
    let l' := if l.mustWaken c (l.point c) then l.waken else l
    { l' with point := Function.update l.point c .idle }

def step (l : EventLoop τ φ) (a : Action τ φ) : Option (EventLoop τ φ) :=
  if l.enabled a then some (l.effect a) else none

theorem step_eq_some {l l' : EventLoop τ φ} {a : Action τ φ} (h : step l a = some l') :
    l.enabled a = true ∧ l' = l.effect a := by
  unfold step at h
  split at h
  · rename_i henabled
    exact ⟨henabled, (Option.some.inj h).symm⟩
  · cases h

end EventLoop
end HydrogenWeb
