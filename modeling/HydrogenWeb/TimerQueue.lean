import HydrogenWeb.TransitionRuns

set_option autoImplicit false

/-!
# TimerQueue

A Timestamp is its count of microseconds: every comparison of the source rounds to them.
A step of the loop thread reads the clock at most once. `resets` records the calls of
`resetTimerfd` with the `now` each one read, `ran` the callbacks.
-/
namespace HydrogenWeb

structure Timer (φ : Type*) where
  addr : ℕ
  cb : φ
  endTime : ℤ
  /-- The microseconds that `operator+` adds for `_interval`, after it has cut off the rest: at
  least one for a timer that repeats. -/
  interval : ℤ
deriving DecidableEq

def Timer.isRepeat {φ : Type*} (t : Timer φ) : Bool := 0 < t.interval

def Timer.restart {φ : Type*} (t : Timer φ) (now : ℤ) : Timer φ :=
  if t.isRepeat then { t with endTime := now + t.interval } else t

abbrev TimerEntry (φ : Type*) := ℤ × Timer φ

/-- The order of `std::set`: by time, then by the address of the timer. -/
def TimerEntry.before {φ : Type*} (a b : TimerEntry φ) : Prop :=
  a.1 < b.1 ∨ (a.1 = b.1 ∧ a.2.addr < b.2.addr)

instance {φ : Type*} (a b : TimerEntry φ) : Decidable (a.before b) :=
  inferInstanceAs (Decidable (_ ∨ _))

/-- A `timerHandler` under way: the time it read, what has expired and what is still to run. -/
structure Expiration (φ : Type*) where
  now : ℤ
  expired : List (TimerEntry φ)
  todo : List (TimerEntry φ)

structure TimerQueue (φ : Type*) where
  timers : List (TimerEntry φ)
  /-- The time the descriptor is armed for. -/
  timerfd : Option ℤ
  handler : Option (Expiration φ)
  clock : ℤ
  resets : List (ℤ × ℤ)
  ran : List (TimerEntry φ)

namespace TimerQueue

variable {φ : Type*}

def microSecsPerSecond : ℤ := 1000000

def fresh (clock : ℤ) : TimerQueue φ := ⟨[], none, none, clock, [], []⟩

/-- `timerfd_settime` of a relative time: zero disarms, a negative part is an error. -/
def settime (old : Option ℤ) (now sec nsec : ℤ) : Option ℤ :=
  if sec < 0 ∨ nsec < 0 ∨ 1000000000 ≤ nsec then old
  else if sec = 0 ∧ nsec = 0 then none
  else some (now + sec * microSecsPerSecond + nsec / 1000)

def resetTimerfd (q : TimerQueue φ) (expiration now : ℤ) : TimerQueue φ :=
  let microSecs := expiration - now
  let sec := microSecs.tdiv microSecsPerSecond
  let nsec := microSecs.tmod microSecsPerSecond * 1000
  { q with timerfd := settime q.timerfd now sec nsec, resets := q.resets ++ [(expiration, now)] }

def isFirst (timers : List (TimerEntry φ)) (t : Timer φ) : Bool :=
  match timers with
  | [] => true
  | head :: _ => t.endTime < head.1

def insert (timers : List (TimerEntry φ)) (t : Timer φ) : List (TimerEntry φ) :=
  timers.orderedInsert TimerEntry.before (t.endTime, t)

def addTimerInLoopThread (q : TimerQueue φ) (t : Timer φ) (now : ℤ) : TimerQueue φ :=
  let q' := { q with timers := insert q.timers t }
  if isFirst q.timers t then q'.resetTimerfd t.endTime now else q'

/-- The loop of `reset`: repeating timers go back with the end time after `now`. -/
def reinsert (timers expired : List (TimerEntry φ)) (now : ℤ) : List (TimerEntry φ) :=
  expired.foldl (fun ts e => if e.2.isRepeat then insert ts (e.2.restart now) else ts) timers

def reset (q : TimerQueue φ) (expired : List (TimerEntry φ)) (start now : ℤ) : TimerQueue φ :=
  let q' := { q with timers := reinsert q.timers expired start }
  match q'.timers with
  | [] => q'
  | head :: _ => q'.resetTimerfd head.2.endTime now

/-- `enter` is `timerHandler` up to the callbacks. The descriptor runs on a clock of its
own: `fired` says whether it had run out when it was read. -/
inductive Action (φ : Type*) where
  | addTimer (t : Timer φ) (now : ℤ)
  | enter (now : ℤ) (fired : Bool)
  | runCallback
  | leave (now : ℤ)

def addresses (q : TimerQueue φ) : List ℕ :=
  (q.timers ++ q.handler.elim [] Expiration.expired).map fun e => e.2.addr

def enabled (q : TimerQueue φ) : Action φ → Bool
  | .addTimer t now => q.clock ≤ now && t.addr ∉ q.addresses
  | .enter now fired => q.clock ≤ now && q.handler.isNone && (!fired || q.timerfd.isSome)
  | .runCallback => q.handler.any fun h => !h.todo.isEmpty
  | .leave now => q.clock ≤ now && q.handler.any fun h => h.todo.isEmpty

def effect (q : TimerQueue φ) : Action φ → TimerQueue φ
  | .addTimer t now => { q with clock := now }.addTimerInLoopThread t now
  | .enter now fired =>
    let expiration := q.timers.takeWhile fun e => e.1 ≤ now
    { q with clock := now
             timerfd := if fired then none else q.timerfd
             timers := q.timers.dropWhile fun e => e.1 ≤ now
             handler := some ⟨now, expiration, expiration⟩ }
  | .runCallback =>
    match q.handler with
    | none => q
    | some h =>
      { q with handler := some { h with todo := h.todo.tail }, ran := q.ran ++ h.todo.take 1 }
  | .leave now =>
    match q.handler with
    | none => q
    | some h => { q with clock := now, handler := none }.reset h.expired h.now now

def step (q : TimerQueue φ) (a : Action φ) : Option (TimerQueue φ) :=
  if q.enabled a then some (q.effect a) else none

theorem settime_of_pos {old : Option ℤ} {now sec micros : ℤ} (hsec : 0 ≤ sec)
    (hmicros : 0 ≤ micros) (hlt : micros < microSecsPerSecond)
    (hpos : 0 < microSecsPerSecond * sec + micros) :
    settime old now sec (micros * 1000) = some (now + (microSecsPerSecond * sec + micros)) := by
  have hunit : microSecsPerSecond = 1000000 := rfl
  have hsome : ¬ (sec = 0 ∧ micros * 1000 = 0) := by
    rintro ⟨rfl, hzero⟩
    omega
  rw [settime, if_neg (by omega), if_neg hsome, Int.mul_ediv_cancel _ (by decide)]
  congr 1
  ring

/-- A call with a later expiration arms the descriptor for exactly that time. -/
theorem resetTimerfd_onTime {q : TimerQueue φ} {expiration now : ℤ} (h : now < expiration) :
    (q.resetTimerfd expiration now).timerfd = some expiration := by
  have hsum := Int.mul_tdiv_add_tmod (expiration - now) microSecsPerSecond
  have hsec : 0 ≤ (expiration - now).tdiv microSecsPerSecond :=
    Int.tdiv_nonneg (by omega) (by decide)
  have hmicros : 0 ≤ (expiration - now).tmod microSecsPerSecond :=
    Int.tmod_nonneg _ (by omega)
  have hlt : (expiration - now).tmod microSecsPerSecond < microSecsPerSecond :=
    Int.tmod_lt_of_pos _ (by decide)
  rw [resetTimerfd, settime_of_pos hsec hmicros hlt (by omega), hsum]
  exact congrArg some (by omega)

@[simp] theorem resetTimerfd_resets (q : TimerQueue φ) (expiration now : ℤ) :
    (q.resetTimerfd expiration now).resets = q.resets ++ [(expiration, now)] := rfl

end TimerQueue
end HydrogenWeb
