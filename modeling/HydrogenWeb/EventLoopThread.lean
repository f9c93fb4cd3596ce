import HydrogenWeb.EventLoop

set_option autoImplicit false

/-!
# EventLoopThread: starting a loop and asking it to quit

`start()` runs in one thread and `startEventLoop()` in the new one. The entry of `loop()`
is taken apart: `_looping` is set, then `_quit` is reset, and only then the loop iterates.
-/
namespace HydrogenWeb
open TransitionRuns

inductive ThreadPoint where
  | absent
  | constructing
  | publishing
  | atLooping
  | atQuit
  | inside
  | returned
deriving DecidableEq

inductive StartPoint where
  | before
  | waiting
  | returned
deriving DecidableEq

structure EventLoopThread (τ φ : Type*) where
  /-- `_loop` is set. -/
  published : Bool
  started : Bool
  start : StartPoint
  thread : ThreadPoint
  loop : EventLoop τ φ
  /-- Some call of `quit()` has stored. -/
  quitStored : Bool

namespace EventLoopThread

variable {τ φ : Type*}

/-- `iterate` is what the loop or a caller does once the loop exists. -/
inductive Action (τ φ : Type*) where
  | spawn
  | returnLoop
  | construct
  | publish
  | setLooping
  | resetQuit
  | iterate (a : EventLoop.Action τ φ)
  | leave

def create : EventLoopThread τ φ := ⟨false, false, .before, .absent, .fresh, false⟩

variable [DecidableEq τ]

/-- Other threads get the pointer from `start()`; the loop thread acts inside `loop()`,
which it enters once. -/
def mayIterate (s : EventLoopThread τ φ) : EventLoop.Action τ φ → Bool
  | .enter => false
  | .push (.foreign _) _ | .quit (.foreign _) | .waken (.foreign _) => s.start = .returned
  | _ => s.thread = .inside

def isQuit : EventLoop.Action τ φ → Bool
  | .quit _ => true
  | _ => false

def enabled (s : EventLoopThread τ φ) : Action τ φ → Bool
  | .spawn => s.start = .before && !s.started
  | .returnLoop => s.start = .waiting && s.published
  | .construct => s.thread = .constructing
  | .publish => s.thread = .publishing
  | .setLooping => s.thread = .atLooping && !s.loop.looping
  | .resetQuit => s.thread = .atQuit
  | .iterate a => s.mayIterate a && s.loop.enabled a
  | .leave => s.thread = .inside && s.loop.ready .outside

def effect (s : EventLoopThread τ φ) : Action τ φ → EventLoopThread τ φ
  | .spawn => { s with start := .waiting, thread := .constructing }
  | .returnLoop => { s with start := .returned }
  | .construct => { s with thread := .publishing, loop := .fresh }
  | .publish => { s with thread := .atLooping, published := true }
  | .setLooping => { s with thread := .atQuit, loop := { s.loop with looping := true } }
  | .resetQuit =>
    { s with thread := .inside, loop := { s.loop with quit := false, phase := .checking } }
  | .iterate a => { s with loop := s.loop.effect a, quitStored := s.quitStored || isQuit a }
  | .leave => { s with thread := .returned }

def step (s : EventLoopThread τ φ) (a : Action τ φ) : Option (EventLoopThread τ φ) :=
  if s.enabled a then some (s.effect a) else none

def Initialised (s : EventLoopThread τ φ) : Prop := s.thread = .inside ∨ s.thread = .returned

/-- The loop knows of every `quit()` that has stored. -/
def QuitSeen (s : EventLoopThread τ φ) : Prop :=
  s.quitStored = true → s.Initialised → s.loop.quit = true

instance (s : EventLoopThread τ φ) : Decidable s.QuitSeen :=
  inferInstanceAs (Decidable (_ → (_ ∨ _) → _))

/-- No `quit()` has stored when `loop()` resets `_quit`. -/
def NotBeforeReset (s : EventLoopThread τ φ) : Action τ φ → Prop
  | .resetQuit => s.quitStored = false
  | _ => True

/-- Inside `loop()` nothing takes a quit request back. -/
theorem quit_kept {l : EventLoop τ φ} {a : EventLoop.Action τ φ} (ha : a ≠ .enter)
    (h : l.quit = true ∨ isQuit a = true) : (l.effect a).quit = true := by
  cases a with
  | enter => exact absurd rfl ha
  | quit c => rfl
  | check =>
    have hquit : l.quit = true := h.resolve_right (by simp [isQuit])
    simp [EventLoop.effect, hquit]
  | waken c =>
    have hquit : l.quit = true := h.resolve_right (by simp [isQuit])
    obtain ⟨n, -, hwaken⟩ := l.waken_spec
    simp only [EventLoop.effect, hwaken]
    split
    · exact hquit
    · exact hquit
  | _ => exact h.resolve_right (by simp [isQuit])

theorem effect_quitSeen_iff {s : EventLoopThread τ φ} (h : s.QuitSeen) {a : Action τ φ}
    (henabled : s.enabled a = true) : (s.effect a).QuitSeen ↔ s.NotBeforeReset a := by
  cases a with
  | resetQuit =>
    constructor
    · intro hseen
      by_contra hstored
      have := hseen (by simpa [effect, NotBeforeReset] using hstored) (Or.inl rfl)
      cases this
    · intro hbefore hstored
      exact absurd hbefore (by simpa [effect, NotBeforeReset] using hstored)
  | iterate a =>
    apply iff_of_true _ trivial
    intro hstored hinit
    have hne : a ≠ .enter := by
      rintro rfl
      simp [enabled, mayIterate] at henabled
    apply quit_kept hne
    rcases Bool.or_eq_true_iff.1 hstored with hold | hquit
    · exact Or.inl (h hold hinit)
    · exact Or.inr hquit
  | leave =>
    have hinside : s.Initialised := by
      simp only [enabled, Bool.and_eq_true, decide_eq_true_eq] at henabled
      exact Or.inl henabled.1
    exact iff_of_true (fun hstored _ => h hstored hinside) trivial
  | returnLoop => exact iff_of_true h trivial
  | _ =>
    -- the thread is still before the initialisation
    apply iff_of_true _ trivial
    rintro - (hpoint | hpoint)
    · cases hpoint
    · cases hpoint

/-- In every state reached the loop knows of every `quit()` that has stored, exactly if no
`quit()` stores before `loop()` resets `_quit`. -/
theorem quitSeen_iff_notBeforeReset (as : List (Action τ φ)) :
    Along step (fun _ _ o => ∀ u ∈ o, QuitSeen u) create as ↔
      Along step (fun s a o => o.isSome → s.NotBeforeReset a) create as := by
  refine along_iff QuitSeen ?_ ?_ as (fun hstored => (nomatch hstored)) (along_true _ _ _)
  · intro s a h _
    rw [step]
    split
    · rename_i henabled
      simpa using effect_quitSeen_iff h henabled
    · simp
  · intro s a u h _ hbefore hstep
    rw [hstep] at hbefore
    rw [step] at hstep
    split at hstep
    · rename_i henabled
      cases hstep
      exact (effect_quitSeen_iff h henabled).2 (hbefore rfl)
    · cases hstep

/-- The thread that started the loop quits it between the publication and the reset, and
the loop goes on to poll. -/
theorem quit_before_reset_not_quitSeen :
    ¬ Along step (fun _ _ o => ∀ u ∈ o, QuitSeen u) (create : EventLoopThread Unit Unit)
      [.spawn, .construct, .publish, .returnLoop, .iterate (.quit (.foreign ())), .setLooping,
        .resetQuit, .iterate .check] := by
  intro h
  have hreset := ((((((h.2 _ rfl).2 _ rfl).2 _ rfl).2 _ rfl).2 _ rfl).2 _ rfl).1
  exact absurd (hreset _ rfl rfl (Or.inl rfl)) (by decide)

end EventLoopThread
end HydrogenWeb
