import HydrogenWeb.SharedBuf

set_option autoImplicit false

/-!
# Sem: who is asleep

`Sem.wait` and `Sem.post` say what a call does to the count once it has the lock. Here the
threads inside `wait` are kept apart: those asleep on the condition variable, and those a
notification or a spurious wakeup has taken off it, which have the count to check again
before they leave or sleep. A step is what a thread does between taking the lock and giving
it back, or a wakeup.
-/
namespace HydrogenWeb
open TransitionRuns

/-- `posts` and `waits` count the calls that are over. -/
structure SemThreads (τ : Type*) where
  sem : Sem
  asleep : Finset τ
  woken : Finset τ
  posts : ℕ
  waits : ℕ

namespace SemThreads

variable {τ : Type*}

inductive Action (τ : Type*) where
  | wait (t : τ)
  /-- A woken thread has the lock again and tests the loop's condition. -/
  | recheck (t : τ)
  /-- `w` is the thread that `notify_one` unblocks, `none` where nobody sleeps. -/
  | post (t : τ) (w : Option τ)
  | spurious (t : τ)

def create (n : ℤ) : SemThreads τ := ⟨⟨n⟩, ∅, ∅, 0, 0⟩

variable [DecidableEq τ]

def Outside (s : SemThreads τ) (t : τ) : Prop := t ∉ s.asleep ∧ t ∉ s.woken

instance (s : SemThreads τ) (t : τ) : Decidable (s.Outside t) :=
  inferInstanceAs (Decidable (t ∉ s.asleep ∧ t ∉ s.woken))

def test (s : SemThreads τ) (t : τ) : SemThreads τ :=
  match s.sem.wait with
  | some sem => { s with sem, waits := s.waits + 1 }
  | none => { s with asleep := insert t s.asleep }

def notifyOne (s : SemThreads τ) : Option τ → Option (SemThreads τ)
  | some w =>
    if w ∈ s.asleep then
      some { s with asleep := s.asleep.erase w, woken := insert w s.woken }
    else none
  | none => if s.asleep = ∅ then some s else none

/-- `_count` is an `int`: behind its last value `_count++` is undefined, and the call fails. -/
def step (s : SemThreads τ) : Action τ → Option (SemThreads τ)
  | .wait t => if s.Outside t then some (s.test t) else none
  | .recheck t =>
    if t ∈ s.woken then some ({ s with woken := s.woken.erase t }.test t) else none
  | .post t w =>
    if s.Outside t ∧ s.sem.count + 1 < 2 ^ 31 then
      { s with sem := s.sem.post, posts := s.posts + 1 }.notifyOne w
    else none
  | .spurious t =>
    if t ∈ s.asleep then
      some { s with asleep := s.asleep.erase t, woken := insert t s.woken }
    else none

/-- `notify_one` unblocks a thread that is asleep, whenever there is one. -/
def Notifies (s : SemThreads τ) : Option τ → Prop
  | some w => w ∈ s.asleep
  | none => s.asleep = ∅

/-- The schedule can have the action: its thread is where the action starts. -/
def Possible (s : SemThreads τ) : Action τ → Prop
  | .wait t => s.Outside t
  | .recheck t => t ∈ s.woken
  | .post t w => s.Outside t ∧ s.Notifies w
  | .spurious t => t ∈ s.asleep

/-- A `post` does not find the count at the last value of an `int`. -/
def Fits (s : SemThreads τ) : Action τ → Prop
  | .post _ _ => s.sem.count + 1 < 2 ^ 31
  | _ => True

structure Invariant (n : ℤ) (s : SemThreads τ) : Prop where
  nonneg : 0 ≤ s.sem.count
  total : s.sem.count = n + s.posts - s.waits
  apart : Disjoint s.asleep s.woken
  pending : s.asleep.Nonempty → s.sem.count ≤ s.woken.card

/-- No wakeup is lost: the sleepers wait for nothing that nobody is on the way to take. -/
structure NoLostWakeup (n : ℤ) (s : SemThreads τ) : Prop where
  nonneg : 0 ≤ s.sem.count
  total : s.sem.count = n + s.posts - s.waits
  pending : s.asleep.Nonempty → s.sem.count ≤ s.woken.card
  awake : 0 < s.sem.count → s.asleep.Nonempty → s.woken.Nonempty

omit [DecidableEq τ] in
theorem Invariant.noLostWakeup {n : ℤ} {s : SemThreads τ} (h : Invariant n s) :
    NoLostWakeup n s where
  nonneg := h.nonneg
  total := h.total
  pending := h.pending
  awake hpos hasleep := by
    have hle := h.pending hasleep
    rw [← Finset.card_pos]
    omega

omit [DecidableEq τ] in
theorem create_invariant {n : ℤ} (hn : 0 ≤ n) : Invariant n (create n : SemThreads τ) where
  nonneg := hn
  total := by simp [create]
  apart := Finset.disjoint_empty_left _
  pending h := absurd h Finset.not_nonempty_empty

/-- A thread in the loop gets through or falls asleep, and nothing else changes. -/
theorem test_cases (s : SemThreads τ) (t : τ) :
    (s.sem.count ≠ 0 ∧
      s.test t = { s with sem := ⟨s.sem.count - 1⟩, waits := s.waits + 1 }) ∨
    (s.sem.count = 0 ∧ s.test t = { s with asleep := insert t s.asleep }) := by
  by_cases hzero : s.sem.count = 0
  · right
    exact ⟨hzero, by simp [test, Sem.wait, hzero]⟩
  · left
    exact ⟨hzero, by simp [test, Sem.wait, hzero]⟩

/-- The test may run with one woken thread fewer than the invariant counts: the thread
that tests takes one off the count, or finds it zero. -/
theorem test_invariant {n : ℤ} {s : SemThreads τ} {t : τ} (hnonneg : 0 ≤ s.sem.count)
    (htotal : s.sem.count = n + s.posts - s.waits) (hapart : Disjoint s.asleep s.woken)
    (ht : t ∉ s.woken) (hpending : s.asleep.Nonempty → s.sem.count ≤ s.woken.card + 1) :
    Invariant n (s.test t) := by
  obtain ⟨hcount, htest⟩ | ⟨hcount, htest⟩ := s.test_cases t
  · rw [htest]
    refine ⟨?_, ?_, hapart, ?_⟩
    · change 0 ≤ s.sem.count - 1
      omega
    · change s.sem.count - 1 = n + s.posts - ((s.waits + 1 : ℕ) : ℤ)
      omega
    · intro hasleep
      change s.sem.count - 1 ≤ s.woken.card
      have hle := hpending hasleep
      omega
  · rw [htest]
    refine ⟨hnonneg, htotal, ?_, ?_⟩
    · exact Finset.disjoint_insert_left.2 ⟨ht, hapart⟩
    · intro _
      change s.sem.count ≤ s.woken.card
      omega

theorem wait_invariant {n : ℤ} {s u : SemThreads τ} (h : Invariant n s) {t : τ}
    (hstep : s.step (.wait t) = some u) : Invariant n u := by
  rw [step, Option.ite_none_right_eq_some] at hstep
  obtain ⟨houtside, hu⟩ := hstep
  cases hu
  apply test_invariant h.nonneg h.total h.apart houtside.2
  intro hasleep
  have hle := h.pending hasleep
  omega

theorem recheck_invariant {n : ℤ} {s u : SemThreads τ} (h : Invariant n s) {t : τ}
    (hstep : s.step (.recheck t) = some u) : Invariant n u := by
  rw [step, Option.ite_none_right_eq_some] at hstep
  obtain ⟨hwoken, hu⟩ := hstep
  cases hu
  have hcard := Finset.card_erase_add_one hwoken
  apply test_invariant (s := { s with woken := s.woken.erase t }) h.nonneg h.total
  · exact h.apart.mono_right (Finset.erase_subset t s.woken)
  · exact Finset.notMem_erase t s.woken
  · intro hasleep
    have hle := h.pending hasleep
    change s.sem.count ≤ (s.woken.erase t).card + 1
    omega

/-- Taking a thread off the condition variable makes the woken ones one more. -/
theorem wake_apart {asleep woken : Finset τ} {t : τ} (h : Disjoint asleep woken) (ht : t ∈ asleep) :
    Disjoint (asleep.erase t) (insert t woken) ∧ (insert t woken).card = woken.card + 1 := by
  constructor
  · rw [Finset.disjoint_insert_right]
    exact ⟨Finset.notMem_erase t asleep, h.mono_left (Finset.erase_subset t asleep)⟩
  · exact Finset.card_insert_of_notMem (Finset.disjoint_left.1 h ht)

theorem post_invariant {n : ℤ} {s u : SemThreads τ} (h : Invariant n s) {t : τ} {w : Option τ}
    (hstep : s.step (.post t w) = some u) : Invariant n u := by
  have hnonneg := h.nonneg
  have htotal := h.total
  rw [step, Option.ite_none_right_eq_some] at hstep
  obtain ⟨-, hnotify⟩ := hstep
  have hcount : 0 ≤ s.sem.count + 1 := by omega
  have hposts : s.sem.count + 1 = n + ((s.posts + 1 : ℕ) : ℤ) - s.waits := by omega
  cases w with
  | none =>
    rw [notifyOne, Option.ite_none_right_eq_some] at hnotify
    obtain ⟨hempty, hu⟩ := hnotify
    cases hu
    refine ⟨hcount, hposts, h.apart, ?_⟩
    intro hasleep
    exact absurd hempty hasleep.ne_empty
  | some w =>
    rw [notifyOne, Option.ite_none_right_eq_some] at hnotify
    obtain ⟨hw, hu⟩ := hnotify
    cases hu
    obtain ⟨hapart, hcard⟩ := wake_apart h.apart hw
    refine ⟨hcount, hposts, hapart, ?_⟩
    intro _
    -- the thread just woken was asleep, so the invariant bounded the count before
    have hle := h.pending ⟨w, hw⟩
    change s.sem.count + 1 ≤ (insert w s.woken).card
    omega

theorem spurious_invariant {n : ℤ} {s u : SemThreads τ} (h : Invariant n s) {t : τ}
    (hstep : s.step (.spurious t) = some u) : Invariant n u := by
  rw [step, Option.ite_none_right_eq_some] at hstep
  obtain ⟨ht, hu⟩ := hstep
  cases hu
  obtain ⟨hapart, hcard⟩ := wake_apart h.apart ht
  refine ⟨h.nonneg, h.total, hapart, ?_⟩
  intro _
  have hle := h.pending ⟨t, ht⟩
  change s.sem.count ≤ (insert t s.woken).card
  omega

theorem step_invariant {n : ℤ} {s u : SemThreads τ} (h : Invariant n s) {a : Action τ}
    (hstep : s.step a = some u) : Invariant n u := by
  cases a with
  | wait t => exact wait_invariant h hstep
  | recheck t => exact recheck_invariant h hstep
  | post t w => exact post_invariant h hstep
  | spurious t => exact spurious_invariant h hstep

theorem notifyOne_some {s : SemThreads τ} {w : Option τ} (h : s.Notifies w) :
    ∃ u, s.notifyOne w = some u := by
  cases w with
  | none => exact ⟨s, if_pos h⟩
  | some w => exact ⟨_, if_pos h⟩

/-- Only the overflow of the count keeps a possible action from being done. -/
theorem step_some_iff_fits {s : SemThreads τ} {a : Action τ} (h : s.Possible a) :
    (∃ u, s.step a = some u) ↔ s.Fits a := by
  cases a with
  | wait t => exact iff_of_true ⟨_, if_pos h⟩ trivial
  | recheck t => exact iff_of_true ⟨_, if_pos h⟩ trivial
  | spurious t => exact iff_of_true ⟨_, if_pos h⟩ trivial
  | post t w =>
    obtain ⟨houtside, hnotifies⟩ := h
    constructor
    · rintro ⟨u, hu⟩
      rw [step, Option.ite_none_right_eq_some] at hu
      exact hu.1.2
    · intro hfits
      rw [step, if_pos ⟨houtside, hfits⟩]
      exact notifyOne_some hnotifies

/-- The action is done, and what it leads to has lost no wakeup. -/
def KeepsWakeups (n : ℤ) (_ : SemThreads τ) (_ : Action τ) (o : Option (SemThreads τ)) : Prop :=
  ∃ u, o = some u ∧ NoLostWakeup n u

def PossibleAt (s : SemThreads τ) (a : Action τ) (_ : Option (SemThreads τ)) : Prop := s.Possible a

def FitsAt (s : SemThreads τ) (a : Action τ) (_ : Option (SemThreads τ)) : Prop := s.Fits a

instance (s : SemThreads τ) : ∀ w : Option τ, Decidable (s.Notifies w)
  | some w => inferInstanceAs (Decidable (w ∈ s.asleep))
  | none => inferInstanceAs (Decidable (s.asleep = ∅))

instance (s : SemThreads τ) : ∀ a : Action τ, Decidable (s.Possible a)
  | .wait t => inferInstanceAs (Decidable (s.Outside t))
  | .recheck t => inferInstanceAs (Decidable (t ∈ s.woken))
  | .post t w => inferInstanceAs (Decidable (s.Outside t ∧ s.Notifies w))
  | .spurious t => inferInstanceAs (Decidable (t ∈ s.asleep))

instance (s : SemThreads τ) : ∀ a : Action τ, Decidable (s.Fits a)
  | .post _ _ => inferInstanceAs (Decidable (_ < _))
  | .wait _ | .recheck _ | .spurious _ => isTrue trivial

instance (s : SemThreads τ) (a : Action τ) (o : Option (SemThreads τ)) :
    Decidable (PossibleAt s a o) := inferInstanceAs (Decidable (s.Possible a))

instance (s : SemThreads τ) (a : Action τ) (o : Option (SemThreads τ)) :
    Decidable (FitsAt s a o) := inferInstanceAs (Decidable (s.Fits a))

/-- Whatever the threads do and whomever the notifications reach, no wakeup is lost as long as
the count stays an `int`, and no longer. -/
theorem keepsWakeups_iff_fits {n : ℤ} (hn : 0 ≤ n) (as : List (Action τ))
    (hpossible : Along step PossibleAt (create n) as) :
    (NoLostWakeup n (create n : SemThreads τ) ∧ Along step (KeepsWakeups n) (create n) as) ↔
      Along step FitsAt (create n) as := by
  have hstart : Invariant n (create n : SemThreads τ) := create_invariant hn
  rw [and_iff_right hstart.noLostWakeup]
  apply along_iff (Invariant n) _ _ as hstart hpossible
  · intro s a h hs
    rw [FitsAt, ← step_some_iff_fits hs]
    constructor
    · rintro ⟨u, hu, -⟩
      exact ⟨u, hu⟩
    · rintro ⟨u, hu⟩
      exact ⟨u, hu, (step_invariant h hu).noLostWakeup⟩
  · intro s a u h _ _ hu
    exact step_invariant h hu

/-- Two threads sleep, a post wakes one of them, and a newcomer takes the count first. -/
theorem keepsWakeups_of_barging :
    NoLostWakeup 0 (create 0 : SemThreads ℕ) ∧ Along step (KeepsWakeups 0) (create 0 : SemThreads ℕ)
      [.wait 0, .wait 1, .post 2 (some 1), .wait 3, .recheck 1] :=
  (keepsWakeups_iff_fits le_rfl [.wait 0, .wait 1, .post 2 (some 1), .wait 3, .recheck 1]
    (by decide)).2 (by decide)

/-- The first post on a semaphore that starts with the last value of an `int`. -/
theorem full_count_not_keepsWakeups :
    Along step PossibleAt (create (2 ^ 31 - 1) : SemThreads Unit) [.post () none] ∧
      ¬ Along step (KeepsWakeups (2 ^ 31 - 1)) (create (2 ^ 31 - 1) : SemThreads Unit)
        [.post () none] := by
  have hpossible : Possible (create (2 ^ 31 - 1) : SemThreads Unit) (.post () none) := by decide
  have hfull : ¬ Fits (create (2 ^ 31 - 1) : SemThreads Unit) (.post () none) := by decide
  refine ⟨⟨hpossible, fun u _ => trivial⟩, ?_⟩
  rintro ⟨⟨u, hu, -⟩, -⟩
  exact hfull ((step_some_iff_fits hpossible).1 ⟨u, hu⟩)

end SemThreads
end HydrogenWeb
