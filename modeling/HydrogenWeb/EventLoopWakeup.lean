import HydrogenWeb.EventLoop

set_option autoImplicit false

/-!
# No functor is lost and no wake-up is missed

Between the swap and the next return of poll nobody resets the eventfd, so a push made
after the swap still has its wake-up in the counter, or ahead of it in its thread.
-/
namespace HydrogenWeb.EventLoop
open TransitionRuns

variable {τ φ : Type*}

/-- A wake-up is in the eventfd, or some thread is between its push and its `waken`. -/
def WakeupDue (l : EventLoop τ φ) : Prop :=
  0 < l.wakenCounter ∨ ∃ c, l.point c = .afterPush

/-- From the swap to the return of poll; the eventfd is not read there. -/
def Settled (l : EventLoop τ φ) : Prop := l.phase ≠ .handling ∧ l.phase ≠ .swapping

structure Invariant (l : EventLoop τ φ) : Prop where
  order : l.executed ++ l.functors ++ l.unprocessedFunctors = l.pushed
  batch : l.phase ≠ .running → l.functors = []
  flag : l.processingFunctors = true ↔ l.phase = .swapping ∨ l.phase = .running
  caller : l.point .loop = .afterPush → l.phase = .handling ∨ l.phase = .running
  wakeup : l.Settled → l.unprocessedFunctors ≠ [] → l.WakeupDue

theorem fresh_invariant : Invariant (fresh : EventLoop τ φ) where
  order := rfl
  batch := fun _ => rfl
  flag := by simp [fresh]
  caller := by simp [fresh]
  wakeup := fun _ h => absurd rfl h

variable [DecidableEq τ]

/-- A push is always followed by a due wake-up: its own. -/
theorem push_invariant {l : EventLoop τ φ} (h : Invariant l) (c : Caller τ) (f : φ)
    (henabled : l.enabled (.push c f) = true) : Invariant (l.effect (.push c f)) where
  order := by
    show l.executed ++ l.functors ++ (l.unprocessedFunctors ++ [f]) = l.pushed ++ [f]
    rw [← List.append_assoc, h.order]
  batch := h.batch
  flag := h.flag
  caller := by
    intro hpoint
    by_cases hc : c = .loop
    · subst hc
      simpa [effect, mayCall] using (Bool.and_eq_true_iff.1 henabled).2
    · exact h.caller (by simpa [effect, Function.update_of_ne (Ne.symm hc)] using hpoint)
  wakeup := fun _ _ => Or.inr ⟨c, by simp [effect]⟩

/-- The loop thread skips `waken` only in a handler, and the swap is still ahead there. -/
theorem waken_invariant {l : EventLoop τ φ} (h : Invariant l) (c : Caller τ) :
    Invariant (l.effect (.waken c)) := by
  have hcaller : Function.update l.point c .idle .loop = .afterPush →
      l.phase = .handling ∨ l.phase = .running := by
    intro hpoint
    by_cases hc : c = .loop
    · subst hc
      simp at hpoint
    · exact h.caller (by rwa [Function.update_of_ne (Ne.symm hc)] at hpoint)
  by_cases hwaken : l.mustWaken c (l.point c) = true
  · obtain ⟨n, hn, heq⟩ := waken_spec l
    simp only [effect, hwaken, if_true, heq]
    exact ⟨h.order, h.batch, h.flag, hcaller, fun _ _ => Or.inl hn⟩
  · simp only [effect, hwaken]
    refine ⟨h.order, h.batch, h.flag, hcaller, fun hsettled hne => ?_⟩
    rcases h.wakeup hsettled hne with hcount | ⟨d, hd⟩
    · exact Or.inl hcount
    · refine Or.inr ⟨d, ?_⟩
      have hdc : d ≠ c := by
        rintro rfl
        -- only the loop thread, in a handler, may leave out the wake-up
        have hloop : d = .loop ∧ l.processingFunctors = false := by
          simpa [mustWaken, hd] using hwaken
        obtain ⟨rfl, hflag⟩ := hloop
        rcases h.caller hd with hphase | hphase
        · exact hsettled.1 hphase
        · have := h.flag.2 (Or.inr hphase)
          simp [hflag] at this
      simpa [Function.update_of_ne hdc] using hd

theorem step_invariant {l l' : EventLoop τ φ} {a : Action τ φ} (h : Invariant l)
    (hstep : step l a = some l') : Invariant l' := by
  obtain ⟨henabled, rfl⟩ := step_eq_some hstep
  cases a with
  | push c f => exact push_invariant h c f henabled
  | waken c => exact waken_invariant h c
  | quit c =>
    have hwasnt : ∀ d, Function.update l.point c .afterQuit d = .afterPush →
        l.point d = .afterPush := by
      intro d hd
      by_cases hdc : d = c
      · simp [hdc] at hd
      · rwa [Function.update_of_ne hdc] at hd
    refine ⟨h.order, h.batch, h.flag, fun hpoint => h.caller (hwasnt _ hpoint), ?_⟩
    intro hsettled hne
    rcases h.wakeup hsettled hne with hcount | ⟨d, hd⟩
    · exact Or.inl hcount
    · refine Or.inr ⟨d, ?_⟩
      have hidle : l.point c = .idle := by simpa [enabled] using (Bool.and_eq_true_iff.1 henabled).1
      have hdc : d ≠ c := by
        rintro rfl
        simp [hd] at hidle
      simpa [effect, Function.update_of_ne hdc] using hd
  | enter =>
    obtain ⟨hphase, hpoint⟩ := ready_iff.1 henabled
    have hflag := h.flag
    rw [hphase] at hflag
    exact ⟨h.order, fun _ => h.batch (by simp [hphase]), by simpa [effect] using hflag,
      by simp [effect, hpoint], fun _ => h.wakeup (by simp [Settled, hphase])⟩
  | check =>
    obtain ⟨hphase, hpoint⟩ := ready_iff.1 henabled
    have hflag := h.flag
    rw [hphase] at hflag
    have hbatch := h.batch (by simp [hphase])
    have hwakeup := h.wakeup (by simp [Settled, hphase])
    by_cases hquit : l.quit = true
    · simp only [effect, hquit, if_true]
      exact ⟨h.order, fun _ => hbatch, by simpa using hflag, by simp [hpoint], fun _ => hwakeup⟩
    · simp only [effect, hquit]
      exact ⟨h.order, fun _ => hbatch, by simpa using hflag, by simp [hpoint], fun _ => hwakeup⟩
  | pollReturn =>
    obtain ⟨hphase, hpoint⟩ := ready_iff.1 henabled
    have hflag := h.flag
    rw [hphase] at hflag
    exact ⟨h.order, fun _ => h.batch (by simp [hphase]), by simpa [effect] using hflag,
      by simp [effect, hpoint], fun hsettled => absurd rfl hsettled.1⟩
  | readFd =>
    obtain ⟨hphase, hpoint⟩ := ready_iff.1 henabled
    exact ⟨h.order, h.batch, h.flag, h.caller, fun hsettled => absurd hphase hsettled.1⟩
  | beginFunctors =>
    obtain ⟨hphase, hpoint⟩ := ready_iff.1 henabled
    exact ⟨h.order, fun _ => h.batch (by simp [hphase]), by simp [effect],
      by simp [effect, hpoint], fun hsettled => absurd rfl hsettled.2⟩
  | swap =>
    obtain ⟨hphase, hpoint⟩ := ready_iff.1 henabled
    have hbatch := h.batch (by simp [hphase])
    have horder := h.order
    rw [hbatch, List.append_nil] at horder
    exact ⟨by simpa [effect] using horder, fun hne => absurd rfl hne,
      by simp [effect, h.flag.2 (Or.inl hphase)], by simp [effect], fun _ hne => absurd rfl hne⟩
  | runFunctor =>
    simp only [enabled, Bool.and_eq_true] at henabled
    obtain ⟨hphase, hpoint⟩ := ready_iff.1 henabled.1
    refine ⟨?_, fun hne => absurd hphase hne, h.flag, h.caller, h.wakeup⟩
    show l.executed ++ l.functors.take 1 ++ l.functors.tail ++ l.unprocessedFunctors = l.pushed
    rw [← h.order, List.append_assoc l.executed, ← List.drop_one, List.take_append_drop]
  | endFunctors =>
    simp only [enabled, Bool.and_eq_true, List.isEmpty_iff] at henabled
    obtain ⟨hphase, hpoint⟩ := ready_iff.1 henabled.1
    exact ⟨h.order, fun _ => henabled.2, by simp [effect], by simp [effect, hpoint],
      fun _ => h.wakeup (by simp [Settled, hphase])⟩

/-- In every reachable state the functors executed, the rest of the batch and the queue
are the pushes in their order, and a loop blocked in poll on a nonempty queue has its
wake-up in the eventfd or in a foreign thread between push and `waken`. -/
theorem functors_in_order_and_wakeup_due (as : List (Action τ φ)) (l : EventLoop τ φ)
    (h : run step fresh as = some l) :
    l.executed ++ l.functors ++ l.unprocessedFunctors = l.pushed ∧
      (l.phase = .polling → l.unprocessedFunctors ≠ [] →
        0 < l.wakenCounter ∨ ∃ t, l.point (.foreign t) = .afterPush) := by
  have inv : Invariant l := run_invariant _ (fun _ _ _ hi hs => step_invariant hi hs)
    fresh_invariant h
  refine ⟨inv.order, fun hpolling hne => ?_⟩
  rcases inv.wakeup (by simp [Settled, hpolling]) hne with hcount | ⟨c, hc⟩
  · exact Or.inl hcount
  · cases c with
    | loop => simpa [hpolling] using inv.caller hc
    | foreign t => exact Or.inr ⟨t, hc⟩

def nestedPush : List (Action ℕ ℕ) :=
  [.enter, .check, .push (.foreign 0) 10, .waken (.foreign 0), .pollReturn, .readFd,
    .beginFunctors, .swap, .runFunctor, .push .loop 11, .waken .loop, .push (.foreign 1) 12,
    .endFunctors, .check]

def afterNestedPush : EventLoop ℕ ℕ := (run step fresh nestedPush).get (by decide)

theorem functors_in_order_and_wakeup_due_nestedPush :
    afterNestedPush.phase = .polling ∧ afterNestedPush.unprocessedFunctors = [11, 12] ∧
      afterNestedPush.executed ++ afterNestedPush.functors ++
        afterNestedPush.unprocessedFunctors = afterNestedPush.pushed ∧
      (afterNestedPush.phase = .polling → afterNestedPush.unprocessedFunctors ≠ [] →
        0 < afterNestedPush.wakenCounter ∨
          ∃ t, afterNestedPush.point (.foreign t) = .afterPush) :=
  ⟨by decide, by decide,
    functors_in_order_and_wakeup_due nestedPush afterNestedPush (Option.some_get _).symm⟩

end HydrogenWeb.EventLoop
