import HydrogenWeb.TransitionRuns

set_option autoImplicit false

/-!
# The life of one connection

The marks of a connection are read by an automaton; a history that it accepts has every
mark of a life at most once, except the events, and in the order of the stages.
-/
namespace HydrogenWeb.Lifecycle
open TransitionRuns

inductive Stage where
  | unborn
  | accepted
  | established
  | closed
  | destroyed
  | removed
deriving DecidableEq

inductive Mark where
  | accept
  | establish
  | event
  | close
  | destroy
  | remove
deriving DecidableEq

def next : Stage → Mark → Option Stage
  | .unborn, .accept => some .accepted
  | .accepted, .establish => some .established
  | .established, .event => some .established
  | .established, .close => some .closed
  | .closed, .destroy => some .destroyed
  | .destroyed, .remove => some .removed
  | _, _ => none

/-- What has happened to a connection at a stage, with its number of events. -/
def history (events : ℕ) : Stage → List Mark
  | .unborn => []
  | .accepted => [.accept]
  | .established => [.accept, .establish] ++ List.replicate events .event
  | .closed => [.accept, .establish] ++ List.replicate events .event ++ [.close]
  | .destroyed => [.accept, .establish] ++ List.replicate events .event ++ [.close, .destroy]
  | .removed =>
    [.accept, .establish] ++ List.replicate events .event ++ [.close, .destroy, .remove]

def Reaches (marks : List Mark) (s : Stage) : Prop := run next .unborn marks = some s

variable {marks : List Mark} {s t : Stage} {m : Mark}

theorem reaches_snoc : Reaches (marks ++ [m]) t ↔ ∃ s, Reaches marks s ∧ next s m = some t := by
  simp [Reaches, run_append, Option.bind_eq_some_iff, run_cons]

theorem history_of_reaches (h : Reaches marks s) : ∃ events, marks = history events s := by
  induction marks using List.reverseRecOn generalizing s with
  | nil =>
    cases h
    exact ⟨0, rfl⟩
  | append_singleton marks m ih =>
    obtain ⟨r, hr, hnext⟩ := reaches_snoc.1 h
    obtain ⟨events, rfl⟩ := ih hr
    cases r <;> cases m <;> cases hnext
    · exact ⟨0, rfl⟩
    · exact ⟨0, rfl⟩
    · refine ⟨events + 1, ?_⟩
      simp [history, List.replicate_succ']
    all_goals exact ⟨events, by simp [history]⟩

theorem count_establish (h : Reaches marks s) :
    marks.count .establish = if s = .unborn ∨ s = .accepted then 0 else 1 := by
  obtain ⟨events, rfl⟩ := history_of_reaches h
  cases s <;> simp [history, List.count_replicate]

theorem count_close (h : Reaches marks s) :
    marks.count .close = if s = .closed ∨ s = .destroyed ∨ s = .removed then 1 else 0 := by
  obtain ⟨events, rfl⟩ := history_of_reaches h
  cases s <;> simp [history, List.count_replicate]

theorem count_destroy (h : Reaches marks s) :
    marks.count .destroy = if s = .destroyed ∨ s = .removed then 1 else 0 := by
  obtain ⟨events, rfl⟩ := history_of_reaches h
  cases s <;> simp [history, List.count_replicate]

theorem accept_mem (h : Reaches marks s) : .accept ∈ marks ↔ s ≠ .unborn := by
  obtain ⟨events, rfl⟩ := history_of_reaches h
  cases s <;> simp [history]

theorem close_mem (h : Reaches marks s) :
    .close ∈ marks ↔ s = .closed ∨ s = .destroyed ∨ s = .removed := by
  obtain ⟨events, rfl⟩ := history_of_reaches h
  cases s <;> simp [history]

theorem reaches_before {pre post : List Mark} (h : Reaches (pre ++ m :: post) s) :
    ∃ r, Reaches pre r ∧ (next r m).isSome = true := by
  rw [Reaches, run_append, Option.bind_eq_some_iff] at h
  obtain ⟨r, hr, htail⟩ := h
  rw [run_cons, Option.bind_eq_some_iff] at htail
  obtain ⟨u, hu, -⟩ := htail
  exact ⟨r, hr, by rw [hu]; rfl⟩

theorem establish_before_event {pre post : List Mark} (h : Reaches (pre ++ .event :: post) s) :
    .establish ∈ pre := by
  obtain ⟨r, hr, hnext⟩ := reaches_before h
  obtain ⟨events, rfl⟩ := history_of_reaches hr
  cases r <;> simp [next, history] at hnext ⊢

theorem close_before_destroy {pre post : List Mark} (h : Reaches (pre ++ .destroy :: post) s) :
    .close ∈ pre := by
  obtain ⟨r, hr, hnext⟩ := reaches_before h
  obtain ⟨events, rfl⟩ := history_of_reaches hr
  cases r <;> simp [next, history] at hnext ⊢

end HydrogenWeb.Lifecycle
