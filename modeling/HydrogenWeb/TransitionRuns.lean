import Mathlib

set_option autoImplicit false

/-!
# Runs of a partial transition function

`step s a = none` says that the action `a` has no successor state: it is not
possible in `s`, or it fails there. `Along step P s as` asks `P` of every
action of the run of `as` from `s`, together with what the action led to.
-/
namespace HydrogenWeb.TransitionRuns

variable {σ α : Type*}

/-- The state a list of actions leads to, `none` as soon as one has no successor. -/
def run (step : σ → α → Option σ) : σ → List α → Option σ
  | s, [] => some s
  | s, a :: as => (step s a).bind fun t => run step t as

@[simp] theorem run_nil (step : σ → α → Option σ) (s : σ) : run step s [] = some s := rfl

theorem run_cons (step : σ → α → Option σ) (s : σ) (a : α) (as : List α) :
    run step s (a :: as) = (step s a).bind fun t => run step t as := rfl

theorem run_append (step : σ → α → Option σ) (s : σ) (as bs : List α) :
    run step s (as ++ bs) = (run step s as).bind fun t => run step t bs := by
  induction as generalizing s with
  | nil => rfl
  | cons a as ih =>
    rw [List.cons_append, run_cons, run_cons, Option.bind_assoc]
    congr 1
    funext t
    exact ih t

theorem run_invariant {step : σ → α → Option σ} (I : σ → Prop)
    (keep : ∀ s a t, I s → step s a = some t → I t) {s t : σ} {as : List α}
    (hs : I s) (h : run step s as = some t) : I t := by
  induction as generalizing s with
  | nil =>
    cases h
    exact hs
  | cons a as ih =>
    rw [run_cons, Option.bind_eq_some_iff] at h
    obtain ⟨u, hu, htail⟩ := h
    exact ih (keep s a u hs hu) htail

def Along (step : σ → α → Option σ) (P : σ → α → Option σ → Prop) : σ → List α → Prop
  | _, [] => True
  | s, a :: as => P s a (step s a) ∧ ∀ t, step s a = some t → Along step P t as

theorem along_cons {step : σ → α → Option σ} {P : σ → α → Option σ → Prop} {s : σ} {a : α}
    {as : List α} : Along step P s (a :: as) ↔
      P s a (step s a) ∧ ∀ t, step s a = some t → Along step P t as := Iff.rfl

instance decidableAlong (step : σ → α → Option σ) (P : σ → α → Option σ → Prop)
    [∀ s a o, Decidable (P s a o)] : ∀ (s : σ) (as : List α), Decidable (Along step P s as)
  | _, [] => isTrue trivial
  | s, a :: as =>
    match h : step s a with
    | none => decidable_of_iff (P s a none) (by simp [Along, h])
    | some t =>
      have := decidableAlong step P t as
      decidable_of_iff (P s a (some t) ∧ Along step P t as) (by simp [Along, h])

theorem Along.at_step {step : σ → α → Option σ} {P : σ → α → Option σ → Prop} {s t : σ}
    {l : List α} {a : α} (h : Along step P s (l ++ [a])) (hrun : run step s l = some t) :
    P t a (step t a) := by
  induction l generalizing s with
  | nil =>
    cases hrun
    exact h.1
  | cons b l ih =>
    rw [run_cons, Option.bind_eq_some_iff] at hrun
    obtain ⟨u, hu, htail⟩ := hrun
    exact ih (h.2 u hu) htail

theorem Along.final {step : σ → α → Option σ} {P : σ → α → Option σ → Prop} {s t : σ}
    {l : List α} {a : α} (h : Along step P s (l ++ [a]))
    (hrun : run step s (l ++ [a]) = some t) : ∃ u, P u a (some t) := by
  rw [run_append, Option.bind_eq_some_iff] at hrun
  obtain ⟨u, hu, hlast⟩ := hrun
  rw [run_cons, Option.bind_eq_some_iff] at hlast
  obtain ⟨v, hv, hend⟩ := hlast
  cases hend
  exact ⟨u, hv ▸ h.at_step hu⟩

theorem along_true (step : σ → α → Option σ) (s : σ) (as : List α) :
    Along step (fun _ _ _ => True) s as := by
  induction as generalizing s with
  | nil => trivial
  | cons a as ih => exact ⟨trivial, fun t _ => ih t⟩

theorem Along.run_invariant {step : σ → α → Option σ} {R : σ → α → Option σ → Prop} {s t : σ}
    {as : List α} (hr : Along step R s as) (I : σ → Prop)
    (keep : ∀ s a t, I s → R s a (step s a) → step s a = some t → I t) (hs : I s)
    (h : run step s as = some t) : I t := by
  induction as generalizing s with
  | nil =>
    cases h
    exact hs
  | cons a as ih =>
    obtain ⟨u, hu, htail⟩ := Option.bind_eq_some_iff.1 h
    exact ih (hr.2 u hu) (keep s a u hs hr.1 hu) htail

/-- Two step properties agree along every run that meets `R`, when they agree at every
step from a state of the invariant and a step that meets them keeps the invariant. -/
theorem along_iff {step : σ → α → Option σ} (I : σ → Prop) {R P Q : σ → α → Option σ → Prop}
    (agree : ∀ s a, I s → R s a (step s a) → (P s a (step s a) ↔ Q s a (step s a)))
    (keep : ∀ s a t, I s → R s a (step s a) → Q s a (step s a) → step s a = some t → I t)
    {s : σ} (as : List α) (hs : I s) (hr : Along step R s as) :
    Along step P s as ↔ Along step Q s as := by
  induction as generalizing s with
  | nil => exact Iff.rfl
  | cons a as ih =>
    have here := agree s a hs hr.1
    constructor
    · rintro ⟨hp, tail⟩
      have hq := here.1 hp
      exact ⟨hq, fun t ht => (ih (keep s a t hs hr.1 hq ht) (hr.2 t ht)).1 (tail t ht)⟩
    · rintro ⟨hq, tail⟩
      exact ⟨here.2 hq, fun t ht => (ih (keep s a t hs hr.1 hq ht) (hr.2 t ht)).2 (tail t ht)⟩

theorem along_of_invariant {step : σ → α → Option σ} (I : σ → Prop)
    {R P : σ → α → Option σ → Prop}
    (here : ∀ s a, I s → R s a (step s a) → P s a (step s a))
    (keep : ∀ s a t, I s → R s a (step s a) → step s a = some t → I t)
    {s : σ} (as : List α) (hs : I s) (hr : Along step R s as) : Along step P s as := by
  induction as generalizing s with
  | nil => trivial
  | cons a as ih =>
    exact ⟨here s a hs hr.1, fun t ht => ih (keep s a t hs hr.1 ht) (hr.2 t ht)⟩

section Count
variable (step : σ → α → Option σ) (P : σ → α → Prop) [∀ s a, Decidable (P s a)]

def countAlong : σ → List α → ℕ
  | _, [] => 0
  | s, a :: as => (if P s a then 1 else 0) + ((step s a).map fun t => countAlong t as).getD 0

theorem countAlong_cons {s t : σ} {a : α} (as : List α) (h : step s a = some t) :
    countAlong step P s (a :: as) = (if P s a then 1 else 0) + countAlong step P t as := by
  rw [countAlong, h]
  rfl

/-- A measure that every step of `P` brings down, and no other step up, bounds their number. -/
theorem countAlong_le (I : σ → Prop) {R : σ → α → Option σ → Prop} (μ : σ → ℕ)
    (down : ∀ s a t, I s → R s a (step s a) → step s a = some t →
      (if P s a then 1 else 0) + μ t ≤ μ s)
    (keep : ∀ s a t, I s → R s a (step s a) → step s a = some t → I t)
    {s t : σ} {as : List α} (hs : I s) (hr : Along step R s as) (hrun : run step s as = some t) :
    countAlong step P s as + μ t ≤ μ s := by
  induction as generalizing s with
  | nil =>
    cases hrun
    exact (Nat.zero_add _).le
  | cons a as ih =>
    obtain ⟨u, hu, htail⟩ := Option.bind_eq_some_iff.1 hrun
    have hrest := ih (keep s a u hs hr.1 hu) (hr.2 u hu) htail
    have hfirst := down s a u hs hr.1 hu
    rw [countAlong_cons step P as hu]
    omega

end Count

end HydrogenWeb.TransitionRuns
