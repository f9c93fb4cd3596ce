import Mathlib

set_option autoImplicit false

/-!
# Counting threads by where they are

`phase` says where each thread is, over any type of threads. A step moves one thread, so
the number of threads at the places `p` changes by one at most.
-/
namespace HydrogenWeb.ThreadCensus

variable {τ π : Type*}

/-- Exactly `n` threads are at a place that satisfies `p`. -/
structure Census (phase : τ → π) (p : π → Prop) (n : ℕ) : Prop where
  finite : {t | p (phase t)}.Finite
  card : {t | p (phase t)}.ncard = n

namespace Census

variable {phase : τ → π} {p q : π → Prop} {n m : ℕ} {t : τ} {x : π}

theorem zero (h : ∀ t, ¬ p (phase t)) : Census phase p 0 := by
  have hempty : {t | p (phase t)} = ∅ := Set.eq_empty_of_forall_notMem h
  exact ⟨hempty ▸ Set.finite_empty, hempty ▸ Set.ncard_empty τ⟩

theorem pos (h : Census phase p n) (ht : p (phase t)) : 0 < n := by
  rw [← h.card, Set.ncard_pos h.finite]
  exact ⟨t, ht⟩

theorem le (hpq : ∀ x, p x → q x) (hp : Census phase p n) (hq : Census phase q m) : n ≤ m := by
  rw [← hp.card, ← hq.card]
  exact Set.ncard_le_ncard (fun t => hpq (phase t)) hq.finite

variable [DecidableEq τ]

theorem stay (h : Census phase p n) (hsame : p x ↔ p (phase t)) :
    Census (Function.update phase t x) p n := by
  have heq : {s | p (Function.update phase t x s)} = {s | p (phase s)} := by
    ext s
    by_cases hs : s = t
    · simp [hs, hsame]
    · simp [hs]
  exact ⟨heq ▸ h.finite, heq ▸ h.card⟩

theorem enter (h : Census phase p n) (hold : ¬ p (phase t)) (hnew : p x) :
    Census (Function.update phase t x) p (n + 1) := by
  have heq : {s | p (Function.update phase t x s)} = insert t {s | p (phase s)} := by
    ext s
    by_cases hs : s = t
    · simp [hs, hnew]
    · simp [hs]
  constructor
  · rw [heq]
    exact h.finite.insert t
  · have hnot : t ∉ {s | p (phase s)} := hold
    rw [heq, Set.ncard_insert_of_notMem hnot h.finite, h.card]

theorem leave (h : Census phase p (n + 1)) (hold : p (phase t)) (hnew : ¬ p x) :
    Census (Function.update phase t x) p n := by
  have heq : {s | p (Function.update phase t x s)} = {s | p (phase s)} \ {t} := by
    ext s
    by_cases hs : s = t
    · simp [hs, hnew]
    · simp [hs]
  constructor
  · rw [heq]
    exact h.finite.sdiff
  · have hcard := Set.ncard_sdiff_singleton_of_mem (s := {s | p (phase s)}) hold
    have htotal := h.card
    rw [heq]
    omega

end Census
end HydrogenWeb.ThreadCensus
