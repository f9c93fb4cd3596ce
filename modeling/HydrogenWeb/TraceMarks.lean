import Mathlib

set_option autoImplicit false

/-!
# Marks in a trace

`AtMark x P Q h` says that wherever the event `x` stands in the trace `h`, what comes
before it satisfies `P` and what comes after it satisfies `Q`.
-/
namespace HydrogenWeb.TraceMarks

variable {ε : Type*}

def AtMark (x : ε) (P Q : List ε → Prop) (h : List ε) : Prop :=
  ∀ pre post, h = pre ++ x :: post → P pre ∧ Q post

variable {x : ε} {P Q : List ε → Prop} {h es : List ε}

theorem atMark_of_not_mem (hx : x ∉ h) : AtMark x P Q h := by
  rintro pre post rfl
  exact absurd (by simp) hx

theorem atMark_nil : AtMark x P Q [] := atMark_of_not_mem List.not_mem_nil

/-- Events other than the mark only have to keep what holds after it. -/
theorem AtMark.append (hmark : AtMark x P Q h) (hx : x ∉ es)
    (keep : x ∈ h → ∀ post, Q post → Q (post ++ es)) : AtMark x P Q (h ++ es) := by
  intro pre post heq
  rcases List.append_eq_append_iff.1 heq with ⟨mid, rfl, hes⟩ | ⟨mid, rfl, hpost⟩
  · exact absurd (by simp [hes]) hx
  · cases mid with
    | nil =>
      rw [List.nil_append] at hpost
      exact absurd (by simp [← hpost]) hx
    | cons y mid =>
      rw [List.cons_append, List.cons.injEq] at hpost
      obtain ⟨rfl, rfl⟩ := hpost
      obtain ⟨hpre, hmid⟩ := hmark pre mid rfl
      exact ⟨hpre, keep (by simp) mid hmid⟩

/-- The first mark needs what comes before it, and starts what comes after it. -/
theorem atMark_snoc (hx : x ∉ h) (hpre : P h) (hpost : Q []) : AtMark x P Q (h ++ [x]) := by
  intro pre post heq
  rcases List.eq_nil_or_concat post with rfl | ⟨mid, y, rfl⟩
  · obtain ⟨rfl, -⟩ := List.append_inj' heq rfl
    exact ⟨hpre, hpost⟩
  · rw [List.concat_eq_append, ← List.cons_append, ← List.append_assoc] at heq
    obtain ⟨rfl, -⟩ := List.append_inj' heq rfl
    exact absurd (by simp) hx

def NoneAfter (x : ε) (p : ε → Prop) (h : List ε) : Prop :=
  ∀ pre post, h = pre ++ x :: post → ∀ e ∈ post, ¬ p e

variable {p : ε → Prop}

theorem noneAfter_of_not_mem (hx : x ∉ h) : NoneAfter x p h := by
  rintro pre post rfl
  exact absurd (by simp) hx

theorem noneAfter_append : NoneAfter x p (h ++ es) ↔
    NoneAfter x p h ∧ NoneAfter x p es ∧ (x ∈ h → ∀ e ∈ es, ¬ p e) := by
  constructor
  · intro hall
    refine ⟨?_, ?_, ?_⟩
    · rintro pre post rfl e he
      exact hall pre (post ++ es) (by simp) e (by simp [he])
    · rintro pre post rfl e he
      exact hall (h ++ pre) post (by simp) e he
    · intro hx e he
      obtain ⟨pre, post, rfl⟩ := List.append_of_mem hx
      exact hall pre (post ++ es) (by simp) e (by simp [he])
  · rintro ⟨hh, hes, hcross⟩ pre post heq e he
    rcases List.append_eq_append_iff.1 heq with ⟨mid, rfl, htail⟩ | ⟨mid, rfl, htail⟩
    · exact hes mid post htail e he
    · cases mid with
      | nil => exact hes [] post htail.symm e he
      | cons y mid =>
        rw [List.cons_append, List.cons.injEq] at htail
        obtain ⟨rfl, rfl⟩ := htail
        rcases List.mem_append.1 he with he | he
        · exact hh pre mid rfl e he
        · exact hcross (by simp) e he

end HydrogenWeb.TraceMarks
