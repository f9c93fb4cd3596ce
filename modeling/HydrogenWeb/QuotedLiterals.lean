import Mathlib

set_option autoImplicit false

/-!
# Quoted literals

A text with literals in it, over any alphabet with a quote. A literal goes from a quote to
the next quote that is not doubled, and a doubled quote in it stands for one. `outside` and
`inside` read a text, `escape` writes the value of a literal.
-/
namespace HydrogenWeb.QuotedLiterals

/-- The text up to the first literal, and the value of each literal with the text behind it. -/
structure Layout (α : Type*) where
  text : List α
  literals : List (List α × List α)
deriving DecidableEq

variable {α : Type*} [DecidableEq α] (quote : α)

mutual

def outside : List α → Option (Layout α)
  | [] => some ⟨[], []⟩
  | c :: s =>
    if c = quote then (inside s).map fun (value, l) => ⟨[], (value, l.text) :: l.literals⟩
    else (outside s).map fun l => ⟨c :: l.text, l.literals⟩

/-- From behind an opening quote; `none` where no quote ends the literal. -/
def inside : List α → Option (List α × Layout α)
  | [] => none
  | c :: s =>
    if c = quote then
      match s with
      | [] => some ([], ⟨[], []⟩)
      | d :: s =>
        if d = quote then (inside s).map fun (value, l) => (quote :: value, l)
        else (outside (d :: s)).map fun l => ([], l)
    else (inside s).map fun (value, l) => (c :: value, l)

end

def escape (value : List α) : List α := value.flatMap fun c => if c = quote then [c, c] else [c]

variable {quote} {value text s : List α} {c : α} {l : Layout α}

theorem outside_cons (h : c ≠ quote) :
    outside quote (c :: s) = (outside quote s).map fun l => ⟨c :: l.text, l.literals⟩ := by
  rw [outside, if_neg h]

theorem outside_quote : outside quote (quote :: s) =
    (inside quote s).map fun (value, l) => ⟨[], (value, l.text) :: l.literals⟩ := by
  rw [outside, if_pos rfl]

theorem inside_cons (h : c ≠ quote) :
    inside quote (c :: s) = (inside quote s).map fun (value, l) => (c :: value, l) := by
  cases s with
  | nil => simp [inside, h]
  | cons d s => rw [inside, if_neg h]

theorem inside_doubled : inside quote (quote :: quote :: s) =
    (inside quote s).map fun (value, l) => (quote :: value, l) := by
  rw [inside, if_pos rfl, if_pos rfl]

/-- A quote that is not doubled ends the literal. -/
theorem inside_quote (h : s.head? ≠ some quote) :
    inside quote (quote :: s) = (outside quote s).map fun l => ([], l) := by
  cases s with
  | nil =>
    rw [inside, if_pos rfl, outside]
    rfl
  | cons d s =>
    have hd : d ≠ quote := fun heq => h (congrArg some heq)
    rw [inside, if_pos rfl, if_neg hd]

theorem escape_cons (h : c ≠ quote) : escape quote (c :: value) = c :: escape quote value := by
  simp [escape, h]

theorem escape_quote : escape quote (quote :: value) = quote :: quote :: escape quote value := by
  simp [escape]

theorem escape_of_notMem (h : quote ∉ value) : escape quote value = value := by
  induction value with
  | nil => rfl
  | cons c value ih =>
    rw [List.mem_cons, not_or] at h
    rw [escape_cons (Ne.symm h.1), ih h.2]

theorem outside_append (h : quote ∉ text) (s : List α) : outside quote (text ++ s) =
    (outside quote s).map fun l => ⟨text ++ l.text, l.literals⟩ := by
  induction text with
  | nil => simp
  | cons c text ih =>
    rw [List.mem_cons, not_or] at h
    rw [List.cons_append, outside_cons (Ne.symm h.1), ih h.2, Option.map_map]
    rfl

theorem outside_of_notMem (h : quote ∉ text) : outside quote text = some ⟨text, []⟩ := by
  have happend := outside_append h []
  rwa [List.append_nil, outside, Option.map_some, List.append_nil] at happend

/-- Reading undoes writing. -/
theorem inside_escape (value : List α) (h : s.head? ≠ some quote) :
    inside quote (escape quote value ++ quote :: s) =
      (outside quote s).map fun l => (value, l) := by
  induction value with
  | nil => exact inside_quote h
  | cons c value ih =>
    by_cases hc : c = quote
    · subst hc
      rw [escape_quote, List.cons_append, List.cons_append, inside_doubled, ih, Option.map_map]
      rfl
    · rw [escape_cons hc, List.cons_append, inside_cons hc, ih, Option.map_map]
      rfl

/-- What is read as a literal has been written as one. -/
theorem eq_escape_of_inside (h : inside quote s = some (value, l)) :
    ∃ rest, s = escape quote value ++ quote :: rest ∧ rest.head? ≠ some quote := by
  induction hlen : s.length using Nat.strong_induction_on generalizing s value l with
  | _ n ih =>
    subst hlen
    cases s with
    | nil =>
      rw [inside] at h
      cases h
    | cons c s =>
      by_cases hc : c = quote
      · subst hc
        by_cases hdouble : s.head? = some c
        · obtain ⟨s, rfl⟩ := List.head?_eq_some_iff.1 hdouble
          rw [inside_doubled] at h
          obtain ⟨⟨v, l'⟩, hrest, heq⟩ := Option.map_eq_some_iff.1 h
          cases heq
          obtain ⟨rest, rfl, hhead⟩ := ih s.length (by simp) hrest rfl
          exact ⟨rest, by rw [escape_quote]; rfl, hhead⟩
        · rw [inside_quote hdouble] at h
          obtain ⟨l', -, heq⟩ := Option.map_eq_some_iff.1 h
          cases heq
          exact ⟨s, rfl, hdouble⟩
      · rw [inside_cons hc] at h
        obtain ⟨⟨v, l'⟩, hrest, heq⟩ := Option.map_eq_some_iff.1 h
        cases heq
        obtain ⟨rest, rfl, hhead⟩ := ih s.length (by simp) hrest rfl
        exact ⟨rest, by rw [escape_cons hc]; rfl, hhead⟩

/-- Behind `n + 1` more quotes an escaped copy is never the string itself. -/
theorem ne_quotes_escape (n : ℕ) (value : List α) {s rest : List α} (h : s.head? ≠ some quote) :
    value ++ quote :: s ≠
      List.replicate (n + 1) quote ++ (escape quote value ++ quote :: rest) := by
  induction value generalizing n with
  | nil =>
    intro heq
    rw [List.replicate_succ, List.cons_append, List.nil_append, List.cons.injEq] at heq
    rw [heq.2] at h
    cases n with
    | zero => exact h rfl
    | succ n => exact h rfl
  | cons c value ih =>
    intro heq
    rw [List.replicate_succ, List.cons_append, List.cons_append, List.cons.injEq] at heq
    obtain ⟨rfl, heq⟩ := heq
    rw [escape_quote] at heq
    apply ih (n + 1)
    rw [heq, List.replicate_succ', List.replicate_succ']
    simp

/-- A string that is read back from between quotes as it is has no quote in it. -/
theorem notMem_of_inside (h : inside quote (value ++ quote :: s) = some (value, l))
    (hs : s.head? ≠ some quote) : quote ∉ value := by
  obtain ⟨rest, heq, -⟩ := eq_escape_of_inside h
  clear h
  induction value with
  | nil => exact List.not_mem_nil
  | cons c value ih =>
    by_cases hc : c = quote
    · subst hc
      rw [escape_quote, List.cons_append, List.cons_append, List.cons_append, List.cons.injEq] at heq
      exact absurd heq.2 (ne_quotes_escape 0 value hs)
    · rw [escape_cons hc, List.cons_append, List.cons_append, List.cons.injEq] at heq
      rw [List.mem_cons, not_or]
      exact ⟨Ne.symm hc, ih heq.2⟩

theorem outside_literal (h : quote ∉ value) (hs : s.head? ≠ some quote) :
    outside quote (quote :: (value ++ quote :: s)) =
      (outside quote s).map fun l => ⟨[], (value, l.text) :: l.literals⟩ := by
  have hread := inside_escape value hs
  rw [escape_of_notMem h] at hread
  rw [outside_quote, hread, Option.map_map]
  rfl

end HydrogenWeb.QuotedLiterals
