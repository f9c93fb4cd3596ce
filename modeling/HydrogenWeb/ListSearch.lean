import Mathlib

set_option autoImplicit false

/-!
# Searching in a list

The position of the first `c`, and of the first `a` that a `b` follows. Both are known
from what stands before the hit, so a list may grow behind it.
-/
namespace HydrogenWeb.ListSearch

variable {α : Type*} [DecidableEq α]

def find (c : α) (l : List α) : Option ℕ := l.idxOf? c

/-- The first position of `a` directly followed by `b`. -/
def findPair (a b : α) : List α → Option ℕ
  | x :: y :: l => if x = a ∧ y = b then some 0 else (findPair a b (y :: l)).map (· + 1)
  | _ => none

/-- No pair begins in `l`, also not with its last element and a `b` behind it. -/
def NoPair (a b : α) (l : List α) : Prop := findPair a b (l ++ [a]) = none

instance (a b : α) (l : List α) : Decidable (NoPair a b l) :=
  inferInstanceAs (Decidable (_ = _))

variable {a b c : α} {l v pre post : List α} {i : ℕ}

omit [DecidableEq α] in
theorem drop_past (pre post : List α) (c : α) : (pre ++ c :: post).drop (pre.length + 1) = post := by
  have hsplit : pre ++ c :: post = (pre ++ [c]) ++ post := by simp
  rw [hsplit]
  exact List.drop_left' (by simp)

theorem find_eq_none : find c l = none ↔ c ∉ l := List.idxOf?_eq_none_iff

theorem find_append_cons (h : c ∉ pre) : find c (pre ++ c :: post) = some pre.length := by
  induction pre with
  | nil => simp [find, List.idxOf?_cons]
  | cons x pre ih =>
    obtain ⟨hx, hpre⟩ := not_or.1 (mt List.mem_cons.2 h)
    have htail := ih hpre
    rw [find] at htail ⊢
    rw [List.cons_append, List.idxOf?_cons, htail]
    simp [Ne.symm hx]

theorem find_eq_some (h : find c l = some i) :
    ∃ pre post, l = pre ++ c :: post ∧ c ∉ pre ∧ pre.length = i := by
  induction l generalizing i with
  | nil => cases h
  | cons x l ih =>
    rw [find, List.idxOf?_cons] at h
    split at h
    · rename_i hx
      cases h
      exact ⟨[], l, by rw [beq_iff_eq.1 hx]; rfl, List.not_mem_nil, rfl⟩
    · rename_i hx
      obtain ⟨j, hj, rfl⟩ := Option.map_eq_some_iff.1 h
      obtain ⟨pre, post, rfl, hpre, rfl⟩ := ih hj
      refine ⟨x :: pre, post, rfl, ?_, rfl⟩
      simp only [beq_iff_eq] at hx
      exact fun hmem => (List.mem_cons.1 hmem).elim (fun heq => hx heq.symm) hpre

theorem findPair_of_noPair (h : NoPair a b pre) :
    findPair a b (pre ++ a :: b :: post) = some pre.length := by
  induction pre with
  | nil => simp [findPair]
  | cons x pre ih =>
    unfold NoPair at h ih
    obtain ⟨y, tail, htail⟩ : ∃ y tail, pre ++ [a] = y :: tail :=
      List.exists_cons_of_ne_nil (by simp)
    have hlong : pre ++ a :: b :: post = y :: (tail ++ b :: post) := by
      rw [← List.cons_append, ← htail, List.append_assoc]
      rfl
    rw [List.cons_append, htail, findPair] at h
    split at h
    · cases h
    · rename_i hhit
      rw [← htail] at h
      have hrest := ih (Option.map_eq_none_iff.1 h)
      rw [List.cons_append, hlong, findPair, if_neg hhit, ← hlong, hrest]
      rfl

theorem findPair_eq_some (h : findPair a b l = some i) :
    ∃ pre post, l = pre ++ a :: b :: post ∧ NoPair a b pre ∧ pre.length = i := by
  induction l generalizing i with
  | nil => cases h
  | cons x l ih =>
    cases l with
    | nil => cases h
    | cons y l =>
      rw [findPair] at h
      split at h
      · rename_i hhit
        cases h
        exact ⟨[], l, by rw [hhit.1, hhit.2]; rfl, rfl, rfl⟩
      · rename_i hhit
        obtain ⟨j, hj, rfl⟩ := Option.map_eq_some_iff.1 h
        obtain ⟨pre, post, heq, hno, rfl⟩ := ih hj
        refine ⟨x :: pre, post, by rw [heq]; rfl, ?_, rfl⟩
        cases pre with
        | nil =>
          rw [List.nil_append, List.cons.injEq] at heq
          obtain ⟨rfl, rfl⟩ := heq
          unfold NoPair
          by_cases hx : x = y
          · subst hx
            have hne : ¬ x = b := fun hb => hhit ⟨rfl, hb⟩
            simp [findPair, hne]
          · simp [findPair, hx]
        | cons z pre =>
          rw [List.cons_append, List.cons.injEq] at heq
          obtain ⟨rfl, rfl⟩ := heq
          unfold NoPair at hno ⊢
          rw [List.cons_append, List.cons_append, findPair, if_neg hhit, ← List.cons_append, hno]
          rfl

theorem findPair_ne_none (pre post : List α) : findPair a b (pre ++ a :: b :: post) ≠ none := by
  induction pre with
  | nil => simp [findPair]
  | cons x pre ih =>
    obtain ⟨y, tail, htail⟩ : ∃ y tail, pre ++ a :: b :: post = y :: tail :=
      List.exists_cons_of_ne_nil (by simp)
    rw [List.cons_append, htail, findPair]
    split
    · simp
    · rw [← htail, Ne, Option.map_eq_none_iff]
      exact ih

theorem noPair_iff (hab : a ≠ b) : NoPair a b l ↔ ¬ [a, b] <:+: l := by
  constructor
  · rintro h ⟨pre, post, rfl⟩
    rw [NoPair] at h
    have hfound := findPair_ne_none (a := a) (b := b) pre (post ++ [a])
    simp only [List.append_assoc, List.cons_append, List.nil_append] at h
    exact hfound h
  · intro h
    by_contra hcon
    obtain ⟨i, hi⟩ := Option.ne_none_iff_exists'.1 hcon
    obtain ⟨pre, post, heq, -, -⟩ := findPair_eq_some hi
    -- the last element is an `a`, so the pair ends before it
    rcases List.eq_nil_or_concat post with rfl | ⟨post, z, rfl⟩
    · have hsplit : l ++ [a] = (pre ++ [a]) ++ [b] := by
        rw [heq, List.append_assoc]
        rfl
      exact hab (List.singleton_inj.1 (List.append_inj_right' hsplit rfl))
    · have hsplit : l ++ [a] = (pre ++ [a, b] ++ post) ++ [z] := by
        rw [heq, List.concat_eq_append]
        simp
      exact h ⟨pre, post, (List.append_inj_left' hsplit rfl).symm⟩

theorem noPair_of_not_mem (hab : a ≠ b) (h : a ∉ l) : NoPair a b l :=
  (noPair_iff hab).2 fun hpair => h (hpair.subset List.mem_cons_self)

theorem noPair_unique {pre₂ post₂ : List α} (h : NoPair a b pre) (h₂ : NoPair a b pre₂)
    (heq : pre ++ a :: b :: post = pre₂ ++ a :: b :: post₂) : pre = pre₂ ∧ post = post₂ := by
  have hlen : some pre.length = some pre₂.length := by
    rw [← findPair_of_noPair h, heq, findPair_of_noPair h₂]
  obtain ⟨hpre, hpost⟩ := List.append_inj heq (Option.some.inj hlen)
  simp only [List.cons.injEq, true_and] at hpost
  exact ⟨hpre, hpost⟩

theorem findPair_of_not_mem (h : b ∉ l) : findPair a b l = none := by
  by_contra hcon
  obtain ⟨i, hi⟩ := Option.ne_none_iff_exists'.1 hcon
  obtain ⟨pre, post, rfl, -, -⟩ := findPair_eq_some hi
  exact h (by simp)

omit [DecidableEq α] in
theorem head_dropWhile (p : α → Bool) (l : List α) : ∀ x ∈ (l.dropWhile p).head?, p x = false := by
  intro x hx
  have hhead := List.head?_dropWhile_not p l
  rw [Option.mem_def] at hx
  rwa [hx] at hhead

omit [DecidableEq α] in
/-- A prefix of a list that begins with a line either ends in the line or contains it. -/
theorem prefix_line_cases {w line rest : List α} (h : w <+: line ++ a :: b :: rest) :
    w <+: line ++ [a] ∨ ∃ tail, w = line ++ a :: b :: tail ∧ tail <+: rest := by
  have hsplit : line ++ a :: b :: rest = (line ++ [a]) ++ b :: rest := by simp
  by_cases hlen : w.length ≤ (line ++ [a]).length
  · refine Or.inl (List.prefix_of_prefix_length_le h ?_ hlen)
    rw [hsplit]
    exact List.prefix_append _ _
  · right
    have hline : line ++ [a, b] <+: w := by
      refine List.prefix_of_prefix_length_le ⟨rest, by simp⟩ h ?_
      simp only [List.length_append, List.length_cons, List.length_nil] at hlen ⊢
      omega
    obtain ⟨tail, rfl⟩ := hline
    refine ⟨tail, by simp, ?_⟩
    rw [List.append_assoc] at h
    have hrest := (List.prefix_append_right_inj line).1 h
    simpa using hrest

end HydrogenWeb.ListSearch
