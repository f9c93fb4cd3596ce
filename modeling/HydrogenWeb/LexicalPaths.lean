import Mathlib

set_option autoImplicit false

/-!
# Resolving file names lexically

A name is split at its slashes. Empty components and `.` count for nothing and `..` takes
back the component before it; what is behind a symbolic link is not asked. The resolved
name is kept as a stack, its last component first. A name is a list over any alphabet with a
slash and a dot.
-/
namespace HydrogenWeb.LexicalPaths

variable {α : Type*} [DecidableEq α] (slash dot : α)

/-- At the root of the file system `..` leads nowhere; a relative name keeps it. -/
def up (absolute : Bool) : List (List α) → List (List α)
  | [] => if absolute then [] else [[dot, dot]]
  | top :: rest => if top = [dot, dot] then [dot, dot] :: top :: rest else rest

def push (absolute : Bool) (stack : List (List α)) (c : List α) : List (List α) :=
  if c = [] ∨ c = [dot] then stack
  else if c = [dot, dot] then up dot absolute stack
  else c :: stack

/-- The empty name is the root directory without the slash that ends it. -/
def isAbsolute (name : List α) : Bool := name = [] ∨ name.head? = some slash

def resolve (name : List α) : List (List α) :=
  (name.splitOn slash).foldl (push dot (isAbsolute slash name)) []

/-- The resolved name is the directory, or goes on behind it. -/
def Under (directory name : List α) : Prop :=
  isAbsolute slash name = isAbsolute slash directory ∧
    ∃ below, resolve slash dot name = below ++ resolve slash dot directory ∧ [dot, dot] ∉ below

/-- From `depth` directories down, the components never lead above the start. -/
def stays : ℕ → List (List α) → Bool
  | _, [] => true
  | depth, c :: cs =>
    if c = [] ∨ c = [dot] then stays depth cs
    else if c = [dot, dot] then 0 < depth && stays (depth - 1) cs
    else stays (depth + 1) cs

/-- What may stand behind a directory: nothing, or a slash and components that stay. -/
def Within (s : List α) : Prop :=
  s = [] ∨ (s.head? = some slash ∧ stays dot 0 (s.splitOn slash) = true)

instance (s : List α) : Decidable (Within slash dot s) :=
  inferInstanceAs (Decidable (_ ∨ _))

variable {slash dot} {absolute : Bool} {stack below base : List (List α)} {cs : List (List α)}
  {c x : List α}

theorem push_skip (h : c = [] ∨ c = [dot]) : push dot absolute stack c = stack := if_pos h

theorem push_down (h : ¬ (c = [] ∨ c = [dot])) (hc : c ≠ [dot, dot]) :
    push dot absolute stack c = c :: stack := by
  rw [push, if_neg h, if_neg hc]

theorem push_up (h : x ≠ [dot, dot]) :
    push dot absolute (x :: stack) [dot, dot] = stack := by
  simp [push, up, h]

variable (absolute below base) in
/-- Components that stay change only what has been put on the stack since. -/
theorem foldl_push_of_stays (h : stays dot below.length cs = true) (hbelow : [dot, dot] ∉ below) :
    ∃ lower, cs.foldl (push dot absolute) (below ++ base) = lower ++ base ∧
      [dot, dot] ∉ lower := by
  induction cs generalizing below with
  | nil => exact ⟨below, rfl, hbelow⟩
  | cons c cs ih =>
    rw [List.foldl_cons]
    rw [stays] at h
    split_ifs at h with hskip hup
    · rw [push_skip hskip]
      exact ih below h hbelow
    · subst hup
      cases below with
      | nil => cases h
      | cons top below =>
        rw [List.mem_cons, not_or] at hbelow
        rw [List.cons_append, push_up (Ne.symm hbelow.1)]
        exact ih below (by simpa using h) hbelow.2
    · rw [push_down hskip hup]
      have hnew : [dot, dot] ∉ c :: below := List.not_mem_cons_of_ne_of_not_mem (Ne.symm hup) hbelow
      exact ih (c :: below) h hnew

theorem isAbsolute_append (directory s : List α) :
    isAbsolute slash (directory ++ slash :: s) = isAbsolute slash directory := by
  cases directory <;> simp [isAbsolute]

theorem resolve_append (directory s : List α) : resolve slash dot (directory ++ slash :: s) =
    (s.splitOn slash).foldl (push dot (isAbsolute slash directory))
      (resolve slash dot directory) := by
  rw [resolve, isAbsolute_append, List.splitOn_append_cons_self, List.foldl_append]
  rfl

theorem stays_slash (s : List α) :
    stays dot 0 ((slash :: s).splitOn slash) = stays dot 0 (s.splitOn slash) := by
  have hsplit := List.splitOn_append_cons_self ([] : List α) s (a := slash)
  rw [List.nil_append, List.splitOn_nil, List.singleton_append] at hsplit
  rw [hsplit, stays, if_pos (Or.inl rfl)]

/-- The name of a directory with such a string behind it does not leave the directory. -/
theorem under_of_within (directory : List α) {s : List α} (h : Within slash dot s) :
    Under slash dot directory (directory ++ s) := by
  rcases h with rfl | ⟨hslash, hstays⟩
  · rw [List.append_nil]
    exact ⟨rfl, [], rfl, List.not_mem_nil⟩
  · obtain ⟨s, rfl⟩ := List.head?_eq_some_iff.1 hslash
    rw [stays_slash] at hstays
    obtain ⟨lower, hlower, hfree⟩ := foldl_push_of_stays (isAbsolute slash directory) []
      (resolve slash dot directory) hstays List.not_mem_nil
    refine ⟨isAbsolute_append directory s, lower, ?_, hfree⟩
    rw [resolve_append]
    exact hlower

section Escape

theorem mem_foldl_push (h : x ∈ cs.foldl (push dot absolute) stack) : x ∈ stack ∨ x ∈ cs := by
  induction cs generalizing stack with
  | nil => exact Or.inl h
  | cons c cs ih =>
    rcases ih h with hmem | hmem
    · have hcases : x ∈ stack ∨ x = c := by
        rw [push] at hmem
        split_ifs at hmem with hskip hup
        · exact Or.inl hmem
        · subst hup
          cases stack with
          | nil =>
            rw [up] at hmem
            split_ifs at hmem
            · cases hmem
            · exact Or.inr (List.mem_singleton.1 hmem)
          | cons top rest =>
            rw [up] at hmem
            split_ifs at hmem
            · exact (List.mem_cons.1 hmem).symm
            · exact Or.inl (List.mem_cons_of_mem top hmem)
        · exact (List.mem_cons.1 hmem).symm
      rcases hcases with hold | rfl
      · exact Or.inl hold
      · exact Or.inr List.mem_cons_self
    · exact Or.inr (List.mem_cons_of_mem c hmem)

variable (below) in
/-- Components that lead above the start take the directory `x` off the stack for good. -/
theorem notMem_of_not_stays (h : stays dot below.length cs = false) (hbelow : [dot, dot] ∉ below)
    (hx : x ≠ [dot, dot]) (hcs : x ∉ cs) (hfresh : x ∉ below) :
    x ∉ cs.foldl (push dot true) (below ++ [x]) := by
  induction cs generalizing below with
  | nil => cases h
  | cons c cs ih =>
    rw [List.mem_cons, not_or] at hcs
    rw [List.foldl_cons]
    rw [stays] at h
    split_ifs at h with hskip hup
    · rw [push_skip hskip]
      exact ih below h hbelow hcs.2 hfresh
    · subst hup
      cases below with
      | nil =>
        rw [List.nil_append, push_up hx]
        intro hmem
        rcases mem_foldl_push hmem with hmem | hmem
        · cases hmem
        · exact hcs.2 hmem
      | cons top below =>
        rw [List.mem_cons, not_or] at hbelow hfresh
        rw [List.cons_append, push_up (Ne.symm hbelow.1)]
        exact ih below (by simpa using h) hbelow.2 hcs.2 hfresh.2
    · rw [push_down hskip hup]
      have hnew : [dot, dot] ∉ c :: below := List.not_mem_cons_of_ne_of_not_mem (Ne.symm hup) hbelow
      have hother : x ∉ c :: below := List.not_mem_cons_of_ne_of_not_mem hcs.1 hfresh
      exact ih (c :: below) h hnew hcs.2 hother

theorem length_of_mem_splitOn {s : List α} (h : c ∈ s.splitOn slash) : c.length ≤ s.length := by
  induction s generalizing c with
  | nil =>
    rw [List.splitOn_nil, List.mem_singleton] at h
    rw [h]
  | cons a s ih =>
    rw [List.splitOn_cons_eq_if_modifyHead] at h
    split_ifs at h with ha
    · rcases List.mem_cons.1 h with rfl | h
      · exact Nat.zero_le _
      · exact (ih h).trans (Nat.le_succ _)
    · obtain ⟨first, rest, hsplit⟩ := List.exists_cons_of_ne_nil (List.splitOn_ne_nil slash s)
      rw [hsplit] at h ih
      rcases List.mem_cons.1 h with rfl | h
      · exact Nat.succ_le_succ (ih List.mem_cons_self)
      · exact (ih (List.mem_cons_of_mem first h)).trans (Nat.le_succ _)

variable (slash) in
def freshDirectory (letter : α) (s : List α) : List α :=
  slash :: List.replicate (s.length + 1) letter

theorem resolve_freshDirectory {letter : α} (hslash : letter ≠ slash) (hdot : letter ≠ dot)
    (s : List α) :
    resolve slash dot (freshDirectory slash letter s) = [List.replicate (s.length + 1) letter] := by
  have hfree : slash ∉ List.replicate (s.length + 1) letter := by
    intro hmem
    exact hslash (List.eq_of_mem_replicate hmem).symm
  have hsplit : (freshDirectory slash letter s).splitOn slash =
      [[], List.replicate (s.length + 1) letter] := by
    have hcons := List.splitOn_append_cons_self ([] : List α)
      (List.replicate (s.length + 1) letter) (a := slash)
    rw [List.nil_append, List.splitOn_nil, List.splitOn_eq_singleton hfree] at hcons
    exact hcons
  have hskip : ¬ (List.replicate (s.length + 1) letter = [] ∨
      List.replicate (s.length + 1) letter = [dot]) := by
    simp [List.replicate_succ, hdot]
  have hup : List.replicate (s.length + 1) letter ≠ [dot, dot] := by
    simp [List.replicate_succ, hdot]
  rw [resolve, hsplit, List.foldl_cons, List.foldl_cons, List.foldl_nil, push_skip (Or.inl rfl),
    push_down hskip hup]

/-- No component of such a string is the run of letters alone. -/
theorem replicate_notMem_splitOn {letter a : α} (hslash : letter ≠ slash) (ha : a ≠ slash)
    {t : List α} : List.replicate ((a :: t).length + 1) letter ∉
      (List.replicate ((a :: t).length + 1) letter ++ a :: t).splitOn slash := by
  have hfree : slash ∉ List.replicate ((a :: t).length + 1) letter := by
    intro hmem
    exact hslash (List.eq_of_mem_replicate hmem).symm
  generalize hrun : List.replicate ((a :: t).length + 1) letter = run at hfree
  have hlen : run.length = (a :: t).length + 1 := by
    rw [← hrun, List.length_replicate]
  intro hmem
  by_cases hsplit : slash ∈ a :: t
  · obtain ⟨first, rest, htext, hfirst⟩ := List.eq_append_cons_of_mem hsplit
    have hrest : rest.length < (a :: t).length := by
      rw [htext]
      simp only [List.length_append, List.length_cons]
      omega
    have hjoined : slash ∉ run ++ first := by
      rw [List.mem_append, not_or]
      exact ⟨hfree, hfirst⟩
    rw [htext, ← List.append_assoc, List.splitOn_append_cons_self_of_not_mem hjoined] at hmem
    rcases List.mem_cons.1 hmem with heq | hmem
    · rw [List.self_eq_append_right] at heq
      rw [heq, List.nil_append, List.cons.injEq] at htext
      exact ha htext.1
    · have hshort := length_of_mem_splitOn hmem
      omega
  · have hjoined : slash ∉ run ++ a :: t := by
      rw [List.mem_append, not_or]
      exact ⟨hfree, hsplit⟩
    rw [List.splitOn_eq_singleton hjoined, List.mem_singleton] at hmem
    simp at hmem

theorem notMem_resolve {letter : α} (hslash : letter ≠ slash) (hdot : letter ≠ dot) {s : List α}
    (h : ¬ Within slash dot s) : List.replicate (s.length + 1) letter ∉
      resolve slash dot (freshDirectory slash letter s ++ s) := by
  rw [Within, not_or, not_and_or] at h
  obtain ⟨hne, h⟩ := h
  by_cases hhead : s.head? = some slash
  · obtain ⟨t, rfl⟩ := List.head?_eq_some_iff.1 hhead
    have hclimbs := h.resolve_left (not_not.2 rfl)
    rw [stays_slash, Bool.not_eq_true] at hclimbs
    have habsolute : isAbsolute slash (freshDirectory slash letter (slash :: t)) = true := by
      simp [isAbsolute, freshDirectory]
    rw [resolve_append, resolve_freshDirectory hslash hdot, habsolute]
    refine notMem_of_not_stays [] hclimbs List.not_mem_nil ?_ ?_ List.not_mem_nil
    · simp [List.replicate_succ, hdot]
    · intro hmem
      have hlen := length_of_mem_splitOn hmem
      simp only [List.length_replicate, List.length_cons] at hlen
      omega
  · -- the string goes on in the directory's own component
    intro hmem
    rcases mem_foldl_push hmem with hmem | hmem
    · cases hmem
    · obtain ⟨a, t, rfl⟩ := List.exists_cons_of_ne_nil hne
      have ha : a ≠ slash := by
        rintro rfl
        exact hhead rfl
      have hcons := List.splitOn_append_cons_self ([] : List α)
        (List.replicate ((a :: t).length + 1) letter ++ a :: t) (a := slash)
      rw [List.nil_append, List.splitOn_nil, List.singleton_append] at hcons
      have hstart : freshDirectory slash letter (a :: t) ++ a :: t =
          slash :: (List.replicate ((a :: t).length + 1) letter ++ a :: t) := rfl
      rw [hstart, hcons] at hmem
      rcases List.mem_cons.1 hmem with hnil | hmem
      · simp at hnil
      · exact replicate_notMem_splitOn hslash ha hmem

/-- A string that may not stand behind a directory leads out of some directory. -/
theorem not_under_freshDirectory {letter : α} (hslash : letter ≠ slash) (hdot : letter ≠ dot)
    {s : List α} (h : ¬ Within slash dot s) :
    ¬ Under slash dot (freshDirectory slash letter s) (freshDirectory slash letter s ++ s) := by
  rintro ⟨-, below, heq, -⟩
  apply notMem_resolve hslash hdot h
  rw [heq, resolve_freshDirectory hslash hdot]
  exact List.mem_append_right below (List.mem_singleton_self _)

end Escape
end HydrogenWeb.LexicalPaths
