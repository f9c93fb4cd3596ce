import Mathlib

set_option autoImplicit false

/-!
# Removal from a list by moving the last entry

The entry at `i` is overwritten by the last one and the list gets shorter by one.
-/
namespace HydrogenWeb.SwapRemove

variable {α : Type*}

def swapRemove (l : List α) (i : ℕ) : List α :=
  match l.getLast? with
  | none => l
  | some last => (l.set i last).dropLast

theorem getLast?_middle (a b : List α) (x y : α) :
    (a ++ x :: (b ++ [y])).getLast? = some y := by
  rw [← List.cons_append, ← List.append_assoc, List.getLast?_concat]

theorem swapRemove_middle (a b : List α) (x y : α) :
    swapRemove (a ++ x :: (b ++ [y])) a.length = a ++ y :: b := by
  simp only [swapRemove, getLast?_middle]
  rw [List.set_append_right _ _ (le_refl _), Nat.sub_self, List.set_cons_zero,
    ← List.cons_append, ← List.append_assoc, List.dropLast_concat]

theorem swapRemove_last (a : List α) (x : α) : swapRemove (a ++ [x]) a.length = a := by
  simp [swapRemove]

/-- An entry of a list is the last one or has the last one behind it. -/
theorem split_at_entry {l : List α} {i : ℕ} {x : α} (h : l[i]? = some x) :
    ∃ a, a.length = i ∧ (l = a ++ [x] ∨ ∃ b y, l = a ++ x :: (b ++ [y])) := by
  obtain ⟨hi, hx⟩ := List.getElem?_eq_some_iff.1 h
  have hl : l = l.take i ++ x :: l.drop (i + 1) := by
    rw [← hx, List.getElem_cons_drop, List.take_append_drop]
  refine ⟨l.take i, List.length_take_of_le hi.le, ?_⟩
  rcases List.eq_nil_or_concat (l.drop (i + 1)) with hnil | ⟨b, y, hb⟩
  · rw [hnil] at hl
    exact Or.inl hl
  · rw [hb, List.concat_eq_append] at hl
    exact Or.inr ⟨b, y, hl⟩

theorem perm_swapRemove {l : List α} {i : ℕ} {x : α} (h : l[i]? = some x) :
    l.Perm (x :: swapRemove l i) := by
  obtain ⟨a, rfl, rfl | ⟨b, y, rfl⟩⟩ := split_at_entry h
  · rw [swapRemove_last]
    exact List.perm_append_singleton x a
  · rw [swapRemove_middle]
    have hmove : (x :: (b ++ [y])).Perm (x :: y :: b) :=
      (List.perm_append_singleton y b).cons x
    exact (hmove.append_left a).trans List.perm_middle

theorem length_swapRemove {l : List α} {i : ℕ} {x : α} (h : l[i]? = some x) :
    (swapRemove l i).length + 1 = l.length := by
  simpa using (perm_swapRemove h).length_eq.symm

theorem mem_swapRemove {l : List α} {i : ℕ} {x y : α} (h : l[i]? = some x) (hn : l.Nodup) :
    y ∈ swapRemove l i ↔ y ∈ l ∧ y ≠ x := by
  have hperm := perm_swapRemove h
  have hnodup := List.nodup_cons.1 (hperm.nodup_iff.1 hn)
  rw [hperm.mem_iff, List.mem_cons]
  constructor
  · intro hy
    exact ⟨Or.inr hy, fun heq => hnodup.1 (heq ▸ hy)⟩
  · rintro ⟨heq | hy, hne⟩
    · exact absurd heq hne
    · exact hy

theorem nodup_swapRemove {l : List α} {i : ℕ} {x : α} (h : l[i]? = some x) (hn : l.Nodup) :
    (swapRemove l i).Nodup :=
  (List.nodup_cons.1 ((perm_swapRemove h).nodup_iff.1 hn)).2

/-- The last entry stands in the hole, and the others where they stood. -/
theorem getElem?_swapRemove {l : List α} {i : ℕ} (hi : i < l.length) (j : ℕ) :
    (swapRemove l i)[j]? =
      if j + 1 < l.length then if j = i then l.getLast? else l[j]? else none := by
  have hne : l ≠ [] := List.ne_nil_of_length_pos (by omega)
  simp only [swapRemove, List.getLast?_eq_getLast_of_ne_nil hne, List.getElem?_dropLast,
    List.length_set, List.getElem?_set]
  split_ifs <;> first | rfl | omega

theorem swapRemove_last_index {l : List α} {x : α} {i : ℕ} (h : l[i]? = some x)
    (hlast : i = l.length - 1) : swapRemove l i = l.dropLast := by
  obtain ⟨a, rfl, rfl | ⟨b, y, rfl⟩⟩ := split_at_entry h
  · rw [swapRemove_last, List.dropLast_concat]
  · simp at hlast

end HydrogenWeb.SwapRemove
