import Mathlib

set_option autoImplicit false

/-!
# Updating a map with a list of entries

The entries are inserted in order, so a later one wins. What the map then holds under a
key is the last entry of the key, or what it held before.
-/
namespace HydrogenWeb.MapUpdates

variable {κ ν : Type*} [DecidableEq κ]

def last (entries : List (κ × ν)) (k : κ) : Option ν :=
  (entries.reverse.find? fun e => e.1 = k).map Prod.snd

@[simp] theorem last_nil (k : κ) : last ([] : List (κ × ν)) k = none := rfl

theorem last_append (xs ys : List (κ × ν)) (k : κ) :
    last (xs ++ ys) k = (last ys k).or (last xs k) := by
  rw [last, List.reverse_append, List.find?_append, last, last]
  cases ys.reverse.find? fun e => e.1 = k <;> rfl

theorem last_cons (e : κ × ν) (entries : List (κ × ν)) (k : κ) :
    last (e :: entries) k = (last entries k).or (if e.1 = k then some e.2 else none) := by
  change last ([e] ++ entries) k = _
  rw [last_append]
  congr 1
  by_cases hk : e.1 = k
  · simp [last, hk]
  · simp [last, hk]

theorem last_eq_none_iff {entries : List (κ × ν)} {k : κ} :
    last entries k = none ↔ ∀ e ∈ entries, e.1 ≠ k := by
  induction entries with
  | nil => simp
  | cons e entries ih => simp [last_cons, ih, and_comm]

theorem last_of_split {pre post : List (κ × ν)} {k : κ} {v : ν} (h : ∀ e ∈ post, e.1 ≠ k) :
    last (pre ++ (k, v) :: post) k = some v := by
  rw [last_append, last_cons, last_eq_none_iff.2 h]
  simp

theorem mem_of_last {entries : List (κ × ν)} {k : κ} {v : ν} (h : last entries k = some v) :
    (k, v) ∈ entries := by
  obtain ⟨e, he, rfl⟩ := Option.map_eq_some_iff.1 h
  have hkey := List.find?_some he
  rw [decide_eq_true_eq] at hkey
  have hmem := List.mem_reverse.1 (List.mem_of_find?_eq_some he)
  rwa [← hkey]

theorem last_map (entries : List (κ × ν)) {μ : Type*} (g : ν → μ) (k : κ) :
    last (entries.map fun e => (e.1, g e.2)) k = (last entries k).map g := by
  induction entries with
  | nil => rfl
  | cons e entries ih =>
    rw [List.map_cons, last_cons, last_cons, ih]
    by_cases hk : e.1 = k <;> cases last entries k <;> simp [hk]

variable {cmp : κ → κ → Ordering} [Std.TransCmp cmp] [Std.LawfulEqCmp cmp]

def updates (m : Std.ExtTreeMap κ ν cmp) (entries : List (κ × ν)) : Std.ExtTreeMap κ ν cmp :=
  entries.foldl (fun m e => m.insert e.1 e.2) m

theorem getElem?_updates (m : Std.ExtTreeMap κ ν cmp) (entries : List (κ × ν)) (k : κ) :
    (updates m entries)[k]? = (last entries k).or m[k]? := by
  induction entries generalizing m with
  | nil => rfl
  | cons e entries ih =>
    change (updates (m.insert e.1 e.2) entries)[k]? = _
    rw [ih, last_cons, Std.ExtTreeMap.getElem?_insert]
    simp only [Std.LawfulEqCmp.compare_eq_iff_eq]
    by_cases hk : e.1 = k <;> cases last entries k <;> simp [hk]

end HydrogenWeb.MapUpdates
