import HydrogenWeb.ThreadCensus

set_option autoImplicit false

/-!
# Dispatching numbered jobs to workers

Jobs are numbered in the order they arrive and are known by a key, which is free again when the job
is finished. A worker takes the first job that waits and says the job's text piece by piece. A job
whose key is not real is never finished.
-/
namespace HydrogenWeb.WorkDispatch
open ThreadCensus

@[ext] structure Dispatch (ω κ α : Type*) where
  arrived : List κ
  taken : ℕ
  serving : ω → Option κ
  table : κ → Option ℕ
  finished : List ℕ
  said : ℕ → List α
  toSay : ω → List α

namespace Dispatch

variable {ω κ α : Type*} [DecidableEq ω] [DecidableEq κ]

section Moves
variable (real : κ → Prop) (text : ℕ → List α)

inductive Moves (s : Dispatch ω κ α) : Dispatch ω κ α → Prop
  | stay : Moves s s
  | arrive (k : κ) (hreal : real k) (hfree : s.table k = none) : Moves s { s with
      arrived := s.arrived ++ [k], table := Function.update s.table k (some s.arrived.length) }
  | arriveUnreal (k : κ) (hreal : ¬ real k) : Moves s { s with arrived := s.arrived ++ [k] }
  | take (w : ω) (k : κ) (t : List α) (hidle : s.serving w = none)
      (hnext : s.arrived[s.taken]? = some k) (htext : real k → t = text s.taken) : Moves s { s with
        taken := s.taken + 1, serving := Function.update s.serving w (some k)
        toSay := Function.update s.toSay w t }
  | say (w : ω) (k : κ) (i : ℕ) (t rest : List α) (hserving : s.serving w = some k)
      (hkey : s.table k = some i) (hsay : s.toSay w = t ++ rest) : Moves s { s with
        said := Function.update s.said i (s.said i ++ t)
        toSay := Function.update s.toSay w rest }
  | murmur (w : ω) (k : κ) (t : List α) (hserving : s.serving w = some k) (hreal : ¬ real k) :
      Moves s { s with toSay := Function.update s.toSay w t }
  | finish (w : ω) (k : κ) (i : ℕ) (hserving : s.serving w = some k) (hkey : s.table k = some i)
      (hsay : s.toSay w = []) : Moves s { s with
        serving := Function.update s.serving w none, table := Function.update s.table k none
        finished := s.finished ++ [i], toSay := Function.update s.toSay w [] }

end Moves

/-- The worker is lost to a job that is not real. -/
def Lost (real : κ → Prop) (job : Option κ) : Prop := ∃ k, job = some k ∧ ¬ real k

structure Invariant (real : κ → Prop) [DecidablePred real] (text : ℕ → List α)
    (s : Dispatch ω κ α) : Prop where
  bounded : s.taken ≤ s.arrived.length
  numbered : ∀ k i, s.table k = some i → real k ∧ s.arrived[i]? = some k
  waiting : ∀ i k, s.taken ≤ i → s.arrived[i]? = some k → real k → s.table k = some i
  silent : ∀ i, s.taken ≤ i → s.said i = []
  serving : ∀ w k, s.serving w = some k → real k → ∃ i, i < s.taken ∧ s.table k = some i ∧
    s.said i ++ s.toSay w = text i
  exclusive : ∀ v w k, s.serving v = some k → s.serving w = some k → real k → v = w
  served : ∀ k i, s.table k = some i → i < s.taken → ∃ w, s.serving w = some k
  finished : ∀ i k, s.arrived[i]? = some k → real k → (i ∈ s.finished ↔ s.table k ≠ some i)
  ended : ∀ i ∈ s.finished, i < s.taken ∧ s.said i = text i ∧ ∃ k, s.arrived[i]? = some k ∧ real k
  once : s.finished.Nodup
  lost : Census s.serving (Lost real) ((s.arrived.take s.taken).countP (¬ real ·))

variable {real : κ → Prop} [DecidablePred real] {text : ℕ → List α} {s u : Dispatch ω κ α}

omit [DecidableEq ω] [DecidableEq κ] [DecidablePred real] in
theorem Lost.of_real {k : κ} (h : real k) : ¬ Lost real (some k) := by
  rintro ⟨l, hl, hunreal⟩
  cases hl
  exact hunreal h

omit [DecidableEq ω] [DecidableEq κ] [DecidablePred real] in
theorem Lost.none : ¬ Lost real (none : Option κ) := by
  rintro ⟨l, hl, -⟩
  cases hl

omit [DecidableEq ω] [DecidableEq κ] in
theorem getElem?_append_some {l : List κ} {i : ℕ} {k m : κ} (h : (l ++ [m])[i]? = some k) :
    l[i]? = some k ∨ (i = l.length ∧ m = k) := by
  by_cases hi : i < l.length
  · rw [List.getElem?_append_left hi] at h
    exact Or.inl h
  · rw [List.getElem?_append_right (by omega)] at h
    obtain ⟨hlt, heq⟩ := List.getElem?_eq_some_iff.1 h
    rw [List.length_singleton] at hlt
    refine Or.inr ⟨by omega, ?_⟩
    rw [List.getElem_singleton] at heq
    exact heq

omit [DecidableEq ω] [DecidableEq κ] in
theorem getElem?_append_of_some {l : List κ} {i : ℕ} {k : κ} (m : κ) (h : l[i]? = some k) :
    (l ++ [m])[i]? = some k :=
  (List.getElem?_append_left (List.getElem?_eq_some_iff.1 h).1).trans h

omit [DecidableEq ω] [DecidableEq κ] in
theorem take_of_bounded {l : List κ} {n : ℕ} (h : n ≤ l.length) (m : κ) :
    (l ++ [m]).take n = l.take n := by
  rw [List.take_append_of_le_length h]

omit [DecidableEq ω] in
theorem Invariant.arrive (h : Invariant real text s) {k : κ} (hreal : real k)
    (hfree : s.table k = none) : Invariant real text { s with
      arrived := s.arrived ++ [k], table := Function.update s.table k (some s.arrived.length) } where
  bounded := by
    change s.taken ≤ (s.arrived ++ [k]).length
    rw [List.length_append]
    exact h.bounded.trans (Nat.le_add_right _ _)
  numbered := by
    intro l i hl
    by_cases hlk : l = k
    · subst hlk
      change Function.update s.table l _ l = _ at hl
      rw [Function.update_self] at hl
      cases hl
      exact ⟨hreal, List.getElem?_concat_length⟩
    · change Function.update s.table k _ l = _ at hl
      rw [Function.update_of_ne hlk] at hl
      obtain ⟨hlreal, harrived⟩ := h.numbered l i hl
      exact ⟨hlreal, getElem?_append_of_some k harrived⟩
  waiting := by
    intro i l hi hl hlreal
    change Function.update s.table k _ l = _
    obtain hl | ⟨rfl, rfl⟩ := getElem?_append_some hl
    · have hkey := h.waiting i l hi hl hlreal
      rw [Function.update_of_ne, hkey]
      rintro rfl
      rw [hfree] at hkey
      cases hkey
    · exact Function.update_self ..
  silent := h.silent
  serving := by
    intro w l hw hlreal
    obtain ⟨i, hi, hkey, htext⟩ := h.serving w l hw hlreal
    refine ⟨i, hi, ?_, htext⟩
    change Function.update s.table k _ l = _
    rw [Function.update_of_ne, hkey]
    rintro rfl
    rw [hfree] at hkey
    cases hkey
  exclusive := h.exclusive
  served := by
    intro l i hl hi
    by_cases hlk : l = k
    · subst hlk
      change Function.update s.table l _ l = _ at hl
      rw [Function.update_self] at hl
      cases hl
      exact absurd hi (Nat.not_lt.2 h.bounded)
    · change Function.update s.table k _ l = _ at hl
      rw [Function.update_of_ne hlk] at hl
      exact h.served l i hl hi
  finished := by
    intro i l hl hlreal
    change i ∈ s.finished ↔ Function.update s.table k _ l ≠ _
    obtain hold | ⟨rfl, rfl⟩ := getElem?_append_some hl
    · rw [h.finished i l hold hlreal]
      by_cases hlk : l = k
      · subst hlk
        have hi : i < s.arrived.length := (List.getElem?_eq_some_iff.1 hold).1
        rw [Function.update_self, hfree]
        simp [hi.ne']
      · rw [Function.update_of_ne hlk]
    · rw [Function.update_self]
      refine iff_of_false (fun hcon => ?_) (fun hcon => hcon rfl)
      exact absurd (h.ended _ hcon).1 (Nat.not_lt.2 h.bounded)
  ended := by
    intro i hi
    obtain ⟨hlt, hsaid, l, hl, hlreal⟩ := h.ended i hi
    exact ⟨hlt, hsaid, l, getElem?_append_of_some k hl, hlreal⟩
  once := h.once
  lost := by
    change Census s.serving (Lost real) (((s.arrived ++ [k]).take s.taken).countP _)
    rw [take_of_bounded h.bounded]
    exact h.lost

omit [DecidableEq ω] [DecidableEq κ] in
theorem Invariant.arriveUnreal (h : Invariant real text s) {k : κ} (hreal : ¬ real k) :
    Invariant real text { s with arrived := s.arrived ++ [k] } where
  bounded := by
    change s.taken ≤ (s.arrived ++ [k]).length
    rw [List.length_append]
    exact h.bounded.trans (Nat.le_add_right _ _)
  numbered := by
    intro l i hl
    obtain ⟨hlreal, harrived⟩ := h.numbered l i hl
    exact ⟨hlreal, getElem?_append_of_some k harrived⟩
  waiting := by
    intro i l hi hl hlreal
    obtain hl | ⟨-, rfl⟩ := getElem?_append_some hl
    · exact h.waiting i l hi hl hlreal
    · exact absurd hlreal hreal
  silent := h.silent
  serving := h.serving
  exclusive := h.exclusive
  served := h.served
  finished := by
    intro i l hl hlreal
    obtain hl | ⟨-, rfl⟩ := getElem?_append_some hl
    · exact h.finished i l hl hlreal
    · exact absurd hlreal hreal
  ended := by
    intro i hi
    obtain ⟨hlt, hsaid, l, hl, hlreal⟩ := h.ended i hi
    exact ⟨hlt, hsaid, l, getElem?_append_of_some k hl, hlreal⟩
  once := h.once
  lost := by
    change Census s.serving (Lost real) (((s.arrived ++ [k]).take s.taken).countP _)
    rw [take_of_bounded h.bounded]
    exact h.lost

omit [DecidableEq κ] in
theorem Invariant.take (h : Invariant real text s) {w : ω} {k : κ} {t : List α}
    (hidle : s.serving w = none) (hnext : s.arrived[s.taken]? = some k)
    (htext : real k → t = text s.taken) : Invariant real text { s with
      taken := s.taken + 1, serving := Function.update s.serving w (some k)
      toSay := Function.update s.toSay w t } := by
  have hlt : s.taken < s.arrived.length := (List.getElem?_eq_some_iff.1 hnext).1
  -- no worker has the key yet
  have hfresh : real k → ∀ v, s.serving v ≠ some k := by
    intro hreal v hv
    obtain ⟨i, hi, hkey, -⟩ := h.serving v k hv hreal
    rw [h.waiting _ k le_rfl hnext hreal] at hkey
    cases hkey
    exact absurd hi (lt_irrefl _)
  refine ⟨hlt, h.numbered, ?_, ?_, ?_, ?_, ?_, h.finished, ?_, h.once, ?_⟩
  · exact fun i l hi => h.waiting i l (Nat.le_of_succ_le hi)
  · exact fun i hi => h.silent i (Nat.le_of_succ_le hi)
  · intro v l hv hlreal
    dsimp only at hv ⊢
    by_cases hvw : v = w
    · subst hvw
      rw [Function.update_self] at hv ⊢
      cases hv
      refine ⟨s.taken, Nat.lt_succ_self _, h.waiting _ k le_rfl hnext hlreal, ?_⟩
      rw [h.silent _ le_rfl, List.nil_append, htext hlreal]
    · rw [Function.update_of_ne hvw] at hv ⊢
      obtain ⟨i, hi, hkey⟩ := h.serving v l hv hlreal
      exact ⟨i, Nat.lt_succ_of_lt hi, hkey⟩
  · intro v v' l hv hv' hlreal
    dsimp only at hv hv'
    by_cases hvw : v = w
    · by_cases hvw' : v' = w
      · rw [hvw, hvw']
      · rw [hvw, Function.update_self] at hv
        cases hv
        rw [Function.update_of_ne hvw'] at hv'
        exact absurd hv' (hfresh hlreal v')
    · rw [Function.update_of_ne hvw] at hv
      by_cases hvw' : v' = w
      · rw [hvw', Function.update_self] at hv'
        cases hv'
        exact absurd hv (hfresh hlreal v)
      · rw [Function.update_of_ne hvw'] at hv'
        exact h.exclusive v v' l hv hv' hlreal
  · intro l i hl hi
    by_cases hin : i = s.taken
    · have harrived := (h.numbered l i hl).2
      rw [hin, hnext] at harrived
      cases harrived
      exact ⟨w, Function.update_self ..⟩
    · obtain ⟨v, hv⟩ := h.served l i hl (Nat.lt_of_le_of_ne (Nat.le_of_lt_succ hi) hin)
      refine ⟨v, ?_⟩
      change Function.update s.serving w _ v = _
      rw [Function.update_of_ne, hv]
      rintro rfl
      rw [hidle] at hv
      cases hv
  · intro i hi
    obtain ⟨hlt, hend⟩ := h.ended i hi
    exact ⟨Nat.lt_succ_of_lt hlt, hend⟩
  · dsimp only
    have hbefore : ¬ Lost real (s.serving w) := hidle ▸ Lost.none
    rw [List.take_add_one, hnext, Option.toList_some, List.countP_append, List.countP_singleton]
    by_cases hreal : real k
    · rw [if_neg (by simpa using hreal)]
      exact h.lost.stay (iff_of_false (Lost.of_real hreal) hbefore)
    · rw [if_pos (by simpa using hreal)]
      exact h.lost.enter hbefore ⟨k, rfl, hreal⟩

omit [DecidableEq κ] in
theorem Invariant.say (h : Invariant real text s) {w : ω} {k : κ} {i : ℕ} {t rest : List α}
    (hserving : s.serving w = some k) (hkey : s.table k = some i) (hsay : s.toSay w = t ++ rest) :
    Invariant real text { s with
      said := Function.update s.said i (s.said i ++ t)
      toSay := Function.update s.toSay w rest } := by
  have hreal := (h.numbered k i hkey).1
  obtain ⟨j, hj, hkey', htext⟩ := h.serving w k hserving hreal
  have hji : i = j := Option.some.inj (hkey.symm.trans hkey')
  subst hji
  refine ⟨h.bounded, h.numbered, h.waiting, ?_, ?_, h.exclusive, h.served, h.finished, ?_, h.once,
    h.lost⟩
  · intro l hl
    dsimp only at hl ⊢
    rw [Function.update_of_ne (by omega)]
    exact h.silent l hl
  · intro v l hv hlreal
    obtain ⟨j, hj', hl, hsaid⟩ := h.serving v l hv hlreal
    refine ⟨j, hj', hl, ?_⟩
    dsimp only
    by_cases hvw : v = w
    · subst hvw
      rw [hserving] at hv
      cases hv
      rw [hkey] at hl
      cases hl
      rw [Function.update_self, Function.update_self, List.append_assoc, ← hsay, htext]
    · have hne : j ≠ i := by
        rintro rfl
        have hsame := (h.numbered l j hl).2
        rw [(h.numbered k j hkey).2] at hsame
        cases hsame
        exact hvw (h.exclusive v w k hv hserving hreal)
      rw [Function.update_of_ne hvw, Function.update_of_ne hne, hsaid]
  · intro l hl
    obtain ⟨hlt, hsaid, m, hm, hmreal⟩ := h.ended l hl
    have hne : l ≠ i := by
      rintro rfl
      rw [(h.numbered k l hkey).2] at hm
      cases hm
      exact (h.finished l k (h.numbered k l hkey).2 hreal).1 hl hkey
    refine ⟨hlt, ?_, m, hm, hmreal⟩
    dsimp only
    rw [Function.update_of_ne hne, hsaid]

omit [DecidableEq κ] in
theorem Invariant.murmur (h : Invariant real text s) {w : ω} {k : κ} (t : List α)
    (hserving : s.serving w = some k) (hreal : ¬ real k) :
    Invariant real text { s with toSay := Function.update s.toSay w t } := by
  refine ⟨h.bounded, h.numbered, h.waiting, h.silent, ?_, h.exclusive, h.served, h.finished,
    h.ended, h.once, h.lost⟩
  intro v l hv hlreal
  have hvw : v ≠ w := by
    rintro rfl
    rw [hserving] at hv
    cases hv
    exact hreal hlreal
  dsimp only
  rw [Function.update_of_ne hvw]
  exact h.serving v l hv hlreal

theorem Invariant.finish (h : Invariant real text s) {w : ω} {k : κ} {i : ℕ}
    (hserving : s.serving w = some k) (hkey : s.table k = some i) (hsay : s.toSay w = []) :
    Invariant real text { s with
      serving := Function.update s.serving w none, table := Function.update s.table k none
      finished := s.finished ++ [i], toSay := Function.update s.toSay w [] } := by
  obtain ⟨hreal, harrived⟩ := h.numbered k i hkey
  obtain ⟨j, hi, hkey', htext⟩ := h.serving w k hserving hreal
  have hji : i = j := Option.some.inj (hkey.symm.trans hkey')
  subst hji
  rw [hsay, List.append_nil] at htext
  -- the other keys keep their numbers
  have hother : ∀ l j, Function.update s.table k none l = some j ↔ l ≠ k ∧ s.table l = some j := by
    intro l j
    by_cases hl : l = k
    · subst hl
      simp
    · simp [hl]
  have hworker : ∀ v l, Function.update s.serving w none v = some l ↔ v ≠ w ∧ s.serving v = some l := by
    intro v l
    by_cases hv : v = w
    · subst hv
      simp
    · simp [hv]
  refine ⟨h.bounded, ?_, ?_, h.silent, ?_, ?_, ?_, ?_, ?_, ?_, ?_⟩
  · intro l j hl
    exact h.numbered l j ((hother l j).1 hl).2
  · intro j l hj hl hlreal
    have hwait := h.waiting j l hj hl hlreal
    refine (hother l j).2 ⟨?_, hwait⟩
    rintro rfl
    rw [hkey] at hwait
    cases hwait
    exact absurd hi (Nat.not_lt.2 hj)
  · intro v l hv hlreal
    obtain ⟨hvw, hvl⟩ := (hworker v l).1 hv
    obtain ⟨j, hj, hl, hsaid⟩ := h.serving v l hvl hlreal
    refine ⟨j, hj, (hother l j).2 ⟨?_, hl⟩, ?_⟩
    · rintro rfl
      exact hvw (h.exclusive v w l hvl hserving hlreal)
    · dsimp only
      rw [Function.update_of_ne hvw, hsaid]
  · intro v v' l hv hv'
    exact h.exclusive v v' l ((hworker v l).1 hv).2 ((hworker v' l).1 hv').2
  · intro l j hl hj
    obtain ⟨hlk, hl⟩ := (hother l j).1 hl
    obtain ⟨v, hv⟩ := h.served l j hl hj
    refine ⟨v, (hworker v l).2 ⟨?_, hv⟩⟩
    rintro rfl
    rw [hserving] at hv
    cases hv
    exact hlk rfl
  · intro j l hl hlreal
    have hnot := not_congr (hother l j)
    dsimp only
    rw [ne_eq, hnot, List.mem_append, List.mem_singleton, h.finished j l hl hlreal]
    by_cases hlk : l = k
    · subst hlk
      rw [hkey]
      have hsame : s.table l ≠ some j ∨ j = i := by
        by_cases hji : j = i
        · exact Or.inr hji
        · refine Or.inl fun hcon => hji ?_
          rw [hkey] at hcon
          cases hcon
          rfl
      rw [hkey] at hsame
      simpa using hsame
    · have hne : j ≠ i := by
        rintro rfl
        rw [harrived] at hl
        cases hl
        exact hlk rfl
      simp [hlk, hne]
  · intro j hj
    rcases List.mem_append.1 hj with hj | hj
    · exact h.ended j hj
    · rw [List.mem_singleton.1 hj]
      exact ⟨hi, htext, k, harrived, hreal⟩
  · refine h.once.append (List.nodup_singleton i) ?_
    rw [List.disjoint_singleton]
    exact fun hcon => (h.finished i k harrived hreal).1 hcon hkey
  · have hbefore : ¬ Lost real (s.serving w) := hserving ▸ Lost.of_real hreal
    exact h.lost.stay (iff_of_false Lost.none hbefore)

theorem Invariant.of_moves (h : Invariant real text s) (hmoves : Moves real text s u) :
    Invariant real text u := by
  cases hmoves with
  | stay => exact h
  | arrive k hreal hfree => exact h.arrive hreal hfree
  | arriveUnreal k hreal => exact h.arriveUnreal hreal
  | take w k t hidle hnext htext => exact h.take hidle hnext htext
  | say w k i t rest hserving hkey hsay => exact h.say hserving hkey hsay
  | murmur w k t hserving hreal => exact h.murmur t hserving hreal
  | finish w k i hserving hkey hsay => exact h.finish hserving hkey hsay

omit [DecidableEq ω] [DecidableEq κ] in
/-- Of every real job a beginning of its text is said. -/
theorem Invariant.said_prefix (h : Invariant real text s) {i : ℕ} {k : κ}
    (hk : s.arrived[i]? = some k) (hreal : real k) : s.said i <+: text i := by
  by_cases hi : i < s.taken
  · by_cases hkey : s.table k = some i
    · obtain ⟨w, hw⟩ := h.served k i hkey hi
      obtain ⟨j, -, hkey', htext⟩ := h.serving w k hw hreal
      cases hkey.symm.trans hkey'
      exact ⟨_, htext⟩
    · rw [(h.ended i ((h.finished i k hk hreal).2 hkey)).2.1]
  · rw [h.silent i (by omega)]
    exact List.nil_prefix

omit [DecidableEq ω] in
/-- Every key that is not free belongs to a job that waits or to a worker. -/
theorem Invariant.keys_le [Fintype ω] (h : Invariant real text s) :
    {k | s.table k ≠ none}.ncard ≤ s.arrived.length - s.taken + Fintype.card ω := by
  let waiting := (s.arrived.drop s.taken).toFinset
  let held := (Finset.univ.image s.serving).eraseNone
  have hsub : {k | s.table k ≠ none} ⊆ ↑(waiting ∪ held) := by
    intro k hk
    obtain ⟨i, hi⟩ := Option.ne_none_iff_exists'.1 hk
    rw [Finset.mem_coe, Finset.mem_union]
    by_cases htaken : i < s.taken
    · obtain ⟨w, hw⟩ := h.served k i hi htaken
      refine Or.inr (Finset.mem_eraseNone.2 ?_)
      exact Finset.mem_image.2 ⟨w, Finset.mem_univ w, hw⟩
    · refine Or.inl (List.mem_toFinset.2 ?_)
      have harrived := (h.numbered k i hi).2
      rw [← Nat.add_sub_of_le (Nat.not_lt.1 htaken), ← List.getElem?_drop] at harrived
      exact List.mem_of_getElem? harrived
  have hwaiting : waiting.card ≤ s.arrived.length - s.taken := by
    rw [← List.length_drop]
    exact List.toFinset_card_le _
  have hheld : held.card ≤ Fintype.card ω :=
    (Finset.card_eraseNone_le _).trans Finset.card_image_le
  calc {k | s.table k ≠ none}.ncard ≤ (waiting ∪ held).card := by
        rw [← Set.ncard_coe_finset]
        exact Set.ncard_le_ncard hsub (Finset.finite_toSet _)
    _ ≤ waiting.card + held.card := Finset.card_union_le _ _
    _ ≤ s.arrived.length - s.taken + Fintype.card ω := Nat.add_le_add hwaiting hheld

omit [DecidablePred real] in
/-- When every worker is lost, jobs only arrive. -/
theorem Moves.of_lost (hmoves : Moves real text s u)
    (hnumbered : ∀ k i, s.table k = some i → real k) (hlost : ∀ w, Lost real (s.serving w)) :
    u.serving = s.serving ∧ u.taken = s.taken ∧ u.finished = s.finished ∧ u.said = s.said := by
  have hunreal : ∀ w k, s.serving w = some k → ¬ real k := by
    intro w k hw
    obtain ⟨l, hl, hreal⟩ := hlost w
    cases hw.symm.trans hl
    exact hreal
  cases hmoves with
  | stay => exact ⟨rfl, rfl, rfl, rfl⟩
  | arrive k hreal hfree => exact ⟨rfl, rfl, rfl, rfl⟩
  | arriveUnreal k hreal => exact ⟨rfl, rfl, rfl, rfl⟩
  | take w k t hidle hnext htext =>
    obtain ⟨l, hl, -⟩ := hlost w
    cases hidle.symm.trans hl
  | say w k i t rest hserving hkey hsay =>
    exact absurd (hnumbered k i hkey) (hunreal w k hserving)
  | murmur w k t hserving hreal => exact ⟨rfl, rfl, rfl, rfl⟩
  | finish w k i hserving hkey hsay =>
    exact absurd (hnumbered k i hkey) (hunreal w k hserving)

end Dispatch
end HydrogenWeb.WorkDispatch
