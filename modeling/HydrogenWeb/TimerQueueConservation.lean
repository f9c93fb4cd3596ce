import HydrogenWeb.TimerQueueArming

set_option autoImplicit false

/-!
# Timers are neither lost nor run twice

A timer keeps its address, callback and interval until it is freed. Callbacks are names,
so a run can be asked to name each added timer differently.
-/
namespace HydrogenWeb.TimerQueue
open TransitionRuns

variable {φ : Type*}

def Action.added : Action φ → Option (Timer φ)
  | .addTimer t _ => some t
  | _ => none

def added (as : List (Action φ)) : List (Timer φ) := as.filterMap Action.added

def Action.Inner : Action φ → Prop
  | .addTimer _ _ => True
  | .runCallback => True
  | _ => False

def ident (t : Timer φ) : ℕ × φ × ℤ := (t.addr, t.cb, t.interval)

def idents (l : List (TimerEntry φ)) : Multiset (ℕ × φ × ℤ) := ↑(l.map fun e => ident e.2)

def entry (t : Timer φ) : TimerEntry φ := (t.endTime, t)

def repeating (l : List (TimerEntry φ)) : List (TimerEntry φ) := l.filter fun e => e.2.isRepeat

def oneShot (l : List (TimerEntry φ)) : List (TimerEntry φ) := l.filter fun e => !e.2.isRepeat

def inFlight (q : TimerQueue φ) : List (TimerEntry φ) :=
  q.handler.elim [] fun h => repeating h.expired ++ oneShot h.todo

/-- The pending timers whose end time is reached, in the order of the set. -/
def due (q : TimerQueue φ) (now : ℤ) : List (TimerEntry φ) :=
  q.timers.filter fun e => e.2.endTime ≤ now

def later (q : TimerQueue φ) (now : ℤ) : List (TimerEntry φ) :=
  q.timers.filter fun e => now < e.2.endTime

def restarted (now : ℤ) (e : TimerEntry φ) : TimerEntry φ :=
  (now + e.2.interval, { e.2 with endTime := now + e.2.interval })

/-- `std::set::insert`: an equivalent element keeps the new one out. -/
def setInsert (timers : List (TimerEntry φ)) (t : Timer φ) : List (TimerEntry φ) :=
  if ∃ e ∈ timers, ¬ e.before (entry t) ∧ ¬ (entry t).before e then timers else insert timers t

def setReinsert (timers expired : List (TimerEntry φ)) (now : ℤ) : List (TimerEntry φ) :=
  expired.foldl (fun ts e => if e.2.isRepeat then setInsert ts (e.2.restart now) else ts) timers

def Accepted (q : TimerQueue φ) : Action φ → Prop
  | .addTimer t _ => setInsert q.timers t = insert q.timers t
  | .leave _ => ∀ h ∈ q.handler,
      setReinsert q.timers h.expired h.now = reinsert q.timers h.expired h.now
  | _ => True

theorem setInsert_eq {timers : List (TimerEntry φ)} {t : Timer φ}
    (h : t.addr ∉ timers.map fun e => e.2.addr) : setInsert timers t = insert timers t := by
  apply if_neg
  rintro ⟨e, he, hbefore, hafter⟩
  have hne : e.2.addr ≠ t.addr := fun heq => h (List.mem_map.2 ⟨e, he, heq⟩)
  simp only [TimerEntry.before, entry] at hbefore hafter
  omega

/-- The added timers are those pending, those under way and the one-shot ones that ran. -/
structure Conserved (adds : List (Timer φ)) (q : TimerQueue φ) : Prop where
  balance : idents q.timers + idents q.inFlight + idents (oneShot q.ran) = ↑(adds.map ident)
  distinct : q.addresses.Nodup
  sorted : q.timers.Pairwise fun a b => a.1 ≤ b.1
  key : ∀ e ∈ q.timers, e.1 = e.2.endTime

structure Handled (q : TimerQueue φ) (now : ℤ) (mid : List (Action φ)) (r : TimerQueue φ) :
    Prop where
  ran : r.ran = q.ran ++ q.due now
  once : ((q.due now).map fun e => e.2.addr).Nodup
  inOrder : (q.due now).Pairwise fun a b => a.2.endTime ≤ b.2.endTime
  notAdded : ∀ t ∈ added mid, ∀ e ∈ q.due now, e.2.addr ≠ t.addr
  timers : r.timers.Perm
    (q.later now ++ (added mid).map entry ++ (repeating (q.due now)).map (restarted now))

theorem idents_append (k l : List (TimerEntry φ)) : idents (k ++ l) = idents k + idents l := by
  simp [idents]

theorem idents_cons (e : TimerEntry φ) (l : List (TimerEntry φ)) :
    idents (e :: l) = ident e.2 ::ₘ idents l := rfl

theorem oneShot_append (k l : List (TimerEntry φ)) :
    oneShot (k ++ l) = oneShot k ++ oneShot l := List.filter_append _ _

theorem idents_perm {k l : List (TimerEntry φ)} (h : k.Perm l) : idents k = idents l :=
  Multiset.coe_eq_coe.2 (h.map _)

theorem idents_split (l : List (TimerEntry φ)) :
    idents (repeating l) + idents (oneShot l) = idents l := by
  rw [← idents_append]
  apply idents_perm
  exact List.filter_append_perm _ l

theorem insert_perm (timers : List (TimerEntry φ)) (t : Timer φ) :
    (insert timers t).Perm (entry t :: timers) := List.perm_orderedInsert _ _ timers

theorem restart_entry {e : TimerEntry φ} (h : e.2.isRepeat = true) (now : ℤ) :
    entry (e.2.restart now) = restarted now e := by
  rw [entry, Timer.restart, if_pos h]
  rfl

theorem reinsert_perm (timers expired : List (TimerEntry φ)) (now : ℤ) :
    (reinsert timers expired now).Perm (timers ++ (repeating expired).map (restarted now)) := by
  induction expired generalizing timers with
  | nil => simp [reinsert, repeating]
  | cons x expired ih =>
    unfold reinsert repeating at ih ⊢
    rw [List.foldl_cons, List.filter_cons]
    by_cases hrep : x.2.isRepeat = true
    · rw [if_pos hrep, if_pos hrep, List.map_cons, ← restart_entry hrep]
      apply (ih _).trans
      apply ((insert_perm timers _).append_right _).trans
      exact List.perm_middle.symm
    · rw [if_neg hrep, if_neg hrep]
      exact ih timers

theorem restart_addr (t : Timer φ) (now : ℤ) : (t.restart now).addr = t.addr := by
  rw [Timer.restart]
  split
  · rfl
  · rfl

theorem setReinsert_eq {timers expired : List (TimerEntry φ)} (now : ℤ)
    (h : ((timers ++ expired).map fun e => e.2.addr).Nodup) :
    setReinsert timers expired now = reinsert timers expired now := by
  induction expired generalizing timers with
  | nil => rfl
  | cons x expired ih =>
    have hmoved := (List.perm_middle.map fun e : TimerEntry φ => e.2.addr).nodup_iff.1 h
    obtain ⟨hx, hrest⟩ := List.nodup_cons.1 hmoved
    unfold setReinsert reinsert at ih ⊢
    rw [List.foldl_cons, List.foldl_cons]
    by_cases hrep : x.2.isRepeat = true
    · have hnew : (x.2.restart now).addr ∉ timers.map fun e => e.2.addr := by
        rw [restart_addr]
        rw [List.map_append] at hx
        exact fun hcon => hx (List.mem_append_left _ hcon)
      rw [if_pos hrep, if_pos hrep, setInsert_eq hnew]
      apply ih
      apply (((insert_perm timers _).append_right expired).map _).nodup_iff.2
      apply List.nodup_cons.2
      refine ⟨?_, hrest⟩
      change (x.2.restart now).addr ∉ _
      rw [restart_addr]
      exact hx
    · rw [if_neg hrep, if_neg hrep]
      exact ih hrest

theorem idents_restarted (now : ℤ) (l : List (TimerEntry φ)) :
    idents (l.map (restarted now)) = idents l := by
  simp [idents, restarted, ident, Function.comp_def]

theorem takeWhile_eq_due {timers : List (TimerEntry φ)} (now : ℤ)
    (hsorted : timers.Pairwise fun a b => a.1 ≤ b.1) (hkey : ∀ e ∈ timers, e.1 = e.2.endTime) :
    (timers.takeWhile fun e => e.1 ≤ now) = (timers.filter fun e => e.2.endTime ≤ now) ∧
      (timers.dropWhile fun e => e.1 ≤ now) = timers.filter fun e => now < e.2.endTime := by
  induction timers with
  | nil => exact ⟨rfl, rfl⟩
  | cons x timers ih =>
    obtain ⟨hx, htail⟩ := List.pairwise_cons.1 hsorted
    obtain ⟨hxkey, hkeys⟩ := List.forall_mem_cons.1 hkey
    obtain ⟨htake, hdrop⟩ := ih htail hkeys
    by_cases hle : x.1 ≤ now
    · have hnot : ¬ now < x.2.endTime := by omega
      rw [hxkey] at hle
      simp [hxkey, hle, hnot, htake, hdrop]
    · -- the first timer is not due, so none is
      have hlate : ∀ e ∈ x :: timers, now < e.2.endTime := by
        intro e he
        rw [← hkey e he]
        rcases List.mem_cons.1 he with rfl | he
        · omega
        · have := hx e he
          omega
      rw [List.takeWhile_cons, List.dropWhile_cons, decide_eq_false hle]
      constructor
      · symm
        apply List.filter_eq_nil_iff.2
        intro e he
        simpa using hlate e he
      · symm
        apply List.filter_eq_self.2
        intro e he
        simpa using hlate e he

theorem addTimerInLoopThread_spec (q : TimerQueue φ) (t : Timer φ) (now : ℤ) :
    (q.addTimerInLoopThread t now).timers = insert q.timers t ∧
      (q.addTimerInLoopThread t now).handler = q.handler ∧
      (q.addTimerInLoopThread t now).ran = q.ran := by
  rw [addTimerInLoopThread]
  split
  · exact ⟨rfl, rfl, rfl⟩
  · exact ⟨rfl, rfl, rfl⟩

theorem reset_spec (q : TimerQueue φ) (expired : List (TimerEntry φ)) (start now : ℤ) :
    (q.reset expired start now).timers = reinsert q.timers expired start ∧
      (q.reset expired start now).handler = q.handler ∧
      (q.reset expired start now).ran = q.ran := by
  rw [reset]
  dsimp only
  split
  · exact ⟨rfl, rfl, rfl⟩
  · exact ⟨rfl, rfl, rfl⟩

theorem fresh_conserved (clock : ℤ) : Conserved [] (fresh clock : TimerQueue φ) where
  balance := rfl
  distinct := List.nodup_nil
  sorted := List.Pairwise.nil
  key := by simp [fresh]

theorem step_eq_some {q r : TimerQueue φ} {a : Action φ} (h : step q a = some r) :
    q.enabled a = true ∧ r = q.effect a := by
  rw [step] at h
  split at h
  · rename_i henabled
    exact ⟨henabled, (Option.some.inj h).symm⟩
  · cases h

theorem addTimer_conserved {adds : List (Timer φ)} {q : TimerQueue φ} (h : Conserved adds q)
    {t : Timer φ} {now : ℤ} (henabled : q.enabled (.addTimer t now) = true) :
    Conserved (adds ++ [t]) (q.effect (.addTimer t now)) := by
  obtain ⟨htimers, hhandler, hran⟩ :=
    addTimerInLoopThread_spec { q with clock := now } t now
  have hnew : t.addr ∉ q.addresses := by
    simp [enabled] at henabled
    exact henabled.2
  have hperm := insert_perm q.timers t
  constructor
  · rw [effect, inFlight, htimers, hhandler, hran, idents_perm hperm, idents_cons,
      List.map_append, ← Multiset.coe_add, ← h.balance, Multiset.cons_add, Multiset.cons_add,
      ← Multiset.singleton_add, add_comm]
    rfl
  · rw [effect, addresses, htimers, hhandler]
    apply ((hperm.append_right _).map _).nodup_iff.2
    exact List.nodup_cons.2 ⟨hnew, h.distinct⟩
  · rw [effect, htimers]
    exact insert_sorted t h.sorted
  · rw [effect, htimers]
    exact insert_key t h.key

theorem enter_conserved {adds : List (Timer φ)} {q : TimerQueue φ} (h : Conserved adds q)
    {now : ℤ} {fired : Bool} (hidle : q.handler = none) :
    Conserved adds (q.effect (.enter now fired)) := by
  let taken := q.timers.takeWhile fun e => e.1 ≤ now
  have hperm : ((q.effect (.enter now fired)).timers ++ taken).Perm q.timers :=
    List.perm_append_comm.trans (List.Perm.of_eq List.takeWhile_append_dropWhile)
  have hsub := List.dropWhile_sublist (l := q.timers) fun e : TimerEntry φ => e.1 ≤ now
  constructor
  · have hbalance := h.balance
    rw [inFlight, hidle] at hbalance
    change _ + idents (repeating taken ++ oneShot taken) + idents (oneShot q.ran) = _
    rw [idents_append, idents_split, ← idents_append, idents_perm hperm, ← hbalance]
    simp [idents]
  · have hdistinct := h.distinct
    rw [addresses, hidle, Option.elim_none, List.append_nil] at hdistinct
    exact (hperm.map _).nodup_iff.2 hdistinct
  · exact h.sorted.sublist hsub
  · intro e he
    exact h.key e (hsub.subset he)

theorem runCallback_conserved {adds : List (Timer φ)} {q : TimerQueue φ} (h : Conserved adds q)
    {g : Expiration φ} (hg : q.handler = some g) (htodo : g.todo ≠ []) :
    Conserved adds (q.effect .runCallback) := by
  obtain ⟨x, rest, hx⟩ := List.exists_cons_of_ne_nil htodo
  have hbalance := h.balance
  have hdistinct := h.distinct
  rw [inFlight, hg] at hbalance
  rw [addresses, hg] at hdistinct
  rw [effect, hg]
  constructor
  · rw [← hbalance]
    change _ + idents (repeating g.expired ++ oneShot g.todo.tail) +
      idents (oneShot (q.ran ++ g.todo.take 1)) = _ + idents (repeating g.expired ++ oneShot g.todo) + _
    have htake : oneShot g.todo = oneShot (g.todo.take 1) ++ oneShot g.todo.tail := by
      rw [← oneShot_append, ← List.drop_one, List.take_append_drop]
    rw [htake, oneShot_append]
    simp only [idents_append]
    abel
  · exact hdistinct
  · exact h.sorted
  · exact h.key

theorem leave_conserved {adds : List (Timer φ)} {q : TimerQueue φ} (h : Conserved adds q)
    {now : ℤ} {g : Expiration φ} (hg : q.handler = some g) (htodo : g.todo = []) :
    Conserved adds (q.effect (.leave now)) := by
  have hbalance := h.balance
  have hdistinct := h.distinct
  rw [inFlight, hg] at hbalance
  rw [addresses, hg] at hdistinct
  rw [effect, hg]
  obtain ⟨htimers, hhandler, hran⟩ :=
    reset_spec { q with clock := now, handler := none } g.expired g.now now
  have hperm := reinsert_perm q.timers g.expired g.now
  constructor
  · rw [inFlight, htimers, hhandler, hran, idents_perm hperm, ← hbalance, idents_append,
      idents_restarted]
    simp [htodo, oneShot, idents]
  · rw [addresses, htimers, hhandler, Option.elim_none, List.append_nil]
    apply (hperm.map _).nodup_iff.2
    refine List.Nodup.sublist ?_ hdistinct
    rw [List.map_append, List.map_append, List.map_map]
    apply List.Sublist.append_left
    exact List.filter_sublist.map _
  · rw [htimers]
    exact reinsert_sorted g.expired g.now h.sorted
  · rw [htimers]
    intro e he
    rcases mem_reinsert.1 he with he | ⟨x, -, -, rfl⟩
    · exact h.key e he
    · rfl

theorem step_conserved {adds : List (Timer φ)} {q r : TimerQueue φ} (h : Conserved adds q)
    {a : Action φ} (hstep : step q a = some r) : Conserved (adds ++ added [a]) r := by
  obtain ⟨henabled, rfl⟩ := step_eq_some hstep
  cases a with
  | addTimer t now => exact addTimer_conserved h henabled
  | enter now fired =>
    rw [added, List.filterMap_cons_none rfl, List.filterMap_nil, List.append_nil]
    apply enter_conserved h
    simp [enabled] at henabled
    exact henabled.1.2
  | runCallback =>
    rw [added, List.filterMap_cons_none rfl, List.filterMap_nil, List.append_nil]
    cases hg : q.handler with
    | none => simp [enabled, hg] at henabled
    | some g =>
      apply runCallback_conserved h hg
      simpa [enabled, hg] using henabled
  | leave now =>
    rw [added, List.filterMap_cons_none rfl, List.filterMap_nil, List.append_nil]
    cases hg : q.handler with
    | none => simp [enabled, hg] at henabled
    | some g =>
      apply leave_conserved h hg
      simp [enabled, hg] at henabled
      exact henabled.2

theorem Conserved.accepted {adds : List (Timer φ)} {q : TimerQueue φ} (h : Conserved adds q)
    {a : Action φ} (henabled : q.enabled a = true) : Accepted q a := by
  have hdistinct := h.distinct
  cases a with
  | addTimer t now =>
    apply setInsert_eq
    simp only [enabled, Bool.and_eq_true, decide_eq_true_eq] at henabled
    rw [addresses, List.map_append] at henabled
    exact fun hcon => henabled.2 (List.mem_append_left _ hcon)
  | enter now fired => trivial
  | runCallback => trivial
  | leave now =>
    intro g hg
    apply setReinsert_eq
    rw [addresses, hg] at hdistinct
    exact hdistinct

theorem run_conserved {adds : List (Timer φ)} {q r : TimerQueue φ} (h : Conserved adds q)
    {as : List (Action φ)} (hrun : run step q as = some r) : Conserved (adds ++ added as) r := by
  induction as generalizing adds q with
  | nil =>
    cases hrun
    rw [added, List.filterMap_nil, List.append_nil]
    exact h
  | cons a as ih =>
    rw [run_cons, Option.bind_eq_some_iff] at hrun
    obtain ⟨u, hu, htail⟩ := hrun
    have htotal := ih (step_conserved h hu) htail
    rw [List.append_assoc, added, added, ← List.filterMap_append] at htotal
    exact htotal

structure Handling (q : TimerQueue φ) (now : ℤ) (mid : List (Action φ)) (u : TimerQueue φ) :
    Prop where
  ran : ∃ k, u.ran = q.ran ++ (q.due now).take k ∧
    u.handler = some ⟨now, q.due now, (q.due now).drop k⟩
  notAdded : ∀ t ∈ added mid, ∀ e ∈ q.due now, e.2.addr ≠ t.addr
  timers : u.timers.Perm (q.later now ++ (added mid).map entry)

theorem enter_handling {adds : List (Timer φ)} {q u : TimerQueue φ} (h : Conserved adds q)
    {now : ℤ} {fired : Bool} (hstep : step q (.enter now fired) = some u) :
    Handling q now [] u := by
  obtain ⟨-, rfl⟩ := step_eq_some hstep
  obtain ⟨htake, hdrop⟩ := takeWhile_eq_due now h.sorted h.key
  constructor
  · refine ⟨0, by simp [effect], ?_⟩
    rw [effect, htake]
    rfl
  · simp [added]
  · rw [effect, hdrop]
    simp [added, later]

theorem inner_handling {q u v : TimerQueue φ} {now : ℤ} {mid : List (Action φ)}
    (h : Handling q now mid u) {a : Action φ} (ha : a.Inner) (hstep : step u a = some v) :
    Handling q now (mid ++ [a]) v := by
  obtain ⟨henabled, rfl⟩ := step_eq_some hstep
  obtain ⟨k, hran, hhandler⟩ := h.ran
  cases a with
  | enter _ _ => exact ha.elim
  | leave _ => exact ha.elim
  | addTimer t clock =>
    obtain ⟨htimers, hhandler', hran'⟩ :=
      addTimerInLoopThread_spec { u with clock := clock } t clock
    have hadded : added (mid ++ [.addTimer t clock]) = added mid ++ [t] := by
      rw [added, List.filterMap_append]
      rfl
    constructor
    · refine ⟨k, ?_, ?_⟩
      · rw [effect, hran']
        exact hran
      · rw [effect, hhandler']
        exact hhandler
    · rw [hadded]
      intro s hs e he
      rcases List.mem_append.1 hs with hs | hs
      · exact h.notAdded s hs e he
      · rw [List.mem_singleton.1 hs]
        intro heq
        simp only [enabled, Bool.and_eq_true, decide_eq_true_eq] at henabled
        apply henabled.2
        rw [addresses, hhandler]
        exact List.mem_map.2 ⟨e, List.mem_append_right _ he, heq⟩
    · rw [effect, htimers, hadded, List.map_append, ← List.append_assoc]
      apply (insert_perm u.timers t).trans
      apply (h.timers.cons _).trans
      exact List.perm_append_singleton _ _ |>.symm
  | runCallback =>
    have hadded : added (mid ++ [.runCallback]) = added mid := by
      rw [added, List.filterMap_append]
      exact List.append_nil _
    rw [effect, hhandler]
    constructor
    · refine ⟨k + 1, ?_, ?_⟩
      · change u.ran ++ ((q.due now).drop k).take 1 = _
        rw [hran, List.append_assoc, ← List.take_add]
      · simp
    · rw [hadded]
      exact h.notAdded
    · rw [hadded]
      exact h.timers

theorem run_handling {q u v : TimerQueue φ} {now : ℤ} {mid as : List (Action φ)}
    (h : Handling q now mid u) (has : ∀ a ∈ as, a.Inner) (hrun : run step u as = some v) :
    Handling q now (mid ++ as) v := by
  induction as generalizing mid u with
  | nil =>
    cases hrun
    rw [List.append_nil]
    exact h
  | cons a as ih =>
    obtain ⟨ha, htail⟩ := List.forall_mem_cons.1 has
    rw [run_cons, Option.bind_eq_some_iff] at hrun
    obtain ⟨w, hw, hrest⟩ := hrun
    rw [List.append_cons]
    exact ih (inner_handling h ha hw) htail hrest

theorem leave_handled {adds : List (Timer φ)} {q u r : TimerQueue φ} (hq : Conserved adds q)
    {now after : ℤ} {mid : List (Action φ)} (h : Handling q now mid u)
    (hstep : step u (.leave after) = some r) : Handled q now mid r := by
  obtain ⟨henabled, rfl⟩ := step_eq_some hstep
  obtain ⟨k, hran, hhandler⟩ := h.ran
  obtain ⟨htimers, -, hran'⟩ :=
    reset_spec { u with clock := after, handler := none } (q.due now) now after
  have hall : (q.due now).take k = q.due now := by
    simp only [enabled, hhandler, Option.any_some, Bool.and_eq_true, List.isEmpty_iff] at henabled
    exact List.take_of_length_le (List.drop_eq_nil_iff.1 henabled.2)
  have hsub : (q.due now).Sublist q.timers := List.filter_sublist
  constructor
  · rw [effect, hhandler, hran']
    exact hran.trans (by rw [hall])
  · have hdistinct := hq.distinct
    rw [addresses, List.map_append] at hdistinct
    exact (List.nodup_append.1 hdistinct).1.sublist (hsub.map _)
  · apply (hq.sorted.sublist hsub).imp_of_mem
    intro a b ha hb hle
    rwa [hq.key a (hsub.subset ha), hq.key b (hsub.subset hb)] at hle
  · exact h.notAdded
  · rw [effect, hhandler, htimers]
    exact (reinsert_perm _ _ _).trans (h.timers.append_right _)

/-- In every run no timer is lost or duplicated, and every `timerHandler` runs exactly the
timers that were due when it started, once each and in order of their end times. -/
theorem conserved_and_handled (clock : ℤ) (as : List (Action φ)) (q : TimerQueue φ)
    (hrun : run step (fresh clock) as = some q) :
    idents q.timers + idents q.inFlight + idents (oneShot q.ran) = ↑((added as).map ident) ∧
      (q.handler = none → q.inFlight = []) ∧
      (∀ a, q.enabled a = true → Accepted q a) ∧
      ∀ now fired mid after r, (∀ a ∈ mid, Action.Inner a) →
        run step q (.enter now fired :: mid ++ [.leave after]) = some r → Handled q now mid r := by
  have h := run_conserved (fresh_conserved clock) hrun
  refine ⟨h.balance, fun hidle => by rw [inFlight, hidle]; rfl, fun _ => h.accepted, ?_⟩
  intro now fired mid after r hmid hcall
  rw [List.cons_append, run_cons, Option.bind_eq_some_iff] at hcall
  obtain ⟨u, hu, hrest⟩ := hcall
  rw [run_append, Option.bind_eq_some_iff] at hrest
  obtain ⟨v, hv, hlast⟩ := hrest
  rw [run_cons, Option.bind_eq_some_iff] at hlast
  obtain ⟨w, hw, hnil⟩ := hlast
  cases hnil
  exact leave_handled h (run_handling (enter_handling h hu) hmid hv) hw

/-- Two timers with one end time, the first of which adds a third for the same time. -/
theorem conserved_and_handled_with_a_tie : ∃ q r : TimerQueue ℕ,
    run step (fresh 0) [.addTimer ⟨1, 0, 10, 0⟩ 0, .addTimer ⟨2, 1, 10, 5⟩ 0] = some q ∧
    run step q (.enter 10 true :: [.runCallback, .addTimer ⟨3, 2, 10, 0⟩ 10, .runCallback] ++
      [.leave 11]) = some r ∧
    Handled q 10 [.runCallback, .addTimer ⟨3, 2, 10, 0⟩ 10, .runCallback] r := by
  refine ⟨_, _, rfl, rfl, ?_⟩
  exact (conserved_and_handled 0 [.addTimer ⟨1, 0, 10, 0⟩ 0, .addTimer ⟨2, 1, 10, 5⟩ 0] _
    rfl).2.2.2 10 true _ 11 _ (by simp [Action.Inner]) rfl

end HydrogenWeb.TimerQueue
