import HydrogenWeb.TimerQueue

set_option autoImplicit false

/-!
# When the timerfd is armed in time

`resetTimerfd` reads the clock again after the callbacks, so an end time that was in the
future when it was chosen may have passed. Where every end time is still ahead at that
reading, the descriptor is armed for the first timer.
-/
namespace HydrogenWeb.TimerQueue
open TransitionRuns

variable {φ : Type*}

/-- The returns of `addTimerInLoopThread` that are looked at: those outside a callback, or all. -/
inductive Scope where
  | outermost
  | everyCall
deriving DecidableEq

def Armed (q : TimerQueue φ) : Prop :=
  q.timers = [] ∨ ∃ d, q.timerfd = some d ∧ ∀ e ∈ q.timers, d ≤ e.2.endTime

def Returns (scope : Scope) (q : TimerQueue φ) : Action φ → Prop
  | .addTimer _ _ => q.handler = none ∨ scope = .everyCall
  | .leave _ => True
  | _ => False

/-- Every call of `resetTimerfd` so far was early enough, and the descriptor is armed at
the end of the calls. -/
def Kept (scope : Scope) (q : TimerQueue φ) (a : Action φ) : Option (TimerQueue φ) → Prop
  | none => True
  | some r => (∀ c ∈ r.resets, c.2 < c.1) ∧ (Returns scope q a → Armed r)

/-- A timer that becomes the first is added before its end time; a callback that adds a
later one finds the descriptor armed; a handler ends before every pending end time and
every new end time. -/
def InTime (scope : Scope) (q : TimerQueue φ) (a : Action φ) : Option (TimerQueue φ) → Prop
  | none => True
  | some _ =>
    match a with
    | .addTimer t now =>
      if isFirst q.timers t then now < t.endTime
      else scope = .everyCall → q.handler.isSome → q.timerfd.isSome
    | .leave now =>
      (∀ e ∈ q.timers, now < e.2.endTime) ∧
        ∀ h ∈ q.handler, ∀ e ∈ h.expired, e.2.isRepeat → now < h.now + e.2.interval
    | _ => True

structure Invariant (q : TimerQueue φ) : Prop where
  sorted : q.timers.Pairwise fun a b => a.1 ≤ b.1
  key : ∀ e ∈ q.timers, e.1 = e.2.endTime
  onTime : ∀ c ∈ q.resets, c.2 < c.1
  early : ∀ d ∈ q.timerfd, ∀ e ∈ q.timers, d ≤ e.2.endTime
  idle : q.handler = none → q.timers = [] ∨ q.timerfd.isSome

theorem fresh_invariant (clock : ℤ) : Invariant (fresh clock : TimerQueue φ) where
  sorted := List.Pairwise.nil
  key := by simp [fresh]
  onTime := by simp [fresh]
  early := by simp [fresh]
  idle := fun _ => Or.inl rfl

theorem mem_insert {timers : List (TimerEntry φ)} {t : Timer φ} {e : TimerEntry φ} :
    e ∈ insert timers t ↔ e = (t.endTime, t) ∨ e ∈ timers :=
  List.mem_orderedInsert _

theorem insert_sorted {timers : List (TimerEntry φ)} (t : Timer φ)
    (h : timers.Pairwise fun a b => a.1 ≤ b.1) :
    (insert timers t).Pairwise fun a b => a.1 ≤ b.1 := by
  induction timers with
  | nil => exact List.pairwise_singleton _ _
  | cons x timers ih =>
    obtain ⟨hx, htail⟩ := List.pairwise_cons.1 h
    unfold insert at ih ⊢
    rw [List.orderedInsert_cons]
    split
    · rename_i hbefore
      have hle : t.endTime ≤ x.1 := hbefore.elim le_of_lt fun hcon => le_of_eq hcon.1
      refine List.pairwise_cons.2 ⟨?_, h⟩
      intro e he
      rcases List.mem_cons.1 he with rfl | he
      · exact hle
      · exact hle.trans (hx e he)
    · rename_i hbefore
      have hle : x.1 ≤ t.endTime := by
        by_contra hcon
        exact hbefore (Or.inl (not_le.1 hcon))
      refine List.pairwise_cons.2 ⟨?_, ih htail⟩
      intro e he
      rcases (List.mem_orderedInsert _).1 he with rfl | he
      · exact hle
      · exact hx e he

theorem mem_reinsert {timers expired : List (TimerEntry φ)} {now : ℤ} {e : TimerEntry φ} :
    e ∈ reinsert timers expired now ↔ e ∈ timers ∨
      ∃ x ∈ expired, x.2.isRepeat = true ∧ e = ((x.2.restart now).endTime, x.2.restart now) := by
  induction expired generalizing timers with
  | nil => simp [reinsert]
  | cons x expired ih =>
    unfold reinsert at ih ⊢
    rw [List.foldl_cons, ih]
    by_cases hrep : x.2.isRepeat = true
    · rw [if_pos hrep, mem_insert]
      simp only [List.mem_cons, exists_eq_or_imp, hrep, true_and]
      tauto
    · simp [hrep]

theorem reinsert_sorted {timers : List (TimerEntry φ)} (expired : List (TimerEntry φ)) (now : ℤ)
    (h : timers.Pairwise fun a b => a.1 ≤ b.1) :
    (reinsert timers expired now).Pairwise fun a b => a.1 ≤ b.1 := by
  induction expired generalizing timers with
  | nil => exact h
  | cons x expired ih =>
    unfold reinsert at ih ⊢
    rw [List.foldl_cons]
    split
    · exact ih (insert_sorted _ h)
    · exact ih h

theorem restart_endTime {t : Timer φ} (h : t.isRepeat = true) (now : ℤ) :
    (t.restart now).endTime = now + t.interval := by
  rw [Timer.restart, if_pos h]

theorem le_of_isFirst {timers : List (TimerEntry φ)} {t : Timer φ}
    (hsorted : timers.Pairwise fun a b => a.1 ≤ b.1) (hkey : ∀ e ∈ timers, e.1 = e.2.endTime)
    (h : isFirst timers t = true) : ∀ e ∈ insert timers t, t.endTime ≤ e.2.endTime := by
  intro e he
  rcases mem_insert.1 he with rfl | he
  · exact le_rfl
  · rw [← hkey e he]
    cases timers with
    | nil => cases he
    | cons head rest =>
      have hlt : t.endTime < head.1 := by simpa [isFirst] using h
      rcases List.mem_cons.1 he with rfl | he
      · exact hlt.le
      · exact hlt.le.trans ((List.pairwise_cons.1 hsorted).1 e he)

theorem exists_le_of_not_isFirst {timers : List (TimerEntry φ)} {t : Timer φ}
    (h : ¬ isFirst timers t = true) : ∃ e ∈ timers, e.1 ≤ t.endTime := by
  cases timers with
  | nil => exact absurd rfl h
  | cons head rest => exact ⟨head, List.mem_cons_self, by simpa [isFirst] using h⟩

theorem insert_key {timers : List (TimerEntry φ)} (t : Timer φ)
    (hkey : ∀ e ∈ timers, e.1 = e.2.endTime) : ∀ e ∈ insert timers t, e.1 = e.2.endTime := by
  intro e he
  rcases mem_insert.1 he with rfl | he
  · rfl
  · exact hkey e he

/-- Arming in time for a time that no pending timer precedes. -/
theorem resetTimerfd_invariant {q : TimerQueue φ} {expiration now : ℤ}
    (hsorted : q.timers.Pairwise fun a b => a.1 ≤ b.1) (hkey : ∀ e ∈ q.timers, e.1 = e.2.endTime)
    (hresets : ∀ c ∈ q.resets, c.2 < c.1) (hlate : now < expiration)
    (hle : ∀ e ∈ q.timers, expiration ≤ e.2.endTime) :
    Invariant (q.resetTimerfd expiration now) ∧ Armed (q.resetTimerfd expiration now) := by
  have hfd := resetTimerfd_onTime (q := q) hlate
  refine ⟨⟨hsorted, hkey, ?_, ?_, ?_⟩, Or.inr ⟨expiration, hfd, hle⟩⟩
  · intro c hc
    rcases List.mem_append.1 hc with hc | hc
    · exact hresets c hc
    · rw [List.mem_singleton.1 hc]
      exact hlate
  · intro d hd
    rw [hfd] at hd
    cases hd
    exact hle
  · intro _
    exact Or.inr (by rw [hfd]; rfl)

theorem onTime_of_resetTimerfd {q : TimerQueue φ} {expiration now : ℤ}
    (h : ∀ c ∈ (q.resetTimerfd expiration now).resets, c.2 < c.1) : now < expiration :=
  h (expiration, now) (by simp)

theorem addTimer_spec {q : TimerQueue φ} (h : Invariant q) (scope : Scope) (t : Timer φ) (now : ℤ)
    (r : TimerQueue φ) (hr : r = q.effect (.addTimer t now)) :
    (InTime scope q (.addTimer t now) (some r) →
      Invariant r ∧ Kept scope q (.addTimer t now) (some r)) ∧
    (Kept scope q (.addTimer t now) (some r) → InTime scope q (.addTimer t now) (some r)) := by
  simp only [effect, addTimerInLoopThread] at hr
  simp only [InTime, Kept, Returns]
  by_cases hfirst : isFirst q.timers t = true
  · rw [if_pos hfirst] at hr ⊢
    subst hr
    refine ⟨fun hlate => ?_, fun hkept => onTime_of_resetTimerfd hkept.1⟩
    obtain ⟨hinv, harmed⟩ := resetTimerfd_invariant
      (q := { q with clock := now, timers := insert q.timers t }) (insert_sorted t h.sorted)
      (insert_key t h.key) h.onTime hlate (le_of_isFirst h.sorted h.key hfirst)
    exact ⟨hinv, hinv.onTime, fun _ => harmed⟩
  · rw [if_neg hfirst] at hr ⊢
    subst hr
    obtain ⟨x, hx, hle⟩ := exists_le_of_not_isFirst hfirst
    have hearly : ∀ d ∈ q.timerfd, ∀ e ∈ insert q.timers t, d ≤ e.2.endTime := by
      intro d hd e he
      rcases mem_insert.1 he with rfl | he
      · exact (h.early d hd x hx).trans ((h.key x hx).ge.trans hle)
      · exact h.early d hd e he
    have hpending : q.handler = none → q.timerfd.isSome := fun hidle =>
      (h.idle hidle).resolve_left (List.ne_nil_of_mem hx)
    constructor
    · intro hsome
      refine ⟨⟨insert_sorted t h.sorted, insert_key t h.key, h.onTime, hearly, ?_⟩, h.onTime, ?_⟩
      · exact fun hidle => Or.inr (hpending hidle)
      · intro hreturns
        have harmed : q.timerfd.isSome := by
          cases hh : q.handler with
          | none => exact hpending hh
          | some g =>
            rw [hh] at hreturns hsome
            exact hsome (hreturns.resolve_left (nomatch ·)) rfl
        obtain ⟨d, hd⟩ := Option.isSome_iff_exists.1 harmed
        exact Or.inr ⟨d, hd, hearly d hd⟩
    · rintro ⟨-, hkept⟩ hscope -
      rcases hkept (Or.inr hscope) with hnil | ⟨d, hd, -⟩
      · have hmem : (t.endTime, t) ∈ insert q.timers t := mem_insert.2 (Or.inl rfl)
        change insert q.timers t = [] at hnil
        rw [hnil] at hmem
        cases hmem
      · exact Option.isSome_iff_exists.2 ⟨d, hd⟩

theorem all_reinsert {timers expired : List (TimerEntry φ)} {start : ℤ} (p : ℤ → Prop) :
    (∀ e ∈ reinsert timers expired start, p e.2.endTime) ↔
      (∀ e ∈ timers, p e.2.endTime) ∧
        ∀ e ∈ expired, e.2.isRepeat = true → p (start + e.2.interval) := by
  constructor
  · intro h
    refine ⟨fun e he => h e (mem_reinsert.2 (Or.inl he)), fun e he hrep => ?_⟩
    rw [← restart_endTime hrep]
    exact h _ (mem_reinsert.2 (Or.inr ⟨e, he, hrep, rfl⟩))
  · rintro ⟨hold, hnew⟩ e he
    rcases mem_reinsert.1 he with he | ⟨x, hx, hrep, rfl⟩
    · exact hold e he
    · rw [restart_endTime hrep]
      exact hnew x hx hrep

theorem leave_spec {q : TimerQueue φ} (h : Invariant q) (scope : Scope) (now : ℤ)
    (henabled : q.enabled (.leave now) = true) (r : TimerQueue φ)
    (hr : r = q.effect (.leave now)) :
    (InTime scope q (.leave now) (some r) → Invariant r ∧ Kept scope q (.leave now) (some r)) ∧
    (Kept scope q (.leave now) (some r) → InTime scope q (.leave now) (some r)) := by
  obtain ⟨g, hg⟩ : ∃ g, q.handler = some g := by
    cases hh : q.handler with
    | none => simp [enabled, hh] at henabled
    | some g => exact ⟨g, rfl⟩
  simp only [effect, hg, reset] at hr
  simp only [InTime, Kept, Returns, hg, Option.mem_some_iff, forall_eq', true_imp_iff]
  rw [← all_reinsert fun endTime => now < endTime]
  have hsorted := reinsert_sorted g.expired g.now h.sorted
  have hkey : ∀ e ∈ reinsert q.timers g.expired g.now, e.1 = e.2.endTime := by
    intro e he
    rcases mem_reinsert.1 he with he | ⟨x, -, -, rfl⟩
    · exact h.key e he
    · rfl
  generalize hpending : reinsert q.timers g.expired g.now = pending at *
  cases pending with
  | nil =>
    subst hr
    refine ⟨fun _ => ⟨⟨hsorted, hkey, h.onTime, ?_, ?_⟩, h.onTime, Or.inl rfl⟩, fun _ => ?_⟩
    · simp
    · exact fun _ => Or.inl rfl
    · simp
  | cons head rest =>
    subst hr
    have hmin : ∀ e ∈ head :: rest, head.2.endTime ≤ e.2.endTime := by
      intro e he
      rw [← hkey e he, ← hkey head List.mem_cons_self]
      rcases List.mem_cons.1 he with rfl | he
      · exact le_rfl
      · exact (List.pairwise_cons.1 hsorted).1 e he
    constructor
    · intro hlate
      obtain ⟨hinv, harmed⟩ := resetTimerfd_invariant
        (q := { q with clock := now, handler := none, timers := head :: rest }) hsorted hkey
        h.onTime (hlate head List.mem_cons_self) hmin
      exact ⟨hinv, hinv.onTime, harmed⟩
    · rintro ⟨hkept, -⟩ e he
      exact (onTime_of_resetTimerfd hkept).trans_le (hmin e he)

theorem enter_invariant {q : TimerQueue φ} (h : Invariant q) (now : ℤ) (fired : Bool) :
    Invariant (q.effect (.enter now fired)) where
  sorted := h.sorted.sublist (List.dropWhile_sublist _)
  key e he := h.key e ((List.dropWhile_sublist _).subset he)
  onTime := h.onTime
  early := by
    intro d hd e he
    cases fired with
    | true => cases hd
    | false => exact h.early d hd e ((List.dropWhile_sublist _).subset he)
  idle := fun hidle => (nomatch hidle)

theorem runCallback_invariant {q : TimerQueue φ} (h : Invariant q) :
    Invariant (q.effect .runCallback) := by
  unfold effect
  cases hh : q.handler with
  | none => exact h
  | some g => exact ⟨h.sorted, h.key, h.onTime, h.early, fun hidle => (nomatch hidle)⟩

theorem step_spec {q r : TimerQueue φ} (h : Invariant q) (scope : Scope) (a : Action φ)
    (hstep : step q a = some r) :
    (InTime scope q a (some r) → Invariant r ∧ Kept scope q a (some r)) ∧
      (Kept scope q a (some r) → InTime scope q a (some r)) := by
  unfold step at hstep
  split at hstep
  · rename_i henabled
    have hr := (Option.some.inj hstep).symm
    cases a with
    | addTimer t now => exact addTimer_spec h scope t now r hr
    | enter now fired =>
      have hinv := enter_invariant h now fired
      exact ⟨fun _ => ⟨hr ▸ hinv, (hr ▸ hinv).onTime, fun hret => hret.elim⟩, fun _ => trivial⟩
    | runCallback =>
      have hinv := runCallback_invariant h
      exact ⟨fun _ => ⟨hr ▸ hinv, (hr ▸ hinv).onTime, fun hret => hret.elim⟩, fun _ => trivial⟩
    | leave now => exact leave_spec h scope now henabled r hr
  · cases hstep

/-- The descriptor is armed in time throughout a run exactly if every step is in time. -/
theorem kept_iff_inTime (scope : Scope) (clock : ℤ) (as : List (Action φ)) :
    Along step (Kept scope) (fresh clock) as ↔ Along step (InTime scope) (fresh clock) as := by
  refine along_iff Invariant ?_ ?_ as (fresh_invariant clock) (along_true _ _ _)
  · intro q a h _
    cases hstep : step q a with
    | none => exact Iff.rfl
    | some r =>
      obtain ⟨hto, hfrom⟩ := step_spec h scope a hstep
      exact ⟨hfrom, fun hin => (hto hin).2⟩
  · intro q a r h _ hin hstep
    rw [hstep] at hin
    exact ((step_spec h scope a hstep).1 hin).1

/-- A callback that takes as long as the interval of its timer: the duration is zero, and
the descriptor stays disarmed with the timer pending. -/
theorem slow_callback_not_kept :
    ¬ Along step (Kept .outermost) (fresh 0 : TimerQueue Unit)
      [.addTimer ⟨0, (), 10, 10⟩ 0, .enter 10 true, .runCallback, .leave 20] := by
  intro h
  have hlast := ((((h.2 _ rfl).2 _ rfl).2 _ rfl).1).1
  exact absurd (hlast (20, 20) (by decide)) (by decide)

end HydrogenWeb.TimerQueue
