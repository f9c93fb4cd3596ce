import HydrogenWeb.TimerQueueConservation

set_option autoImplicit false

/-!
# The pace of a repeating timer

A repeating timer starts again from the time that its handler read. So the handlers that run it
have read times an interval apart at least, whatever its callbacks take, and `runEvery` runs its
callback at most once for each interval that has passed.
-/
namespace HydrogenWeb.TimerQueue
open TransitionRuns

variable {φ : Type*}

/-- The timer that `EventLoop::runEvery` makes; `now` is the time it reads. -/
def runEvery (addr : ℕ) (cb : φ) (interval now : ℤ) : Timer φ := ⟨addr, cb, now + interval, interval⟩

/-- What an action runs, with the time that the `timerHandler` has read. -/
def logged (q : TimerQueue φ) : Action φ → List (ℤ × TimerEntry φ)
  | .runCallback => q.handler.elim [] fun h => (h.todo.take 1).map fun e => (h.now, e)
  | _ => []

def runLog (q : TimerQueue φ) : List (Action φ) → List (ℤ × TimerEntry φ)
  | [] => []
  | a :: as => q.logged a ++ ((step q a).map fun r => runLog r as).getD []

def held (q : TimerQueue φ) : List (TimerEntry φ) :=
  q.timers ++ q.handler.elim [] Expiration.expired

def upcoming (q : TimerQueue φ) : List (TimerEntry φ) :=
  q.timers ++ q.handler.elim [] Expiration.todo

/-- The entry `b` of the repeating timer that ran as `a` comes an interval behind the time that the
handler of `a` had read. -/
def Spaced (a : ℤ × TimerEntry φ) (b : TimerEntry φ) : Prop :=
  a.2.2.isRepeat = true → ident b.2 = ident a.2.2 → a.1 + a.2.2.interval ≤ b.1

structure Paced (adds : List (Timer φ)) (log : List (ℤ × TimerEntry φ)) (q : TimerQueue φ) :
    Prop where
  ran : log.map Prod.snd = q.ran
  past : ∀ r ∈ log, r.2.1 ≤ r.1 ∧ r.1 ≤ q.clock
  handling : ∀ h ∈ q.handler, h.now ≤ q.clock ∧ (∀ r ∈ log, r.1 ≤ h.now) ∧
    (∀ e ∈ h.expired, e.1 ≤ h.now) ∧ h.todo <:+ h.expired
  spaced : log.Pairwise fun a b => Spaced a b.2
  next : ∀ r ∈ log, ∀ e ∈ q.upcoming, Spaced r e
  origin : ∀ e ∈ q.held ++ q.ran,
    ∃ t ∈ adds, ident e.2 = ident t ∧ (t.isRepeat = false → e = entry t)
  alive : ∀ t ∈ adds, t.isRepeat = true → ∃ e ∈ q.held, ident e.2 = ident t
  since : ∀ t ∈ adds, t.isRepeat = true → ∀ e ∈ q.held ++ q.ran, ident e.2 = ident t →
    t.endTime ≤ e.1

theorem isRepeat_of_ident {t u : Timer φ} (h : ident t = ident u) : t.isRepeat = u.isRepeat := by
  rw [ident, ident, Prod.mk.injEq, Prod.mk.injEq] at h
  rw [Timer.isRepeat, Timer.isRepeat, h.2.2]

theorem addr_of_ident {t u : Timer φ} (h : ident t = ident u) : t.addr = u.addr := by
  rw [ident, ident, Prod.mk.injEq] at h
  exact h.1

theorem interval_of_ident {t u : Timer φ} (h : ident t = ident u) : t.interval = u.interval := by
  rw [ident, ident, Prod.mk.injEq, Prod.mk.injEq] at h
  exact h.2.2

theorem fresh_paced (clock : ℤ) : Paced [] [] (fresh clock : TimerQueue φ) := by
  constructor <;> simp [fresh, held]

variable {adds : List (Timer φ)} {log : List (ℤ × TimerEntry φ)} {q r : TimerQueue φ}

theorem Paced.ran_mem (h : Paced adds log q) {a : ℤ × TimerEntry φ} (ha : a ∈ log) : a.2 ∈ q.ran :=
  h.ran ▸ List.mem_map_of_mem ha

/-- The address of a repeating timer stays in use. -/
theorem Paced.addr_mem (h : Paced adds log q) {e : TimerEntry φ} (he : e ∈ q.held ++ q.ran) (hrepeat : e.2.isRepeat = true) :
    e.2.addr ∈ q.addresses := by
  obtain ⟨t, ht, heq, -⟩ := h.origin e he
  obtain ⟨d, hd, hsame⟩ := h.alive t ht (by rw [← isRepeat_of_ident heq, hrepeat])
  have haddr : d.2.addr = e.2.addr := addr_of_ident (hsame.trans heq.symm)
  rw [← haddr]
  exact List.mem_map_of_mem hd

theorem addTimer_clock (q : TimerQueue φ) (t : Timer φ) (now : ℤ) :
    (q.addTimerInLoopThread t now).clock = q.clock := by
  rw [addTimerInLoopThread]
  split <;> rfl

theorem reset_clock (q : TimerQueue φ) (expired : List (TimerEntry φ)) (start now : ℤ) :
    (q.reset expired start now).clock = q.clock := by
  rw [reset]
  dsimp only
  split <;> rfl

theorem addTimer_paced (h : Paced adds log q) {t : Timer φ} {now : ℤ}
    (henabled : q.enabled (.addTimer t now) = true) :
    Paced (adds ++ [t]) log (q.effect (.addTimer t now)) := by
  obtain ⟨htimers, hhandler, hran⟩ := addTimerInLoopThread_spec { q with clock := now } t now
  have hclock : (q.effect (.addTimer t now)).clock = now := addTimer_clock _ t now
  obtain ⟨hlater, hnew⟩ : q.clock ≤ now ∧ t.addr ∉ q.addresses := by
    simpa [enabled] using henabled
  have hheld : ∀ e, e ∈ (q.effect (.addTimer t now)).held ↔ e = (t.endTime, t) ∨ e ∈ q.held := by
    intro e
    rw [effect, held, htimers, hhandler, List.mem_append, mem_insert, held, List.mem_append, or_assoc]
  have hupcoming : ∀ e ∈ (q.effect (.addTimer t now)).upcoming, e = (t.endTime, t) ∨ e ∈ q.upcoming := by
    intro e he
    rw [effect, upcoming, htimers, hhandler, List.mem_append, mem_insert, or_assoc] at he
    rw [upcoming, List.mem_append]
    exact he
  have hran : (q.effect (.addTimer t now)).ran = q.ran := hran
  have hhandler : (q.effect (.addTimer t now)).handler = q.handler := hhandler
  -- the address of the new timer is not that of a repeating one
  have hother : ∀ e ∈ q.held ++ q.ran, e.2.isRepeat = true → ident t ≠ ident e.2 := by
    intro e he hrepeat hsame
    rw [addr_of_ident hsame] at hnew
    exact hnew (h.addr_mem he hrepeat)
  have hmem : ∀ e ∈ (q.effect (.addTimer t now)).held ++ (q.effect (.addTimer t now)).ran,
      e = (t.endTime, t) ∨ e ∈ q.held ++ q.ran := by
    intro e he
    rw [List.mem_append, hheld, hran, or_assoc] at he
    rw [List.mem_append]
    exact he
  constructor
  · rw [hran]
    exact h.ran
  · intro r hr
    rw [hclock]
    exact (h.past r hr).imp_right fun hpast => hpast.trans hlater
  · intro g hg
    rw [hhandler] at hg
    obtain ⟨hnow, hrest⟩ := h.handling g hg
    rw [hclock]
    exact ⟨hnow.trans hlater, hrest⟩
  · exact h.spaced
  · intro r hr e he
    rcases hupcoming e he with rfl | he
    · intro hrepeat hsame
      exact absurd hsame (hother r.2 (List.mem_append_right _ (h.ran_mem hr)) hrepeat)
    · exact h.next r hr e he
  · intro e he
    rcases hmem e he with rfl | he
    · exact ⟨t, by simp, rfl, fun _ => rfl⟩
    · obtain ⟨u, hu, hsame⟩ := h.origin e he
      exact ⟨u, List.mem_append_left _ hu, hsame⟩
  · intro u hu hrepeat
    rcases List.mem_append.1 hu with hu | hu
    · obtain ⟨e, he, hsame⟩ := h.alive u hu hrepeat
      exact ⟨e, (hheld e).2 (Or.inr he), hsame⟩
    · rw [List.mem_singleton] at hu
      exact ⟨(t.endTime, t), (hheld _).2 (Or.inl rfl), by rw [hu]⟩
  · intro u hu hrepeat e he hsame
    rcases List.mem_append.1 hu with hu | hu
    · rcases hmem e he with rfl | he
      · obtain ⟨d, hd, hident⟩ := h.alive u hu hrepeat
        have hd' : d ∈ q.held ++ q.ran := List.mem_append_left _ hd
        refine absurd (hsame.trans hident.symm) (hother d hd' ?_)
        rw [isRepeat_of_ident hident, hrepeat]
      · exact h.since u hu hrepeat e he hsame
    · rw [List.mem_singleton] at hu
      subst hu
      rcases hmem e he with rfl | he
      · exact le_rfl
      · refine absurd hsame.symm (hother e he ?_)
        rw [isRepeat_of_ident hsame, hrepeat]

theorem enter_paced (h : Paced adds log q) {now : ℤ} {fired : Bool} (hlater : q.clock ≤ now)
    (hidle : q.handler = none) : Paced adds log (q.effect (.enter now fired)) := by
  let taken := q.timers.takeWhile fun e => e.1 ≤ now
  let left := q.timers.dropWhile fun e => e.1 ≤ now
  have hsplit : taken ++ left = q.timers := List.takeWhile_append_dropWhile
  have hheld : ∀ e, e ∈ left ++ taken ↔ e ∈ q.held := by
    intro e
    rw [held, hidle, Option.elim_none, List.append_nil, ← hsplit, List.mem_append, List.mem_append,
      or_comm]
  have hupcoming : ∀ e ∈ left ++ taken, e ∈ q.upcoming := by
    intro e he
    rw [upcoming, hidle, Option.elim_none, List.append_nil, ← hsplit]
    rw [List.mem_append, or_comm, ← List.mem_append] at he
    exact he
  have hmem : ∀ e, e ∈ (left ++ taken) ++ q.ran ↔ e ∈ q.held ++ q.ran := by
    intro e
    rw [List.mem_append, hheld, ← List.mem_append]
  have hpast : ∀ r ∈ log, r.1 ≤ now := fun r hr => (h.past r hr).2.trans hlater
  constructor
  · exact h.ran
  · exact fun r hr => ⟨(h.past r hr).1, hpast r hr⟩
  · intro g hg
    cases hg
    have htaken : ∀ e ∈ taken, e.1 ≤ now := fun e he => by
      simpa using List.mem_takeWhile_imp he
    exact ⟨le_rfl, hpast, htaken, List.suffix_refl _⟩
  · exact h.spaced
  · exact fun r hr e he => h.next r hr e (hupcoming e he)
  · exact fun e he => h.origin e ((hmem e).1 he)
  · intro t ht hrepeat
    obtain ⟨e, he, hsame⟩ := h.alive t ht hrepeat
    exact ⟨e, (hheld e).2 he, hsame⟩
  · exact fun t ht hrepeat e he => h.since t ht hrepeat e ((hmem e).1 he)

/-- No other entry has the address of the timer that runs. -/
theorem addr_ne_of_running (hc : Conserved adds q) {g : Expiration φ} (hg : q.handler = some g)
    {x : TimerEntry φ} {rest : List (TimerEntry φ)} (hrest : x :: rest <:+ g.expired) :
    ∀ e ∈ q.timers ++ rest, e.2.addr ≠ x.2.addr := by
  have hheld : q.held = q.timers ++ g.expired := by rw [held, hg]; rfl
  have hnodup : ((q.timers ++ g.expired).map fun e => e.2.addr).Nodup := by
    rw [← hheld]
    exact hc.distinct
  have hsub : ((q.timers ++ x :: rest).map fun e => e.2.addr).Nodup :=
    hnodup.sublist ((List.Sublist.append_left hrest.sublist _).map _)
  have hperm : ((q.timers ++ x :: rest).map fun e => e.2.addr).Perm
      (x.2.addr :: (q.timers ++ rest).map fun e => e.2.addr) :=
    List.perm_middle.map _
  have hfresh := (List.nodup_cons.1 (hperm.nodup_iff.1 hsub)).1
  exact fun e he heq => hfresh (heq ▸ List.mem_map_of_mem he)

theorem runCallback_paced (hc : Conserved adds q) (h : Paced adds log q) {g : Expiration φ}
    (hg : q.handler = some g) (htodo : g.todo ≠ []) :
    Paced adds (log ++ q.logged .runCallback) (q.effect .runCallback) := by
  obtain ⟨x, rest, hx⟩ := List.exists_cons_of_ne_nil htodo
  obtain ⟨hnow, hbefore, hexpired, hsuffix⟩ := h.handling g (by rw [hg]; rfl)
  have hrest : x :: rest <:+ g.expired := hx ▸ hsuffix
  have hxexp : x ∈ g.expired := hrest.subset List.mem_cons_self
  have hheld : q.held = q.timers ++ g.expired := by rw [held, hg]; rfl
  have hupcoming : q.upcoming = q.timers ++ x :: rest := by rw [upcoming, hg, ← hx]; rfl
  have hran : (q.effect .runCallback).ran = q.ran ++ [x] := by simp [effect, hg, hx]
  have hhandler : (q.effect .runCallback).handler = some { g with todo := rest } := by
    simp [effect, hg, hx]
  have htimers : (q.effect .runCallback).timers = q.timers := by rw [effect, hg]
  have hclock : (q.effect .runCallback).clock = q.clock := by rw [effect, hg]
  have hheld' : (q.effect .runCallback).held = q.held := by
    rw [held, hhandler, htimers, hheld]
    rfl
  have hxheld : x ∈ q.held := by
    rw [hheld]
    exact List.mem_append_right _ hxexp
  have hmem : ∀ e ∈ (q.effect .runCallback).held ++ (q.effect .runCallback).ran,
      e ∈ q.held ++ q.ran := by
    intro e he
    rw [hheld', hran, List.mem_append, List.mem_append, List.mem_singleton] at he
    rw [List.mem_append]
    rcases he with he | he | rfl
    · exact Or.inl he
    · exact Or.inr he
    · exact Or.inl hxheld
  have hother := addr_ne_of_running hc hg hrest
  have hlog : q.logged .runCallback = [(g.now, x)] := by simp [logged, hg, hx]
  rw [hlog]
  constructor
  · rw [hran, List.map_append, h.ran]
    rfl
  · intro r hr
    rw [List.mem_append, List.mem_singleton] at hr
    rw [hclock]
    rcases hr with hr | rfl
    · exact h.past r hr
    · exact ⟨hexpired x hxexp, hnow⟩
  · intro g' hg'
    rw [hhandler] at hg'
    cases hg'
    rw [hclock]
    refine ⟨hnow, fun r hr => ?_, hexpired, (List.suffix_cons x rest).trans hrest⟩
    rw [List.mem_append, List.mem_singleton] at hr
    rcases hr with hr | rfl
    · exact hbefore r hr
    · exact le_rfl
  · rw [List.pairwise_append]
    refine ⟨h.spaced, List.pairwise_singleton _ _, fun r hr e he => ?_⟩
    rw [List.mem_singleton] at he
    rw [he]
    exact h.next r hr x (by rw [hupcoming]; simp)
  · intro r hr e he
    rw [upcoming, hhandler, htimers] at he
    have he : e ∈ q.timers ++ rest := he
    rw [List.mem_append, List.mem_singleton] at hr
    rcases hr with hr | rfl
    · refine h.next r hr e ?_
      rw [hupcoming]
      rcases List.mem_append.1 he with he | he
      · exact List.mem_append_left _ he
      · exact List.mem_append_right _ (List.mem_cons_of_mem _ he)
    · exact fun _ hsame => absurd (addr_of_ident hsame) (hother e he)
  · exact fun e he => h.origin e (hmem e he)
  · rw [hheld']
    exact h.alive
  · exact fun t ht hrepeat e he => h.since t ht hrepeat e (hmem e he)

theorem leave_paced (h : Paced adds log q) {now : ℤ} {g : Expiration φ} (hg : q.handler = some g)
    (htodo : g.todo = []) (hlater : q.clock ≤ now) :
    Paced adds log (q.effect (.leave now)) := by
  obtain ⟨hnow, hbefore, hexpired, -⟩ := h.handling g (by rw [hg]; rfl)
  obtain ⟨htimers, hhandler, hran⟩ :=
    reset_spec { q with clock := now, handler := none } g.expired g.now now
  have heffect : q.effect (.leave now) =
      { q with clock := now, handler := none }.reset g.expired g.now now := by rw [effect, hg]
  have hclock : (q.effect (.leave now)).clock = now := by rw [heffect, reset_clock]
  rw [← heffect] at htimers hhandler hran
  have hran : (q.effect (.leave now)).ran = q.ran := hran
  have hheld : q.held = q.timers ++ g.expired := by rw [held, hg]; rfl
  have hupcoming : q.upcoming = q.timers := by
    rw [upcoming, hg, Option.elim_some, htodo, List.append_nil]
  have hheld' : (q.effect (.leave now)).held = reinsert q.timers g.expired g.now := by
    rw [held, hhandler, htimers]
    exact List.append_nil _
  have hupcoming' : (q.effect (.leave now)).upcoming = reinsert q.timers g.expired g.now := by
    rw [upcoming, hhandler, htimers]
    exact List.append_nil _
  have hnew : ∀ x : TimerEntry φ, x.2.isRepeat = true →
      ident (x.2.restart g.now) = ident x.2 ∧ (x.2.restart g.now).endTime = g.now + x.2.interval := by
    intro x hrepeat
    refine ⟨?_, restart_endTime hrepeat g.now⟩
    rw [Timer.restart, if_pos hrepeat]
    rfl
  have hpositive : ∀ t : Timer φ, t.isRepeat = true → 0 < t.interval := fun t ht => by
    simpa [Timer.isRepeat] using ht
  -- an entry from before, or one that starts again
  have hmem : ∀ e ∈ reinsert q.timers g.expired g.now, e ∈ q.timers ∨ ∃ x ∈ g.expired,
      x.2.isRepeat = true ∧ ident e.2 = ident x.2 ∧ e.1 = g.now + x.2.interval := by
    intro e he
    rcases mem_reinsert.1 he with he | ⟨x, hx, hrepeat, rfl⟩
    · exact Or.inl he
    · exact Or.inr ⟨x, hx, hrepeat, hnew x hrepeat⟩
  constructor
  · rw [hran]
    exact h.ran
  · intro r hr
    rw [hclock]
    exact (h.past r hr).imp_right fun hpast => hpast.trans hlater
  · intro g' hg'
    rw [hhandler] at hg'
    cases hg'
  · exact h.spaced
  · intro r hr e he
    rw [hupcoming'] at he
    rcases hmem e he with he | ⟨x, -, -, hsame, hend⟩
    · exact h.next r hr e (by rw [hupcoming]; exact he)
    · intro _ hident
      have hinterval := interval_of_ident (hident.symm.trans hsame)
      have hr' := hbefore r hr
      rw [hend, hinterval]
      omega
  · intro e he
    rw [hheld', hran, List.mem_append] at he
    rcases he with he | he
    · rcases hmem e he with he | ⟨x, hx, hrep, hsame, -⟩
      · exact h.origin e (by rw [hheld]; simp [he])
      · obtain ⟨t, ht, hident, -⟩ := h.origin x (by rw [hheld]; simp [hx])
        refine ⟨t, ht, hsame.trans hident, fun hnot => ?_⟩
        rw [isRepeat_of_ident hident, hnot] at hrep
        cases hrep
    · exact h.origin e (List.mem_append_right _ he)
  · intro t ht hrepeat
    obtain ⟨e, he, hsame⟩ := h.alive t ht hrepeat
    rw [hheld']
    rw [hheld, List.mem_append] at he
    rcases he with he | he
    · exact ⟨e, mem_reinsert.2 (Or.inl he), hsame⟩
    · have hrep : e.2.isRepeat = true := by rw [isRepeat_of_ident hsame, hrepeat]
      exact ⟨_, mem_reinsert.2 (Or.inr ⟨e, he, hrep, rfl⟩), (hnew e hrep).1.trans hsame⟩
  · intro t ht hrepeat e he hsame
    rw [hheld', hran, List.mem_append] at he
    rcases he with he | he
    · rcases hmem e he with he | ⟨x, hx, hrep, hident, hend⟩
      · exact h.since t ht hrepeat e (by rw [hheld]; simp [he]) hsame
      · have hx' := h.since t ht hrepeat x (by rw [hheld]; simp [hx]) (hident.symm.trans hsame)
        have hxnow := hexpired x hx
        have hpos := hpositive x.2 hrep
        omega
    · exact h.since t ht hrepeat e (List.mem_append_right _ he) hsame

theorem step_paced (hc : Conserved adds q) (h : Paced adds log q) {a : Action φ}
    (hstep : step q a = some r) : Paced (adds ++ added [a]) (log ++ q.logged a) r := by
  obtain ⟨henabled, rfl⟩ := step_eq_some hstep
  cases a with
  | addTimer t now =>
    have hlog : q.logged (.addTimer t now) = [] := rfl
    rw [hlog, List.append_nil]
    exact addTimer_paced h henabled
  | enter now fired =>
    have hlog : q.logged (.enter now fired) = [] := rfl
    rw [hlog, List.append_nil, added, List.filterMap_cons_none rfl, List.filterMap_nil,
      List.append_nil]
    simp [enabled] at henabled
    exact enter_paced h henabled.1.1 henabled.1.2
  | runCallback =>
    rw [added, List.filterMap_cons_none rfl, List.filterMap_nil, List.append_nil]
    cases hg : q.handler with
    | none => simp [enabled, hg] at henabled
    | some g =>
      apply runCallback_paced hc h hg
      simpa [enabled, hg] using henabled
  | leave now =>
    have hlog : q.logged (.leave now) = [] := rfl
    rw [hlog, List.append_nil, added, List.filterMap_cons_none rfl, List.filterMap_nil,
      List.append_nil]
    cases hg : q.handler with
    | none => simp [enabled, hg] at henabled
    | some g =>
      simp [enabled, hg] at henabled
      exact leave_paced h hg henabled.2 henabled.1

theorem run_paced (hc : Conserved adds q) (h : Paced adds log q) {as : List (Action φ)}
    (hrun : run step q as = some r) : Paced (adds ++ added as) (log ++ q.runLog as) r := by
  induction as generalizing adds log q with
  | nil =>
    cases hrun
    rw [added, List.filterMap_nil, List.append_nil, runLog, List.append_nil]
    exact h
  | cons a as ih =>
    rw [run_cons, Option.bind_eq_some_iff] at hrun
    obtain ⟨u, hu, htail⟩ := hrun
    have htotal := ih (step_conserved hc hu) (step_paced hc h hu) htail
    rw [List.append_assoc, added, added, ← List.filterMap_append, List.append_assoc] at htotal
    rw [runLog, hu]
    exact htotal

def runsOf (q : TimerQueue φ) (t : Timer φ) [DecidableEq φ] : List (TimerEntry φ) :=
  q.ran.filter fun e => ident e.2 = ident t

/-- Elements a gap apart fill the gaps before the last of them. -/
theorem length_mul_le {times : List ℤ} {gap start finish : ℤ}
    (hapart : times.Pairwise fun a b => a + gap ≤ b) (hstart : ∀ a ∈ times, start ≤ a)
    (hfinish : ∀ a ∈ times, a ≤ finish) (hne : times ≠ []) :
    start + (times.length - 1 : ℤ) * gap ≤ finish := by
  induction times generalizing start with
  | nil => exact absurd rfl hne
  | cons a times ih =>
    obtain ⟨hhead, htail⟩ := List.pairwise_cons.1 hapart
    have ha := hstart a List.mem_cons_self
    by_cases hnil : times = []
    · have hle := hfinish a List.mem_cons_self
      subst hnil
      simp
      omega
    · have hrest := ih htail hhead (fun b hb => hfinish b (List.mem_cons_of_mem a hb)) hnil
      rw [List.length_cons]
      push_cast
      linarith

theorem Paced.runs_length_mul_le [DecidableEq φ] (h : Paced adds log q) {t : Timer φ} (ht : t ∈ adds)
    (hrepeat : 0 < t.interval) (hne : q.runsOf t ≠ []) :
    t.endTime + ((q.runsOf t).length - 1 : ℤ) * t.interval ≤ q.clock := by
  let runs := log.filter fun a => ident a.2.2 = ident t
  have hmem : ∀ a ∈ runs, a ∈ log ∧ ident a.2.2 = ident t := by
    intro a ha
    rw [List.mem_filter, decide_eq_true_eq] at ha
    exact ha
  have hruns : runs.map Prod.snd = q.runsOf t := by
    rw [runsOf, ← h.ran, List.filter_map]
    rfl
  have hisRepeat : t.isRepeat = true := decide_eq_true hrepeat
  have hapart : runs.Pairwise fun a b => a.2.1 + t.interval ≤ b.2.1 := by
    have hspaced : runs.Pairwise fun a b => Spaced a b.2 := h.spaced.sublist List.filter_sublist
    apply hspaced.imp_of_mem
    intro a b ha hb hab
    have hasame := (hmem a ha).2
    have hpast := (h.past a (hmem a ha).1).1
    rw [Spaced, isRepeat_of_ident hasame, interval_of_ident hasame] at hab
    have hgap := hab hisRepeat ((hmem b hb).2.trans hasame.symm)
    omega
  have hlength : (runs.map fun a => a.2.1).length = (q.runsOf t).length := by
    rw [← hruns, List.length_map, List.length_map]
  rw [← hlength]
  apply length_mul_le
  · rw [List.pairwise_map]
    exact hapart
  · intro x hx
    obtain ⟨a, ha, rfl⟩ := List.mem_map.1 hx
    obtain ⟨halog, hasame⟩ := hmem a ha
    exact h.since t ht hisRepeat a.2 (List.mem_append_right _ (h.ran_mem halog)) hasame
  · intro x hx
    obtain ⟨a, ha, rfl⟩ := List.mem_map.1 hx
    obtain ⟨hend, hclock⟩ := h.past a (hmem a ha).1
    exact hend.trans hclock
  · rw [ne_eq, List.map_eq_nil_iff]
    intro hnil
    rw [← hruns, hnil] at hne
    exact hne rfl

/-- In every run no callback comes before its time, the handlers that run a repeating timer have
read times an interval apart, and `runEvery` runs its callback at most once for each interval since
the call. -/
theorem runs_on_time [DecidableEq φ] (clock : ℤ) (as : List (Action φ)) (q : TimerQueue φ)
    (hrun : run step (fresh clock) as = some q) :
    (runLog (fresh clock) as).map Prod.snd = q.ran ∧
      (∀ r ∈ runLog (fresh clock) as, r.2.1 ≤ r.1 ∧ r.1 ≤ q.clock ∧
        ∃ t ∈ added as, ident r.2.2 = ident t ∧ (t.isRepeat = false → r.2 = entry t)) ∧
      (runLog (fresh clock) as).Pairwise (fun a b => a.2.2.isRepeat = true →
        ident b.2.2 = ident a.2.2 → a.1 + a.2.2.interval ≤ b.2.1 ∧ b.2.1 ≤ b.1) ∧
      ∀ addr cb interval now, 0 < interval → runEvery addr cb interval now ∈ added as →
        (q.runsOf (runEvery addr cb interval now)).length * interval ≤ max 0 (q.clock - now) := by
  have h := run_paced (fresh_conserved clock) (fresh_paced clock) hrun
  rw [List.nil_append, List.nil_append] at h
  refine ⟨h.ran, ?_, ?_, ?_⟩
  · intro r hr
    obtain ⟨hend, hclock⟩ := h.past r hr
    exact ⟨hend, hclock, h.origin r.2 (List.mem_append_right _ (h.ran_mem hr))⟩
  · apply h.spaced.imp_of_mem
    intro a b _ hb hab hrepeat hsame
    exact ⟨hab hrepeat hsame, (h.past b hb).1⟩
  · intro addr cb interval now hinterval hadded
    by_cases hne : q.runsOf (runEvery addr cb interval now) = []
    · rw [hne]
      simp
    · have hle := h.runs_length_mul_le hadded hinterval hne
      rw [runEvery] at hle ⊢
      apply le_max_of_le_right
      linarith

/-- A timer of 10 that is handled late for the second time. -/
theorem runs_on_time_of_late : ∃ q : TimerQueue ℕ,
    run step (fresh 0) [.addTimer (runEvery 1 0 10 0) 0, .enter 10 true, .runCallback, .leave 15,
      .enter 27 true, .runCallback] = some q ∧
    (runLog (fresh 0) [.addTimer (runEvery 1 0 10 0) 0, .enter 10 true, .runCallback, .leave 15,
      .enter 27 true, .runCallback]).map (fun r => (r.1, r.2.1)) = [(10, 10), (27, 20)] ∧
    (q.runsOf (runEvery 1 0 10 0)).length * (10 : ℤ) ≤ max 0 (q.clock - 0) := by
  refine ⟨_, rfl, rfl, ?_⟩
  exact (runs_on_time 0 [.addTimer (runEvery 1 0 10 0) 0, .enter 10 true, .runCallback, .leave 15,
    .enter 27 true, .runCallback] _ rfl).2.2.2 1 0 10 0 (by decide) (by simp [added, Action.added])

end HydrogenWeb.TimerQueue
