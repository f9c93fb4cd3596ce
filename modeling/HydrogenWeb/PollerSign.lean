import HydrogenWeb.PollerCalls

set_option autoImplicit false

/-!
# The sign of a stored descriptor

`poll` skips an entry whose descriptor is negative. The runs here only call the methods
of the channels, so every registered channel stays registered.
-/
namespace HydrogenWeb.Poller
open TransitionRuns

variable {ι : Type*}

/-- What the entry of the channel has to hold: the negated descriptor for no events. -/
def polledFd (c : Channel) : ℤ := if c.isEmptyEvent then -c.fd - 1 else c.fd

def Polled (p : Poller ι) (c : Channel) : Prop :=
  ∃ pfd ∈ p.fds[c.index.toNat]?, pfd.fd = polledFd c ∧ (0 ≤ pfd.fd ↔ c.isEmptyEvent = false)

instance (p : Poller ι) (c : Channel) : Decidable (Polled p c) := by
  unfold Polled
  infer_instance

theorem polled_of_fd {p : Poller ι} {c : Channel} {pfd : PollFd} (hfd : 0 ≤ c.fd)
    (hget : p.fds[c.index.toNat]? = some pfd) : Polled p c ↔ pfd.fd = polledFd c := by
  constructor
  · rintro ⟨q, hq, hsign, -⟩
    rw [Option.mem_def, hget] at hq
    cases hq
    exact hsign
  · intro hsign
    refine ⟨pfd, hget, hsign, ?_⟩
    rw [hsign, polledFd]
    cases c.isEmptyEvent
    · simpa using hfd
    · simp
      omega

theorem fd_ne_negated {fd : ℤ} : 0 ≤ fd → fd ≠ -fd - 1 := by
  omega

theorem newEntry_fd_iff {c : Channel} (hfd : 0 ≤ c.fd) :
    (newEntry c).fd = polledFd c ↔ c.isEmptyEvent = false := by
  change c.fd = polledFd c ↔ _
  rw [polledFd]
  cases c.isEmptyEvent
  · simp
  · simpa using fd_ne_negated hfd

/-- A later update negates it for no events, and never restores it. -/
theorem rewritten_fd_iff {old c : Channel} {pfd : PollFd} (hfd : 0 ≤ c.fd)
    (hsame : c.fd = old.fd) (hsign : pfd.fd = polledFd old) :
    (rewritten c pfd).fd = polledFd c ↔ c.isEmptyEvent = true ∨ old.isEmptyEvent = false := by
  change (if c.isEmptyEvent then -c.fd - 1 else pfd.fd) = polledFd c ↔ _
  rw [hsign, polledFd, polledFd, ← hsame]
  cases c.isEmptyEvent
  · cases old.isEmptyEvent
    · simp
    · simpa using (fd_ne_negated hfd).symm
  · simp

theorem updateChannel_fd {p q : Poller ι} {id : ι} {c d : Channel}
    (h : p.updateChannel id c = some (q, d)) : d.fd = c.fd := by
  obtain ⟨⟨idx, rfl⟩, -⟩ := updateChannel_spec h
  rfl

namespace Table

variable [DecidableEq ι]

def method (t : Table ι) (op : Method × ι) : Option (Table ι) := t.call (.update op.1 op.2)

/-- Every registered channel is polled exactly while it wants events. -/
def PolledExactly (t : Table ι) : Prop := ∀ c ∈ t.registered, Polled t.poller (t.chan c)

instance (t : Table ι) : Decidable t.PolledExactly := by
  unfold PolledExactly
  infer_instance

/-- A new channel gets events at once; a known one without events gets none back. -/
def KeepsSign (t : Table ι) (op : Method × ι) : Prop :=
  if op.2 ∈ t.registered then
    (op.1.apply (t.chan op.2)).isEmptyEvent = true ∨ (t.chan op.2).isEmptyEvent = false
  else (op.1.apply (t.chan op.2)).isEmptyEvent = false

instance (t : Table ι) (op : Method × ι) : Decidable (t.KeepsSign op) := by
  unfold KeepsSign
  infer_instance

structure OnlyUpdated (t : Table ι) : Prop where
  invariant : Invariant t
  kept : t.removed = ∅
  distinct : Function.Injective fun c => (t.chan c).fd

omit [DecidableEq ι] in
theorem start_onlyUpdated {fd : ι → ℤ} (hfd : ∀ c, 0 ≤ fd c) (hinj : Function.Injective fd) :
    OnlyUpdated (start fd) where
  invariant := start_invariant hfd
  kept := rfl
  distinct := hinj

theorem OnlyUpdated.registered_iff {t : Table ι} (h : OnlyUpdated t) (c : ι) :
    c ∈ t.registered ↔ 0 ≤ (t.chan c).index := by
  constructor
  · intro hc
    exact (h.invariant.bijective.bounds c hc).1
  · intro hindex
    by_contra hc
    have := h.invariant.unused c hc (by simp [h.kept])
    omega

/-- With distinct descriptors no assertion at the entry of `updateChannel` fails. -/
theorem OnlyUpdated.validCall {t : Table ι} (h : OnlyUpdated t) (m : Method) (id : ι) :
    t.ValidCall (.update m id) := by
  refine ⟨?_, by simp [h.kept]⟩
  rw [UpdateEntry, apply_index, apply_fd]
  split_ifs with hindex
  · obtain ⟨order, hrep, hmem⟩ := h.invariant.table
    rw [Option.eq_none_iff_forall_ne_some]
    intro a howner
    obtain ⟨ha, hfd⟩ := (hrep.owner _ _).1 howner
    rw [h.distinct hfd, hmem, h.registered_iff] at ha
    omega
  · exact h.invariant.bijective.owner id ((h.registered_iff id).2 (by omega))

theorem OnlyUpdated.kept_by_method {t u : Table ι} (h : OnlyUpdated t) {op : Method × ι}
    (hstep : t.method op = some u) : OnlyUpdated u := by
  obtain ⟨v, hv, hinv⟩ := update_invariant h.invariant (h.validCall op.1 op.2)
  obtain rfl : v = u := Option.some.inj (hv.symm.trans hstep)
  obtain ⟨⟨p, c⟩, hcall, rfl⟩ := Option.map_eq_some_iff.1 hv
  refine ⟨hinv, h.kept, ?_⟩
  have hfds : ∀ a, (Function.update t.chan op.2 c a).fd = (t.chan a).fd := by
    intro a
    by_cases ha : a = op.2
    · rw [ha, Function.update_self, updateChannel_fd hcall, apply_fd]
    · rw [Function.update_of_ne ha]
  intro a b hab
  apply h.distinct
  simpa only [hfds] using hab

def updated (t : Table ι) (id : ι) (p : Poller ι) (c : Channel) : Table ι :=
  { t with poller := p, chan := Function.update t.chan id c,
           registered := insert id t.registered }

theorem method_eq {t : Table ι} {op : Method × ι} {p : Poller ι} {c : Channel}
    (h : t.poller.updateChannel op.2 (op.1.apply (t.chan op.2)) = some (p, c)) :
    t.method op = some (t.updated op.2 p c) := by
  rw [method, call, h]
  rfl

theorem updated_polledExactly {t : Table ι} {id : ι} {p : Poller ι} {c : Channel}
    (hothers : ∀ a ∈ t.registered, a ≠ id → Polled p (t.chan a)) :
    (t.updated id p c).PolledExactly ↔ Polled p c := by
  constructor
  · intro h
    simpa [updated] using h id (Finset.mem_insert_self _ _)
  · intro h a ha
    change Polled p (Function.update t.chan id c a)
    by_cases heq : a = id
    · rw [heq, Function.update_self]
      exact h
    · rw [Function.update_of_ne heq]
      exact hothers a (Finset.mem_of_mem_insert_of_ne ha heq) heq

theorem OnlyUpdated.polledExactly_new {t : Table ι} (h : OnlyUpdated t) (ht : t.PolledExactly)
    {op : Method × ι} (hnew : op.2 ∉ t.registered) :
    ∃ u, t.method op = some u ∧ (u.PolledExactly ↔ t.KeepsSign op) := by
  have hindex : (op.1.apply (t.chan op.2)).index < 0 := by
    have := mt (h.registered_iff op.2).2 hnew
    rw [apply_index]
    omega
  have hfd : 0 ≤ (op.1.apply (t.chan op.2)).fd := by
    rw [apply_fd]
    exact h.invariant.descriptor op.2
  refine ⟨_, method_eq (updateChannel_new hindex), ?_⟩
  rw [KeepsSign, if_neg hnew, ← newEntry_fd_iff hfd, updated_polledExactly]
  · exact polled_of_fd hfd (by simp [Channel.set_index])
  · intro a ha _
    obtain ⟨pfd, hpfd, hsign⟩ := ht a ha
    have hlt := (List.getElem?_eq_some_iff.1 hpfd).1
    exact ⟨pfd, (List.getElem?_append_left hlt).trans hpfd, hsign⟩

theorem OnlyUpdated.polledExactly_known {t : Table ι} (h : OnlyUpdated t)
    (ht : t.PolledExactly) {op : Method × ι} (hknown : op.2 ∈ t.registered) :
    ∃ u, t.method op = some u ∧ (u.PolledExactly ↔ t.KeepsSign op) := by
  have hindex := (h.registered_iff op.2).1 hknown
  rw [← apply_index op.1] at hindex
  have hfd : 0 ≤ (op.1.apply (t.chan op.2)).fd := by
    rw [apply_fd]
    exact h.invariant.descriptor op.2
  obtain ⟨pfd, hpfd, hsign, -⟩ := ht op.2 hknown
  have hlt := (List.getElem?_eq_some_iff.1 hpfd).1
  rw [Option.mem_def, ← apply_index op.1] at hpfd
  refine ⟨_, method_eq (updateChannel_known hindex hpfd), ?_⟩
  rw [KeepsSign, if_pos hknown, ← rewritten_fd_iff hfd (apply_fd op.1 _) hsign,
    updated_polledExactly]
  · exact polled_of_fd hfd (by simp [hlt])
  · intro a ha hne
    obtain ⟨old, hold, hkept⟩ := ht a ha
    have hother : (op.1.apply (t.chan op.2)).index.toNat ≠ (t.chan a).index.toNat := by
      have := h.invariant.bijective.distinct a ha op.2 hknown hne
      have := (h.registered_iff a).1 ha
      rw [apply_index] at hindex ⊢
      omega
    exact ⟨old, (List.getElem?_set_ne hother).trans hold, hkept⟩

/-- The sign of the updated entry alone decides. -/
theorem OnlyUpdated.polledExactly_iff {t : Table ι} (h : OnlyUpdated t) (ht : t.PolledExactly)
    (op : Method × ι) : ∃ u, t.method op = some u ∧ (u.PolledExactly ↔ t.KeepsSign op) := by
  by_cases hop : op.2 ∈ t.registered
  · exact h.polledExactly_known ht hop
  · exact h.polledExactly_new ht hop

/-- After every call of a method each registered channel is polled exactly while it wants
events, if and only if no call adds the first events to an entry that had none. -/
theorem polledExactly_iff_keepsSign (fd : ι → ℤ) (hfd : ∀ c, 0 ≤ fd c)
    (hinj : Function.Injective fd) (ops : List (Method × ι)) :
    Along method (fun _ _ o => ∃ u ∈ o, PolledExactly u) (start fd) ops ↔
      Along method (fun t op _ => t.KeepsSign op) (start fd) ops := by
  refine along_iff (fun t => OnlyUpdated t ∧ t.PolledExactly) ?_ ?_
    ops ⟨start_onlyUpdated hfd hinj, by simp [PolledExactly, start]⟩ (along_true _ _ _)
  · rintro t op ⟨hinv, ht⟩ -
    obtain ⟨u, hu, hiff⟩ := hinv.polledExactly_iff ht op
    simpa [hu] using hiff
  · rintro t op u ⟨hinv, ht⟩ - hkeep hstep
    obtain ⟨v, hv, hiff⟩ := hinv.polledExactly_iff ht op
    obtain rfl : v = u := Option.some.inj (hv.symm.trans hstep)
    exact ⟨hinv.kept_by_method hstep, hiff.2 hkeep⟩

/-- Two channels; each gets events first and is silenced last. -/
theorem polledExactly_iff_keepsSign_of_two :
    Along method (fun _ _ o => ∃ u ∈ o, PolledExactly u) (start fun c : Fin 2 => 5 + (c : ℤ))
        [(.enableReading, 0), (.enableWriting, 1), (.enableWriting, 0), (.disableAll, 1)] ↔
      Along method (fun t op _ => t.KeepsSign op) (start fun c : Fin 2 => 5 + (c : ℤ))
        [(.enableReading, 0), (.enableWriting, 1), (.enableWriting, 0), (.disableAll, 1)] :=
  polledExactly_iff_keepsSign _ (by decide) (by decide) _

/-- A channel that is silenced and enabled again stays ignored. -/
theorem enabled_again_not_polledExactly :
    ¬ Along method (fun _ _ o => ∃ u ∈ o, PolledExactly u) (start fun _ : Unit => 5)
      [(.enableReading, ()), (.disableAll, ()), (.enableReading, ())] := by
  decide

end Table
end HydrogenWeb.Poller
