import HydrogenWeb.PollerTable

set_option autoImplicit false

/-!
# Registrations and removals in any order

The events of a channel only change in the four methods that end with `update()`, so
every call of `updateChannel` comes with one of them, or with none.
-/
namespace HydrogenWeb.Poller
open TransitionRuns SwapRemove

variable {ι : Type*}

inductive Method where
  | enableReading
  | enableWriting
  | disableWriting
  | disableAll
  | none
deriving DecidableEq

def Method.apply : Method → Channel → Channel
  | enableReading => Channel.enableReading
  | enableWriting => Channel.enableWriting
  | disableWriting => Channel.disableWriting
  | disableAll => Channel.disableAll
  | none => id

inductive Call (ι : Type*) where
  | update (m : Method) (id : ι)
  | remove (id : ι)

/-- The poller, the channel objects, and which of them are registered or were removed. -/
structure Table (ι : Type*) where
  poller : Poller ι
  chan : ι → Channel
  registered : Finset ι
  removed : Finset ι

namespace Table

def start (fd : ι → ℤ) : Table ι := ⟨fresh, fun c => Channel.create (fd c), ∅, ∅⟩

variable [DecidableEq ι]

def call (t : Table ι) : Call ι → Option (Table ι)
  | .update m id =>
    (t.poller.updateChannel id (m.apply (t.chan id))).map fun (p, c) =>
      { t with poller := p, chan := Function.update t.chan id c,
               registered := insert id t.registered }
  | .remove id =>
    (t.poller.removeChannel (t.chan id)).map fun (p, moved) =>
      { poller := p, chan := moveIndex t.chan moved,
        registered := t.registered.erase id, removed := insert id t.removed }

/-- The assertions at the entry of the call hold, and the channel was not removed before. -/
def ValidCall (t : Table ι) : Call ι → Prop
  | .update m id => UpdateEntry t.poller id (m.apply (t.chan id)) ∧ id ∉ t.removed
  | .remove id => RemoveEntry t.poller id (t.chan id) ∧ id ∉ t.removed

instance (t : Table ι) (a : Call ι) : Decidable (t.ValidCall a) := by
  cases a <;> unfold ValidCall
  · unfold UpdateEntry
    infer_instance
  · unfold RemoveEntry
    infer_instance

/-- The table of the registered channels is a bijection between them and the entries. -/
structure Bijective (t : Table ι) : Prop where
  size : t.poller.fds.length = t.poller.channels.size
  bounds : ∀ c ∈ t.registered, 0 ≤ (t.chan c).index ∧ (t.chan c).index < t.poller.fds.length
  owner : ∀ c ∈ t.registered, t.poller.channels[(t.chan c).fd]? = some c
  entry : ∀ c ∈ t.registered, ∃ pfd, t.poller.fds[(t.chan c).index.toNat]? = some pfd ∧
    (pfd.fd = (t.chan c).fd ∨ pfd.fd = -(t.chan c).fd - 1) ∧
    pfd.events.signExtend 32 = (t.chan c).events
  distinct : ∀ c ∈ t.registered, ∀ d ∈ t.registered, c ≠ d → (t.chan c).index ≠ (t.chan d).index

structure Invariant (t : Table ι) : Prop where
  table : ∃ order, Represents t.poller t.chan order ∧ ∀ c, c ∈ order ↔ c ∈ t.registered
  unused : ∀ c, c ∉ t.registered → c ∉ t.removed → (t.chan c).index < 0
  known : ∀ c, Channel.KnownEvents (t.chan c).events
  descriptor : ∀ c, 0 ≤ (t.chan c).fd

omit [DecidableEq ι] in
theorem start_invariant {fd : ι → ℤ} (hfd : ∀ c, 0 ≤ fd c) : Invariant (start fd) where
  table := ⟨[], fresh_represents _, by simp [start]⟩
  unused := fun _ _ _ => by simp [start, Channel.create]
  known := fun _ => Or.inl rfl
  descriptor := hfd

omit [DecidableEq ι] in
theorem Invariant.bijective {t : Table ι} (h : Invariant t) : Bijective t := by
  obtain ⟨order, hrep, hmem⟩ := h.table
  constructor
  · rw [hrep.length, hrep.size]
  · intro c hc
    obtain ⟨hnonneg, hget⟩ := hrep.index_of_mem ((hmem c).2 hc)
    have hlt := (List.getElem?_eq_some_iff.1 hget).1
    have hlen := hrep.length
    omega
  · intro c hc
    exact (hrep.owner _ _).2 ⟨(hmem c).2 hc, rfl⟩
  · intro c hc
    exact hrep.entry _ c (hrep.index_of_mem ((hmem c).2 hc)).2
  · intro c hc d hd hne hindex
    exact hne (hrep.index_inj ((hmem c).2 hc) ((hmem d).2 hd) hindex)

omit [DecidableEq ι] in
@[simp] theorem apply_fd (m : Method) (c : Channel) : (m.apply c).fd = c.fd := by
  cases m <;> rfl

omit [DecidableEq ι] in
@[simp] theorem apply_index (m : Method) (c : Channel) : (m.apply c).index = c.index := by
  cases m <;> rfl

theorem apply_known (m : Method) {c : Channel} (h : Channel.KnownEvents c.events) :
    Channel.KnownEvents (m.apply c).events := by
  cases m
  · exact Channel.enableReading_known h
  · exact Channel.enableWriting_known h
  · exact Channel.disableWriting_known h
  · exact Channel.disableAll_known c
  · exact h

theorem update_invariant {t : Table ι} (h : Invariant t) {m : Method} {id : ι}
    (hvalid : t.ValidCall (.update m id)) : ∃ u, t.call (.update m id) = some u ∧ Invariant u := by
  obtain ⟨hentry, hkept⟩ := hvalid
  obtain ⟨order, hrep, hmem⟩ := h.table
  have hknown := apply_known m (h.known id)
  by_cases hindex : (t.chan id).index < 0
  · have hfree : t.poller.channels[(m.apply (t.chan id)).fd]? = none := by
      rwa [UpdateEntry, if_pos (by simpa using hindex)] at hentry
    have hnew : id ∉ order := by
      intro hcon
      have := (hrep.index_of_mem hcon).1
      omega
    refine ⟨_, by rw [call, updateChannel_new (by simpa using hindex)]; rfl, ?_⟩
    constructor
    · refine ⟨_, hrep.append hnew hfree ?_ hknown, fun c => ?_⟩
      · rw [apply_fd]
        exact h.descriptor id
      · rw [List.mem_append, List.mem_singleton, Finset.mem_insert, hmem, or_comm]
    · intro c hc hc'
      obtain ⟨hne, hold⟩ := not_or.1 (mt Finset.mem_insert.2 hc)
      simpa [Function.update_of_ne hne] using h.unused c hold hc'
    · intro c
      by_cases hc : c = id
      · simpa [hc, Channel.set_index] using hknown
      · simpa [hc] using h.known c
    · intro c
      by_cases hc : c = id
      · simpa [hc, Channel.set_index] using h.descriptor id
      · simpa [hc] using h.descriptor c
  · have hin : id ∈ order := by
      rw [UpdateEntry, if_neg (by simpa using hindex), hrep.owner] at hentry
      exact hentry.1
    have hget := (hrep.index_of_mem hin).2
    obtain ⟨pfd, hpfd, -⟩ := hrep.entry _ id hget
    rw [← apply_index m] at hpfd
    refine ⟨_, by
      rw [call, updateChannel_known (by rw [apply_index]; omega) hpfd]
      rfl, ?_⟩
    constructor
    · refine ⟨order, hrep.rewrite hin (apply_fd _ _) (apply_index _ _) hknown hpfd, fun c => ?_⟩
      rw [Finset.mem_insert, hmem]
      exact ⟨Or.inr, fun hc => hc.elim (fun heq => heq ▸ (hmem id).1 hin) fun hc => hc⟩
    · intro c hc hc'
      obtain ⟨hne, hold⟩ := not_or.1 (mt Finset.mem_insert.2 hc)
      simpa [Function.update_of_ne hne] using h.unused c hold hc'
    · intro c
      by_cases hc : c = id
      · simpa [hc] using hknown
      · simpa [hc] using h.known c
    · intro c
      by_cases hc : c = id
      · simpa [hc] using h.descriptor id
      · simpa [hc] using h.descriptor c

theorem remove_invariant {t : Table ι} (h : Invariant t) {id : ι}
    (hvalid : t.ValidCall (.remove id)) : ∃ u, t.call (.remove id) = some u ∧ Invariant u := by
  obtain ⟨⟨hown, -⟩, -⟩ := hvalid
  obtain ⟨order, hrep, hmem⟩ := h.table
  have hin : id ∈ order := ((hrep.owner _ _).1 hown).1
  obtain ⟨q, moved, hcall, hrep', -, hothers⟩ := hrep.removed hin
  refine ⟨_, by rw [call, hcall]; rfl, ?_⟩
  constructor
  · refine ⟨_, hrep', fun c => ?_⟩
    rw [mem_swapRemove (hrep.index_of_mem hin).2 hrep.nodup, Finset.mem_erase, hmem, and_comm]
  · intro c hc hc'
    obtain ⟨hne, hold⟩ := not_or.1 (mt Finset.mem_insert.2 hc')
    have hunreg : c ∉ t.registered := fun hreg => hc (Finset.mem_erase.2 ⟨hne, hreg⟩)
    change (moveIndex t.chan moved c).index < 0
    rw [hothers c (mt (hmem c).1 hunreg)]
    exact h.unused c hunreg hold
  · intro c
    rw [moveIndex_events]
    exact h.known c
  · intro c
    rw [moveIndex_fd]
    exact h.descriptor c

theorem call_invariant {t : Table ι} (h : Invariant t) {a : Call ι} (hvalid : t.ValidCall a) :
    ∃ u, t.call a = some u ∧ Invariant u := by
  cases a with
  | update m id => exact update_invariant h hvalid
  | remove id => exact remove_invariant h hvalid

/-- After every call of a valid sequence the call has succeeded and the table is a bijection. -/
theorem bijective_after_every_call (fd : ι → ℤ) (hfd : ∀ c, 0 ≤ fd c) (calls : List (Call ι))
    (hvalid : Along call (fun t a _ => t.ValidCall a) (start fd) calls) :
    Along call (fun _ _ o => ∃ u, o = some u ∧ Bijective u) (start fd) calls := by
  refine along_of_invariant Invariant ?_ ?_ calls (start_invariant hfd) hvalid
  · intro t a h hstep
    obtain ⟨u, hu, hinv⟩ := call_invariant h hstep
    exact ⟨u, hu, hinv.bijective⟩
  · intro t a u h hstep heq
    obtain ⟨v, hv, hinv⟩ := call_invariant h hstep
    rw [heq] at hv
    cases hv
    exact hinv

/-- Three channels; the first is silenced and removed, and the third takes its entry. -/
theorem bijective_after_moving_the_last :
    Along call (fun _ _ o => ∃ u, o = some u ∧ Bijective u) (start fun c : Fin 3 => 5 + (c : ℤ))
      [.update .enableReading 0, .update .enableReading 1, .update .enableWriting 2,
        .update .disableAll 2, .update .disableAll 0, .remove 0, .update .enableReading 2] :=
  bijective_after_every_call _ (by decide) _ (by decide)

end Table
end HydrogenWeb.Poller
