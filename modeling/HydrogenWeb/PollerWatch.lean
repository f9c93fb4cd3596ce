import HydrogenWeb.PollerTable

set_option autoImplicit false

/-!
# Which channels poll answers

An empty event set negates the descriptor of an entry, and no later update restores it.
`muted` names channels whose entries are negated whatever their events are now.
-/
namespace HydrogenWeb.Poller
open SwapRemove

variable {ι : Type*}

/-- The entry of the channel has the negated descriptor, which `poll` skips. -/
def Ignored (p : Poller ι) (c : Channel) : Prop :=
  ∃ pfd, p.fds[c.index.toNat]? = some pfd ∧ pfd.fd = -c.fd - 1

structure Watches (p : Poller ι) (chan : ι → Channel) (order : List ι) (muted : ι → Prop) : Prop
    extends Represents p chan order where
  known : ∀ a ∈ order, Channel.KnownEvents (chan a).events
  ignored : ∀ a ∈ order, (chan a).isEmptyEvent = true ∨ muted a → Ignored p (chan a)

theorem getElem?_answer {p : Poller ι} {i : ℕ} {pfd : PollFd} (h : p.fds[i]? = some pfd)
    (revents : ℤ → BitVec 16) : (p.answer revents).fds[i]? =
      some { pfd with revents := if pfd.fd < 0 then 0 else revents pfd.fd } := by
  rw [answer, List.getElem?_map, h, Option.map_some]

theorem fresh_watches (chan : ι → Channel) (muted : ι → Prop) : Watches fresh chan [] muted where
  toRepresents := fresh_represents chan
  known := by simp
  ignored := by simp

namespace Watches

variable {p : Poller ι} {chan : ι → Channel} {order : List ι} {muted : ι → Prop}

theorem alike (h : Watches p chan order muted) {chan' : ι → Channel}
    (hchan : ∀ a ∈ order, (chan' a).Alike (chan a)) : Watches p chan' order muted where
  toRepresents := h.toRepresents.alike hchan
  known a ha := by
    rw [(hchan a ha).events_eq]
    exact h.known a ha
  ignored a ha hor := by
    have hsame := hchan a ha
    rw [hsame.isEmptyEvent_eq] at hor
    obtain ⟨pfd, hpfd, hneg⟩ := h.ignored a ha hor
    exact ⟨pfd, by rw [hsame.index_eq, hpfd], by rw [hsame.fd_eq, hneg]⟩

theorem mono (h : Watches p chan order muted) {muted' : ι → Prop}
    (hmuted : ∀ a ∈ order, muted' a → muted a) : Watches p chan order muted' where
  toRepresents := h.toRepresents
  known := h.known
  ignored a ha hor := h.ignored a ha (hor.imp_right (hmuted a ha))

theorem entry_of_mem (h : Watches p chan order muted) {a : ι} (ha : a ∈ order) :
    ∃ pfd, p.fds[(chan a).index.toNat]? = some pfd ∧ EntryOf (chan a) pfd :=
  h.entry _ a (h.index_of_mem ha).2

theorem index_lt (h : Watches p chan order muted) {a : ι} (ha : a ∈ order) :
    (chan a).index < p.fds.length := by
  obtain ⟨hnonneg, hget⟩ := h.index_of_mem ha
  have hlt := (List.getElem?_eq_some_iff.1 hget).1
  have hlen := h.length
  omega

theorem answer (h : Watches p chan order muted) (revents : ℤ → BitVec 16) :
    Watches (p.answer revents) chan order muted where
  toRepresents := h.toRepresents.written (List.length_map _) fun i pfd hpfd =>
    ⟨_, getElem?_answer hpfd revents⟩
  known := h.known
  ignored a ha hor := by
    obtain ⟨pfd, hpfd, hneg⟩ := h.ignored a ha hor
    exact ⟨_, getElem?_answer hpfd revents, hneg⟩

variable [DecidableEq ι]

theorem update (h : Watches p chan order muted) {id : ι} (hid : id ∈ order) {c : Channel}
    (hfd : c.fd = (chan id).fd) (hindex : c.index = (chan id).index)
    (hknown : Channel.KnownEvents c.events) :
    UpdateEntry p id c ∧ UpdateAsserts p c ∧ ∃ q, p.updateChannel id c = some (q, c) ∧
      q.channels = p.channels ∧ Watches q (Function.update chan id c) order
        fun a => muted a ∨ a = id ∧ c.isEmptyEvent = true := by
  obtain ⟨hnonneg, hget⟩ := h.index_of_mem hid
  obtain ⟨pfd, hpfd, hof⟩ := h.entry_of_mem hid
  have hlt := h.index_lt hid
  rw [← hindex] at hnonneg hget hpfd hlt
  refine ⟨?_, Or.inr ⟨hnonneg, hlt, pfd, hpfd, hfd ▸ hof.1⟩, _,
    updateChannel_known hnonneg hpfd, rfl, ?_⟩
  · rw [UpdateEntry, if_neg (by omega), hfd]
    exact (h.owner _ _).2 ⟨hid, rfl⟩
  refine ⟨h.toRepresents.rewrite hid hfd hindex hknown hpfd, ?_, ?_⟩
  · intro a ha
    by_cases hsame : a = id
    · rw [hsame, Function.update_self]
      exact hknown
    · rw [Function.update_of_ne hsame]
      exact h.known a ha
  · intro a ha hor
    by_cases hsame : a = id
    · subst hsame
      rw [Function.update_self] at hor ⊢
      refine ⟨rewritten c pfd, by simp [(List.getElem?_eq_some_iff.1 hpfd).1], ?_⟩
      by_cases hempty : c.isEmptyEvent = true
      · simp [rewritten, hempty]
      · -- the entry was negated before, and its descriptor stays
        have hmuted : muted a := (hor.resolve_left hempty).resolve_right fun hcon => hempty hcon.2
        obtain ⟨old, hold, hneg⟩ := h.ignored a ha (Or.inr hmuted)
        rw [← hindex, hpfd] at hold
        cases hold
        simp [rewritten, hempty, hneg, hfd]
    · rw [Function.update_of_ne hsame] at hor ⊢
      have hbefore := h.ignored a ha (hor.imp_right fun hm => hm.resolve_right fun hcon => hsame hcon.1)
      obtain ⟨old, hold, hneg⟩ := hbefore
      have hne : c.index.toNat ≠ (chan a).index.toNat := by
        intro hcon
        have ha' := (h.index_of_mem ha).2
        rw [← hcon, hget] at ha'
        exact hsame (Option.some.inj ha').symm
      exact ⟨old, by rw [List.getElem?_set_ne hne, hold], hneg⟩

theorem register (h : Watches p chan order muted) {id : ι} (hid : id ∉ order) {c : Channel}
    (hindex : c.index < 0) (hfd : 0 ≤ c.fd) (hfree : ∀ a ∈ order, (chan a).fd ≠ c.fd)
    (hknown : Channel.KnownEvents c.events) (hevents : c.isEmptyEvent = false)
    (hmuted : ¬ muted id) :
    UpdateEntry p id c ∧ UpdateAsserts p c ∧ ∃ q n, p.updateChannel id c = some (q, c.set_index n) ∧
      q.channels = p.channels.insert c.fd id ∧
      Watches q (Function.update chan id (c.set_index n)) (order ++ [id]) muted := by
  have hnone : p.channels[c.fd]? = none := by
    cases howner : p.channels[c.fd]? with
    | none => rfl
    | some a =>
      obtain ⟨ha, hsame⟩ := (h.owner _ _).1 howner
      exact absurd hsame (hfree a ha)
  have hold : ∀ a ∈ order, a ≠ id := by
    rintro a ha rfl
    exact hid ha
  refine ⟨by rwa [UpdateEntry, if_pos hindex], Or.inl hindex, _, _, updateChannel_new hindex, rfl,
    h.toRepresents.append hid hnone hfd hknown, ?_, ?_⟩
  · intro a ha
    rcases List.mem_append.1 ha with hin | hin
    · rw [Function.update_of_ne (hold a hin)]
      exact h.known a hin
    · rw [List.mem_singleton.1 hin, Function.update_self]
      exact hknown
  · intro a ha hor
    rcases List.mem_append.1 ha with hin | hin
    · rw [Function.update_of_ne (hold a hin)] at hor ⊢
      obtain ⟨pfd, hpfd, hneg⟩ := h.ignored a hin hor
      refine ⟨pfd, ?_, hneg⟩
      rw [List.getElem?_append_left (List.getElem?_eq_some_iff.1 hpfd).1, hpfd]
    · rw [List.mem_singleton.1 hin, Function.update_self] at hor
      rcases hor with hempty | hcon
      · rw [Channel.set_index_isEmptyEvent, hevents] at hempty
        cases hempty
      · exact absurd hcon hmuted

/-- A channel without events is removed, and the assertions of `removeChannel` hold. -/
theorem remove (h : Watches p chan order muted) {id : ι} (hid : id ∈ order)
    (hempty : (chan id).isEmptyEvent = true) :
    RemoveEntry p id (chan id) ∧ RemoveAsserts p (chan id) ∧
      ∃ q moved rest, p.removeChannel (chan id) = some (q, moved) ∧
        Watches q (moveIndex chan moved) rest muted ∧ (∀ a, a ∈ rest ↔ a ∈ order ∧ a ≠ id) ∧
        ∀ a ∉ order, moveIndex chan moved a = chan a := by
  obtain ⟨hnonneg, hget⟩ := h.index_of_mem hid
  obtain ⟨pfd, hpfd, hof⟩ := h.entry_of_mem hid
  obtain ⟨old, hold, hneg⟩ := h.ignored id hid (Or.inl hempty)
  obtain rfl : pfd = old := Option.some.inj (hpfd.symm.trans hold)
  obtain ⟨q, moved, hcall, hrep, hfds, hothers⟩ := h.toRepresents.removed hid
  have hmem : ∀ a, a ∈ swapRemove order (chan id).index.toNat ↔ a ∈ order ∧ a ≠ id := fun a =>
    mem_swapRemove hget h.nodup
  refine ⟨⟨(h.owner _ _).2 ⟨hid, rfl⟩, hempty⟩, ⟨hnonneg, h.index_lt hid, pfd, hpfd, hneg, hof.2⟩,
    q, moved, _, hcall, ⟨hrep, ?_, ?_⟩, hmem, hothers⟩
  · intro a ha
    rw [moveIndex_events]
    exact h.known a ((hmem a).1 ha).1
  · intro a ha hor
    have hin := ((hmem a).1 ha).1
    have hsame : (moveIndex chan moved a).isEmptyEvent = (chan a).isEmptyEvent := by
      simp [Channel.isEmptyEvent]
    rw [hsame] at hor
    obtain ⟨entry, hentry, hminus⟩ := h.ignored a hin hor
    refine ⟨entry, ?_, by rw [moveIndex_fd]; exact hminus⟩
    -- the entry of `a` is where `order` has `a`, before and after
    obtain ⟨-, hnew⟩ := hrep.index_of_mem ha
    have hlt := (List.getElem?_eq_some_iff.1 hget).1
    have hltf : (chan id).index.toNat < p.fds.length := h.length ▸ hlt
    rw [getElem?_swapRemove hlt] at hnew
    rw [hfds, getElem?_swapRemove hltf, h.length]
    split_ifs at hnew ⊢ with hinside hhole
    · rw [List.getLast?_eq_getElem?] at hnew ⊢
      rw [h.index _ _ hnew, Int.toNat_natCast] at hentry
      rw [h.length]
      exact hentry
    · rw [h.index _ _ hnew, Int.toNat_natCast] at hentry
      exact hentry

end Watches

/-- The scan passes its assertions and lists channels in the order of their entries. -/
theorem fillFrom_spec {p : Poller ι} {chan : ι → Channel} (good : ι → BitVec 16 → Prop)
    {fds : List PollFd} {order : List ι}
    (h : List.Forall₂ (fun pfd a => p.channels[(chan a).fd]? = some a ∧
      (0 < pfd.revents.toInt → pfd.fd = (chan a).fd ∧ good a pfd.revents)) fds order)
    (numEvents : ℤ) : ∃ active, p.fillFrom chan fds numEvents = some active ∧
      (active.map Prod.fst).Sublist order ∧ ∀ x ∈ active, good x.1 x.2 := by
  induction h generalizing numEvents with
  | nil => exact ⟨[], rfl, List.Sublist.refl _, by simp⟩
  | @cons pfd a fds order here _ ih =>
    obtain ⟨howner, hreported⟩ := here
    by_cases hmore : numEvents > 0
    · by_cases hrevents : 0 < pfd.revents.toInt
      · obtain ⟨hfd, hgood⟩ := hreported hrevents
        obtain ⟨active, hfill, hsub, hall⟩ := ih (numEvents - 1)
        refine ⟨(a, pfd.revents) :: active, ?_, hsub.cons_cons a, ?_⟩
        · simp [fillFrom, hmore, hrevents, hfd, howner, hfill]
        · intro x hx
          rcases List.mem_cons.1 hx with rfl | hx
          · exact hgood
          · exact hall x hx
      · obtain ⟨active, hfill, hsub, hall⟩ := ih numEvents
        exact ⟨active, by simp [fillFrom, hmore, hrevents, hfill], hsub.cons a, hall⟩
    · exact ⟨[], by simp [fillFrom, hmore], List.nil_sublist _, by simp⟩

/-- Only channels whose entry is not negated become active, each at most once. -/
theorem Watches.fillActiveChannels_spec {p : Poller ι} {chan : ι → Channel} {order : List ι}
    {muted : ι → Prop} (h : Watches p chan order muted) (revents : ℤ → BitVec 16)
    (numEvents : ℤ) :
    ∃ active, (p.answer revents).fillActiveChannels chan numEvents = some active ∧
      (active.map Prod.fst).Sublist order ∧
      ∀ x ∈ active, ¬ muted x.1 ∧ ∃ pfd ∈ p.fds, x.2 = revents pfd.fd := by
  have hlength : (p.answer revents).fds.length = order.length := (h.answer revents).length
  refine fillFrom_spec (fun a r => ¬ muted a ∧ ∃ pfd ∈ p.fds, r = revents pfd.fd) (List.forall₂_iff_get.2 ⟨hlength, fun i hi ho => ?_⟩) numEvents
  have hget : order[i]? = some order[i] := List.getElem?_eq_getElem ho
  obtain ⟨pfd, hpfd, hof⟩ := h.entry i _ hget
  have hdescriptor := h.descriptor _ (List.getElem_mem ho)
  have hentry : (p.answer revents).fds.get ⟨i, hi⟩ =
      { pfd with revents := if pfd.fd < 0 then 0 else revents pfd.fd } := by
    exact (List.getElem?_eq_some_iff.1 (getElem?_answer hpfd revents)).2
  rw [hentry]
  refine ⟨(h.owner _ _).2 ⟨List.getElem_mem ho, rfl⟩, fun hpos => ?_⟩
  by_cases hneg : pfd.fd < 0
  · simp [hneg] at hpos
  · have hfd : pfd.fd = (chan order[i]).fd := by
      rcases hof.1 with hsame | hminus
      · exact hsame
      · omega
    refine ⟨hfd, fun hmuted => ?_, pfd, List.mem_of_getElem? hpfd, by simp [hneg]⟩
    obtain ⟨old, hold, hminus⟩ := h.ignored _ (List.getElem_mem ho) (Or.inr hmuted)
    rw [h.index i _ hget, Int.toNat_natCast, hpfd] at hold
    cases hold
    omega

end HydrogenWeb.Poller
