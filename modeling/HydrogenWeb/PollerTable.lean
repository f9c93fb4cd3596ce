import HydrogenWeb.Poller

set_option autoImplicit false

/-!
# The poll table

`order` lists the registered channels in the order of `_fds`. It is the abstract table:
the vector, the map and the cached indices are determined by it and by the channel
objects `chan`, up to the sign of a stored descriptor.
-/
namespace HydrogenWeb.Poller
open SwapRemove

variable {ι : Type*}

def EntryOf (c : Channel) (pfd : PollFd) : Prop :=
  (pfd.fd = c.fd ∨ pfd.fd = -c.fd - 1) ∧ pfd.events.signExtend 32 = c.events

structure Represents (p : Poller ι) (chan : ι → Channel) (order : List ι) : Prop where
  nodup : order.Nodup
  length : p.fds.length = order.length
  size : p.channels.size = order.length
  descriptor : ∀ a ∈ order, 0 ≤ (chan a).fd
  owner : ∀ fd a, p.channels[fd]? = some a ↔ a ∈ order ∧ (chan a).fd = fd
  index : ∀ (i : ℕ) a, order[i]? = some a → (chan a).index = i
  entry : ∀ (i : ℕ) a, order[i]? = some a → ∃ pfd, p.fds[i]? = some pfd ∧ EntryOf (chan a) pfd

theorem fresh_represents (chan : ι → Channel) : Represents fresh chan [] where
  nodup := List.nodup_nil
  length := rfl
  size := Std.ExtTreeMap.size_empty
  descriptor := by simp
  owner := by simp [fresh]
  index := by simp
  entry := by simp

namespace Represents

variable {p : Poller ι} {chan : ι → Channel} {order : List ι}

theorem fd_inj (h : Represents p chan order) {a b : ι} (ha : a ∈ order) (hb : b ∈ order)
    (hfd : (chan a).fd = (chan b).fd) : a = b := by
  have hown := (h.owner _ _).2 ⟨ha, rfl⟩
  rw [hfd, (h.owner _ _).2 ⟨hb, rfl⟩] at hown
  exact (Option.some.inj hown).symm

theorem index_of_mem (h : Represents p chan order) {a : ι} (ha : a ∈ order) :
    0 ≤ (chan a).index ∧ order[(chan a).index.toNat]? = some a := by
  obtain ⟨i, hi⟩ := List.mem_iff_getElem?.1 ha
  rw [h.index i a hi]
  exact ⟨Int.natCast_nonneg i, by simpa using hi⟩

theorem index_inj (h : Represents p chan order) {a b : ι} (ha : a ∈ order) (hb : b ∈ order)
    (hindex : (chan a).index = (chan b).index) : a = b := by
  have hget := (h.index_of_mem ha).2
  rw [hindex, (h.index_of_mem hb).2] at hget
  exact (Option.some.inj hget).symm

/-- The table does not depend on the `revents` of the channels. -/
theorem alike (h : Represents p chan order) {chan' : ι → Channel}
    (hchan : ∀ a ∈ order, (chan' a).Alike (chan a)) : Represents p chan' order where
  nodup := h.nodup
  length := h.length
  size := h.size
  descriptor a ha := by
    rw [(hchan a ha).fd_eq]
    exact h.descriptor a ha
  owner fd a := by
    rw [h.owner]
    refine and_congr_right fun ha => ?_
    rw [(hchan a ha).fd_eq]
  index i a hi := by
    rw [(hchan a (List.mem_of_getElem? hi)).index_eq]
    exact h.index i a hi
  entry i a hi := by
    have hsame := hchan a (List.mem_of_getElem? hi)
    obtain ⟨pfd, hpfd, hof⟩ := h.entry i a hi
    refine ⟨pfd, hpfd, ?_⟩
    rw [EntryOf, hsame.fd_eq, hsame.events_eq]
    exact hof

/-- Nor on those of the entries. -/
theorem written (h : Represents p chan order) {fds : List PollFd}
    (hlength : fds.length = p.fds.length)
    (hfds : ∀ (i : ℕ) pfd, p.fds[i]? = some pfd → ∃ revents, fds[i]? = some { pfd with revents }) :
    Represents { p with fds } chan order where
  nodup := h.nodup
  length := hlength.trans h.length
  size := h.size
  descriptor := h.descriptor
  owner := h.owner
  index := h.index
  entry i a hi := by
    obtain ⟨pfd, hpfd, hof⟩ := h.entry i a hi
    obtain ⟨revents, hnew⟩ := hfds i pfd hpfd
    exact ⟨_, hnew, hof⟩

end Represents

def newEntry (c : Channel) : PollFd := ⟨c.fd, c.events.setWidth 16, 0⟩

def rewritten (c : Channel) (pfd : PollFd) : PollFd :=
  ⟨if c.isEmptyEvent then -c.fd - 1 else pfd.fd, c.events.setWidth 16, 0⟩

theorem known_events_short {events : BitVec 32} (h : Channel.KnownEvents events) :
    (events.setWidth 16).signExtend 32 = events := by
  rcases h with rfl | rfl | rfl | rfl <;> decide

theorem updateChannel_new {p : Poller ι} {c : Channel} {id : ι} (hindex : c.index < 0) :
    p.updateChannel id c = some (⟨p.fds ++ [newEntry c], p.channels.insert c.fd id⟩,
      c.set_index p.fds.length) := by
  simp [updateChannel, hindex, newEntry]

theorem updateChannel_known {p : Poller ι} {c : Channel} {id : ι} {pfd : PollFd}
    (hindex : 0 ≤ c.index) (hpfd : p.fds[c.index.toNat]? = some pfd) :
    p.updateChannel id c =
      some (⟨p.fds.set c.index.toNat (rewritten c pfd), p.channels⟩, c) := by
  have hneg : ¬ c.index < 0 := by omega
  simp only [updateChannel, if_neg hneg, hpfd, rewritten]
  split <;> rfl

variable [DecidableEq ι]

def moveIndex (chan : ι → Channel) : Option (ι × ℤ) → ι → Channel
  | none => chan
  | some (m, idx) => Function.update chan m ((chan m).set_index idx)

@[simp] theorem moveIndex_fd (chan : ι → Channel) (moved : Option (ι × ℤ)) (a : ι) :
    (moveIndex chan moved a).fd = (chan a).fd := by
  rcases moved with - | ⟨m, i⟩
  · rfl
  · by_cases ha : a = m
    · simp [moveIndex, ha, Channel.set_index]
    · simp [moveIndex, ha]

@[simp] theorem moveIndex_events (chan : ι → Channel) (moved : Option (ι × ℤ)) (a : ι) :
    (moveIndex chan moved a).events = (chan a).events := by
  rcases moved with - | ⟨m, i⟩
  · rfl
  · by_cases ha : a = m
    · simp [moveIndex, ha, Channel.set_index]
    · simp [moveIndex, ha]

theorem Represents.append {p : Poller ι} {chan : ι → Channel} {order : List ι}
    (h : Represents p chan order) {id : ι} {c : Channel} (hnew : id ∉ order)
    (hfree : p.channels[c.fd]? = none) (hfd : 0 ≤ c.fd) (hknown : Channel.KnownEvents c.events) :
    Represents ⟨p.fds ++ [newEntry c], p.channels.insert c.fd id⟩
      (Function.update chan id (c.set_index p.fds.length)) (order ++ [id]) := by
  have hold : ∀ a ∈ order, Function.update chan id (c.set_index p.fds.length) a = chan a := by
    intro a ha
    exact Function.update_of_ne (by rintro rfl; exact hnew ha) _ _
  have hself : Function.update chan id (c.set_index p.fds.length) id = c.set_index p.fds.length :=
    Function.update_self _ _ _
  have hlast : ∀ (i : ℕ) a, (order ++ [id])[i]? = some a →
      order[i]? = some a ∨ (i = order.length ∧ a = id) := by
    intro i a hi
    rw [List.getElem?_append] at hi
    split_ifs at hi with hlt
    · exact Or.inl hi
    · have hpos := (List.getElem?_eq_some_iff.1 hi).1
      rw [List.length_singleton] at hpos
      have hzero : i - order.length = 0 := by omega
      rw [hzero] at hi
      exact Or.inr ⟨by omega, (Option.some.inj hi).symm⟩
  constructor
  · refine List.nodup_append.2 ⟨h.nodup, List.nodup_singleton _, ?_⟩
    rintro a ha b hb rfl
    exact hnew (List.mem_singleton.1 hb ▸ ha)
  · simp [h.length]
  · have habsent : c.fd ∉ p.channels := by simpa using hfree
    simp [Std.ExtTreeMap.size_insert, habsent, h.size]
  · intro a ha
    rcases List.mem_append.1 ha with ha | ha
    · rw [hold a ha]
      exact h.descriptor a ha
    · rw [List.mem_singleton.1 ha, hself]
      exact hfd
  · intro fd a
    have howner : ∀ b ∈ order, (chan b).fd ≠ c.fd := by
      intro b hb hcon
      rw [(h.owner _ _).2 ⟨hb, hcon⟩] at hfree
      cases hfree
    rw [Std.ExtTreeMap.getElem?_insert, List.mem_append, List.mem_singleton]
    simp only [Std.LawfulEqCmp.compare_eq_iff_eq]
    by_cases hsame : c.fd = fd
    · -- the descriptor was free, so only the new channel owns it
      rw [if_pos hsame, Option.some.injEq]
      constructor
      · rintro rfl
        exact ⟨Or.inr rfl, by rw [hself]; exact hsame⟩
      · rintro ⟨ha | ha, hcon⟩
        · rw [hold a ha, ← hsame] at hcon
          exact absurd hcon (howner a ha)
        · exact ha.symm
    · rw [if_neg hsame, h.owner]
      constructor
      · rintro ⟨ha, hcon⟩
        exact ⟨Or.inl ha, by rw [hold a ha]; exact hcon⟩
      · rintro ⟨ha | rfl, hcon⟩
        · rw [hold a ha] at hcon
          exact ⟨ha, hcon⟩
        · rw [hself] at hcon
          exact absurd hcon hsame
  · intro i a hi
    rcases hlast i a hi with hi | ⟨rfl, rfl⟩
    · rw [hold a (List.mem_of_getElem? hi)]
      exact h.index i a hi
    · rw [hself, ← h.length]
      rfl
  · intro i a hi
    rcases hlast i a hi with hi | ⟨rfl, rfl⟩
    · rw [hold a (List.mem_of_getElem? hi)]
      obtain ⟨pfd, hpfd, hof⟩ := h.entry i a hi
      exact ⟨pfd, by rw [List.getElem?_append_left (List.getElem?_eq_some_iff.1 hpfd).1, hpfd], hof⟩
    · refine ⟨newEntry c, by simp [← h.length], ?_⟩
      rw [hself]
      exact ⟨Or.inl rfl, known_events_short hknown⟩

/-- The entry of a known channel follows its events; an empty set negates the descriptor. -/
theorem Represents.rewrite {p : Poller ι} {chan : ι → Channel} {order : List ι}
    (h : Represents p chan order) {id : ι} {c : Channel} {pfd : PollFd} (hid : id ∈ order)
    (hfd : c.fd = (chan id).fd) (hindex : c.index = (chan id).index)
    (hknown : Channel.KnownEvents c.events) (hpfd : p.fds[c.index.toNat]? = some pfd) :
    Represents ⟨p.fds.set c.index.toNat (rewritten c pfd), p.channels⟩
      (Function.update chan id c) order := by
  obtain ⟨hnonneg, hget⟩ := h.index_of_mem hid
  rw [← hindex] at hnonneg hget
  have hfds : ∀ a, (Function.update chan id c a).fd = (chan a).fd := by
    intro a
    by_cases ha : a = id
    · simp [ha, hfd]
    · rw [Function.update_of_ne ha]
  constructor
  · exact h.nodup
  · simp [h.length]
  · exact h.size
  · intro a ha
    rw [hfds]
    exact h.descriptor a ha
  · intro fd a
    rw [hfds]
    exact h.owner fd a
  · intro i a hi
    by_cases ha : a = id
    · rw [ha, Function.update_self, hindex, ← ha]
      exact h.index i a hi
    · rw [Function.update_of_ne ha]
      exact h.index i a hi
  · intro i a hi
    obtain ⟨old, hold, hof⟩ := h.entry i a hi
    by_cases ha : a = id
    · subst ha
      have hpos : c.index.toNat = i := by
        rw [hindex, h.index i a hi]
        rfl
      rw [hpos] at hpfd ⊢
      rw [hold] at hpfd
      cases hpfd
      refine ⟨rewritten c pfd, by simp [(List.getElem?_eq_some_iff.1 hold).1], ?_⟩
      rw [Function.update_self]
      refine ⟨?_, known_events_short hknown⟩
      simp only [rewritten, hfd]
      split_ifs
      · exact Or.inr rfl
      · exact hof.1
    · have hne : c.index.toNat ≠ i := by
        rintro rfl
        rw [hget] at hi
        exact ha (Option.some.inj hi).symm
      rw [Function.update_of_ne ha]
      exact ⟨old, by rw [List.getElem?_set_ne hne, hold], hof⟩

omit [DecidableEq ι] in
/-- Deleting position `i` from the vector and from `order`, and the owner from the map. -/
theorem Represents.delete {p : Poller ι} {chan chan' : ι → Channel} {order : List ι}
    (h : Represents p chan order) {i : ℕ} {id : ι} (hi : order[i]? = some id)
    (hsame : ∀ a, (chan' a).fd = (chan a).fd ∧ (chan' a).events = (chan a).events)
    (hindex : ∀ (j : ℕ) a, (swapRemove order i)[j]? = some a → (chan' a).index = j) :
    Represents ⟨swapRemove p.fds i, p.channels.erase (chan id).fd⟩ chan' (swapRemove order i) := by
  have hid : id ∈ order := List.mem_of_getElem? hi
  have hlt : i < order.length := (List.getElem?_eq_some_iff.1 hi).1
  have hltf : i < p.fds.length := by rw [h.length]; exact hlt
  have hpfd : p.fds[i]? = some p.fds[i] := List.getElem?_eq_getElem hltf
  have hmem : ∀ a, a ∈ swapRemove order i ↔ a ∈ order ∧ a ≠ id := fun a =>
    mem_swapRemove hi h.nodup
  have hlen := length_swapRemove hi
  constructor
  · exact nodup_swapRemove hi h.nodup
  · have hlenf := length_swapRemove hpfd
    have := h.length
    dsimp only
    omega
  · have hpresent : p.channels.contains (chan id).fd = true := by
      rw [Std.ExtTreeMap.contains_eq_isSome_getElem?, (h.owner _ _).2 ⟨hid, rfl⟩]
      rfl
    simp only [Std.ExtTreeMap.size_erase, hpresent, if_true, h.size]
    omega
  · intro a ha
    rw [(hsame a).1]
    exact h.descriptor a ((hmem a).1 ha).1
  · intro fd a
    rw [Std.ExtTreeMap.getElem?_erase, (hsame a).1, hmem]
    simp only [Std.LawfulEqCmp.compare_eq_iff_eq]
    by_cases hfd : (chan id).fd = fd
    · rw [if_pos hfd]
      refine ⟨fun hcon => (nomatch hcon), ?_⟩
      rintro ⟨⟨ha, hne⟩, hcon⟩
      exact absurd (h.fd_inj ha hid (hcon.trans hfd.symm)) hne
    · rw [if_neg hfd, h.owner]
      constructor
      · rintro ⟨ha, hcon⟩
        refine ⟨⟨ha, ?_⟩, hcon⟩
        rintro rfl
        exact hfd hcon
      · rintro ⟨⟨ha, -⟩, hcon⟩
        exact ⟨ha, hcon⟩
  · exact hindex
  · intro j a hj
    have hget : ∃ k : ℕ, order[k]? = some a ∧ (swapRemove p.fds i)[j]? = p.fds[k]? := by
      rw [getElem?_swapRemove hlt] at hj
      rw [getElem?_swapRemove hltf, h.length]
      split_ifs at hj ⊢ with hjlt hji
      · rw [List.getLast?_eq_getElem?] at hj ⊢
        exact ⟨_, hj, by rw [h.length]⟩
      · exact ⟨j, hj, rfl⟩
    obtain ⟨k, hk, heq⟩ := hget
    obtain ⟨pfd, hpfd, hof⟩ := h.entry k a hk
    refine ⟨pfd, heq.trans hpfd, ?_⟩
    rw [EntryOf, (hsame a).1, (hsame a).2]
    exact hof

/-- Removal moves the last entry into the hole and corrects the index of its channel. -/
theorem Represents.removed {p : Poller ι} {chan : ι → Channel} {order : List ι}
    (h : Represents p chan order) {id : ι} (hid : id ∈ order) :
    ∃ q moved, p.removeChannel (chan id) = some (q, moved) ∧
      Represents q (moveIndex chan moved) (swapRemove order (chan id).index.toNat) ∧
      q.fds = swapRemove p.fds (chan id).index.toNat ∧
      ∀ a ∉ order, moveIndex chan moved a = chan a := by
  obtain ⟨hnonneg, hi⟩ := h.index_of_mem hid
  generalize hpos : (chan id).index.toNat = i at hi ⊢
  have hidx : (chan id).index = i := by omega
  have hlt : i < order.length := (List.getElem?_eq_some_iff.1 hi).1
  have hltf : i < p.fds.length := by rw [h.length]; exact hlt
  have hpfd : p.fds[i]? = some p.fds[i] := List.getElem?_eq_getElem hltf
  have hinside : ¬ ((chan id).index < 0 ∨ (p.fds.length : ℤ) ≤ (chan id).index) := by omega
  unfold removeChannel
  simp only [if_neg hinside, hpos]
  by_cases hlast : i = p.fds.length - 1
  · rw [if_pos hlast]
    refine ⟨_, none, rfl, ?_, (swapRemove_last_index hpfd hlast).symm, fun _ _ => rfl⟩
    rw [← swapRemove_last_index hpfd hlast]
    refine h.delete hi (fun _ => ⟨rfl, rfl⟩) fun j a hj => ?_
    rw [getElem?_swapRemove hlt] at hj
    split_ifs at hj with hjlt hji
    · rw [h.length] at hlast
      omega
    · exact h.index j a hj
  · rw [if_neg hlast]
    have hne : order ≠ [] := List.ne_nil_of_mem hid
    obtain ⟨m, hm⟩ : ∃ m, order[order.length - 1]? = some m :=
      ⟨_, List.getElem?_eq_getElem (by omega)⟩
    have hmem : m ∈ order := List.mem_of_getElem? hm
    have hmid : m ≠ id := by
      rintro rfl
      have := h.index _ _ hm
      rw [h.length] at hlast
      omega
    obtain ⟨last, hlastget, hof⟩ := h.entry _ _ hm
    rw [← h.length, ← List.getLast?_eq_getElem?] at hlastget
    have hfdm := h.descriptor m hmem
    have hdecode : (if last.fd < 0 then -last.fd - 1 else last.fd) = (chan m).fd := by
      rcases hof.1 with hfd | hfd <;> rw [hfd] <;> split_ifs <;> omega
    have hfound : (p.channels.erase (chan id).fd)[(chan m).fd]? = some m := by
      rw [Std.ExtTreeMap.getElem?_erase, (h.owner _ _).2 ⟨hmem, rfl⟩]
      simp only [Std.LawfulEqCmp.compare_eq_iff_eq]
      rw [if_neg fun hcon => hmid (h.fd_inj hmem hid hcon.symm)]
    simp only [hlastget, hdecode, hfound, dropLast_iterSwap hpfd, hidx]
    have hothers : ∀ a ∉ order, moveIndex chan (some (m, (i : ℤ))) a = chan a := by
      intro a ha
      exact Function.update_of_ne (by rintro rfl; exact ha hmem) _ _
    refine ⟨_, some (m, (i : ℤ)), rfl, ?_, rfl, hothers⟩
    refine h.delete hi (fun a => ⟨moveIndex_fd _ _ a, moveIndex_events _ _ a⟩) fun j a hj => ?_
    rw [getElem?_swapRemove hlt] at hj
    split_ifs at hj with hjlt hji
    · rw [List.getLast?_eq_getElem?, hm] at hj
      cases hj
      simp [moveIndex, Channel.set_index, hji]
    · have ha : a ≠ m := by
        rintro rfl
        have := h.index _ _ hj
        have := h.index _ _ hm
        omega
      rw [moveIndex, Function.update_of_ne ha]
      exact h.index j a hj

end HydrogenWeb.Poller
