import HydrogenWeb.PollerWatch
import HydrogenWeb.TcpServer

set_option autoImplicit false

/-!
# The channels of the server in the poll table

`stage` tells how far each connection is. A channel is registered from the time its
connection is established until it is removed; between the close and the destruction its
entry stays negated, whatever is sent in the meantime.
-/
namespace HydrogenWeb
open Lifecycle Poller

namespace Lifecycle

def Stage.registered : Stage → Bool
  | .established | .closed | .destroyed => true
  | _ => false

def Stage.open : Stage → Bool
  | .accepted | .established | .closed | .destroyed => true
  | _ => false

theorem Stage.open_of_registered {s : Stage} (h : s.registered = true) : s.open = true := by
  cases s <;> simp_all [registered, Stage.open]

end Lifecycle

namespace TcpServer

/-- The channels of the loop and of the acceptor live as long as the server. -/
def ChannelOpen (stage : ℕ → Stage) : ChannelId → Prop
  | .conn id => (stage id).open = true
  | _ => True

def Muted (stage : ℕ → Stage) (a : ChannelId) : Prop := ∃ id, a = .conn id ∧ stage id = .closed

structure Channels (p : Poller ChannelId) (chan : ChannelId → Channel) (stage : ℕ → Stage)
    (order : List ChannelId) : Prop where
  watches : Watches p chan order (Muted stage)
  registered : ∀ id, .conn id ∈ order ↔ (stage id).registered = true
  silent : ∀ id, stage id = .destroyed → (chan (.conn id)).isEmptyEvent = true
  unused : ∀ a, ChannelOpen stage a → a ∉ order →
    (chan a).index < 0 ∧ Channel.KnownEvents (chan a).events
  descriptor : ∀ a, ChannelOpen stage a → 0 ≤ (chan a).fd
  distinct : ∀ a b, ChannelOpen stage a → ChannelOpen stage b → (chan a).fd = (chan b).fd → a = b

variable {p : Poller ChannelId} {chan : ChannelId → Channel} {stage stage' : ℕ → Stage}
  {order : List ChannelId} {a : ChannelId} {c : Channel}

namespace Channels

theorem open_of_mem (h : Channels p chan stage order) (ha : a ∈ order) : ChannelOpen stage a := by
  cases a with
  | conn id => exact Stage.open_of_registered ((h.registered id).1 ha)
  | _ => trivial

theorem alike (h : Channels p chan stage order) {chan' : ChannelId → Channel}
    (hchan : ∀ a, (chan' a).Alike (chan a)) : Channels p chan' stage order where
  watches := h.watches.alike fun a _ => hchan a
  registered := h.registered
  silent id hid := by
    rw [(hchan _).isEmptyEvent_eq]
    exact h.silent id hid
  unused a ha hout := by
    rw [(hchan a).index_eq, (hchan a).events_eq]
    exact h.unused a ha hout
  descriptor a ha := by
    rw [(hchan a).fd_eq]
    exact h.descriptor a ha
  distinct a b ha hb := by
    rw [(hchan a).fd_eq, (hchan b).fd_eq]
    exact h.distinct a b ha hb

/-- A field that the new object of a channel has in common with the old one. -/
theorem update_same {β : Type*} (f : Channel → β) (hf : f c = f (chan a)) (b : ChannelId) :
    f (Function.update chan a c b) = f (chan b) := by
  by_cases hb : b = a
  · rw [hb, Function.update_self, hf]
  · rw [Function.update_of_ne hb]

/-- New events of a registered channel, with the connections at the same or a later stage. -/
theorem update (h : Channels p chan stage order) (stage' : ℕ → Stage) (ha : a ∈ order) (hfd : c.fd = (chan a).fd)
    (hindex : c.index = (chan a).index) (hknown : Channel.KnownEvents c.events)
    (hregistered : ∀ id, (stage' id).registered = (stage id).registered)
    (hopen : ∀ id, (stage' id).open = (stage id).open)
    (hclosed : ∀ id, stage' id = .closed →
      stage id = .closed ∨ a = .conn id ∧ c.isEmptyEvent = true)
    (hdestroyed : ∀ id, stage' id = .destroyed →
      stage id = .destroyed ∧ a ≠ .conn id ∨ a = .conn id ∧ c.isEmptyEvent = true) :
    UpdateEntry p a c ∧ UpdateAsserts p c ∧ ∃ q, p.updateChannel a c = some (q, c) ∧
      q.channels = p.channels ∧ Channels q (Function.update chan a c) stage' order := by
  have hsame : ∀ b, ChannelOpen stage' b ↔ ChannelOpen stage b := by
    intro b
    cases b with
    | conn id =>
      change (stage' id).open = true ↔ (stage id).open = true
      rw [hopen]
    | _ => exact Iff.rfl
  obtain ⟨hentry, hasserts, q, hq, hchannels, hwatches⟩ := h.watches.update ha hfd hindex hknown
  refine ⟨hentry, hasserts, q, hq, hchannels, ?_, ?_, ?_, ?_, ?_, ?_⟩
  · refine hwatches.mono ?_
    rintro b - ⟨id, rfl, hid⟩
    rcases hclosed id hid with hid | ⟨rfl, hempty⟩
    · exact Or.inl ⟨id, rfl, hid⟩
    · exact Or.inr ⟨rfl, hempty⟩
  · intro id
    rw [hregistered]
    exact h.registered id
  · intro id hid
    rcases hdestroyed id hid with ⟨hid, hne⟩ | ⟨rfl, hempty⟩
    · rw [Function.update_of_ne hne.symm]
      exact h.silent id hid
    · rw [Function.update_self]
      exact hempty
  · intro b hb hout
    have hne : b ≠ a := by
      rintro rfl
      exact hout ha
    rw [Function.update_of_ne hne]
    exact h.unused b ((hsame b).1 hb) hout
  · intro b hb
    rw [update_same Channel.fd hfd]
    exact h.descriptor b ((hsame b).1 hb)
  · intro b d hb hd
    rw [update_same Channel.fd hfd, update_same Channel.fd hfd]
    exact h.distinct b d ((hsame b).1 hb) ((hsame d).1 hd)

theorem change (h : Channels p chan stage order) (ha : a ∈ order) (hfd : c.fd = (chan a).fd)
    (hindex : c.index = (chan a).index) (hknown : Channel.KnownEvents c.events)
    (hlive : ∀ id, a = .conn id → stage id ≠ .destroyed) :
    UpdateEntry p a c ∧ UpdateAsserts p c ∧ ∃ q, p.updateChannel a c = some (q, c) ∧
      q.channels = p.channels ∧ Channels q (Function.update chan a c) stage order :=
  h.update stage ha hfd hindex hknown (fun _ => rfl) (fun _ => rfl) (fun _ hid => Or.inl hid)
    fun id hid => Or.inl ⟨hid, fun ha => hlive id ha hid⟩

theorem register (h : Channels p chan stage order) (stage' : ℕ → Stage) (ha : a ∉ order) (hopen : ChannelOpen stage a)
    (hfd : c.fd = (chan a).fd) (hindex : c.index = (chan a).index)
    (hknown : Channel.KnownEvents c.events) (hevents : c.isEmptyEvent = false)
    (hstage : ∀ id, stage' id = if a = .conn id then .established else stage id) :
    UpdateEntry p a c ∧ UpdateAsserts p c ∧ ∃ q n, p.updateChannel a c = some (q, c.set_index n) ∧
      q.channels = p.channels.insert c.fd a ∧ p.channels[c.fd]? = none ∧
      Channels q (Function.update chan a (c.set_index n)) stage' (order ++ [a]) := by
  have hfree : ∀ b ∈ order, (chan b).fd ≠ c.fd := by
    intro b hb hcon
    have := h.distinct b a (h.open_of_mem hb) hopen (hcon.trans hfd)
    exact ha (this ▸ hb)
  have hmuted : ¬ Muted stage a := by
    rintro ⟨id, rfl, hid⟩
    exact ha ((h.registered id).2 (by rw [hid]; rfl))
  have hsame : ∀ b, ChannelOpen stage' b ↔ ChannelOpen stage b := by
    intro b
    cases b with
    | conn id =>
      change (stage' id).open = true ↔ (stage id).open = true
      rw [hstage]
      split_ifs with hid
      · subst hid
        exact iff_of_true rfl hopen
      · exact Iff.rfl
    | _ => exact Iff.rfl
  obtain ⟨hentry, hasserts, q, n, hq, hchannels, hwatches⟩ := h.watches.register ha
    (by rw [hindex]; exact (h.unused a hopen ha).1) (by rw [hfd]; exact h.descriptor a hopen)
    hfree hknown hevents hmuted
  have hfd' : (c.set_index n).fd = (chan a).fd := hfd
  have hnone : p.channels[c.fd]? = none := by
    rwa [UpdateEntry, if_pos (by rw [hindex]; exact (h.unused a hopen ha).1)] at hentry
  refine ⟨hentry, hasserts, q, n, hq, hchannels, hnone, ?_, ?_, ?_, ?_, ?_, ?_⟩
  · refine hwatches.mono ?_
    rintro b - ⟨id, rfl, hid⟩
    rw [hstage] at hid
    split_ifs at hid
    exact ⟨id, rfl, hid⟩
  · intro id
    rw [List.mem_append, List.mem_singleton, hstage, eq_comm (a := ChannelId.conn id)]
    split_ifs with hid
    · exact iff_of_true (Or.inr hid) rfl
    · rw [or_iff_left hid]
      exact h.registered id
  · intro id hid
    rw [hstage] at hid
    split_ifs at hid with hne
    rw [Function.update_of_ne (Ne.symm hne)]
    exact h.silent id hid
  · intro b hb hout
    obtain ⟨hout, hne⟩ := not_or.1 (mt List.mem_append.2 hout)
    rw [Function.update_of_ne (fun hcon => hne (List.mem_singleton.2 hcon))]
    exact h.unused b ((hsame b).1 hb) hout
  · intro b hb
    rw [update_same Channel.fd hfd']
    exact h.descriptor b ((hsame b).1 hb)
  · intro b d hb hd
    rw [update_same Channel.fd hfd', update_same Channel.fd hfd']
    exact h.distinct b d ((hsame b).1 hb) ((hsame d).1 hd)

/-- A removal: the assertions hold, since the channel of a destroyed connection is silent. -/
theorem remove (h : Channels p chan stage order) {id : ℕ} (hid : stage id = .destroyed)
    (hstage : stage' = Function.update stage id .removed) :
    RemoveEntry p (.conn id) (chan (.conn id)) ∧ RemoveAsserts p (chan (.conn id)) ∧
      ∃ q moved rest, p.removeChannel (chan (.conn id)) = some (q, moved) ∧
        Channels q (moveIndex chan moved) stage' rest := by
  have hin : .conn id ∈ order := (h.registered id).2 (by rw [hid]; rfl)
  obtain ⟨hentry, hasserts, q, moved, rest, hq, hwatches, hrest, hothers⟩ :=
    h.watches.remove hin (h.silent id hid)
  have hne : ∀ {b}, ChannelOpen stage' b → b ≠ .conn id := by
    rintro b hb rfl
    rw [ChannelOpen, hstage, Function.update_self] at hb
    cases hb
  have hsame : ∀ {b}, ChannelOpen stage' b → ChannelOpen stage b := by
    intro b hb
    have hb' := hne hb
    cases b with
    | conn i =>
      have hi : i ≠ id := by
        rintro rfl
        exact hb' rfl
      rwa [ChannelOpen, hstage, Function.update_of_ne hi] at hb
    | _ => trivial
  refine ⟨hentry, hasserts, q, moved, rest, hq, ?_, ?_, ?_, ?_, ?_, ?_⟩
  · refine hwatches.mono ?_
    rintro b hb ⟨i, rfl, hi⟩
    have hne := ((hrest _).1 hb).2
    rw [hstage, Function.update_of_ne (fun hcon => hne (by rw [hcon]))] at hi
    exact ⟨i, rfl, hi⟩
  · intro i
    rw [hrest, h.registered, hstage]
    by_cases hi : i = id
    · subst hi
      simp [Stage.registered]
    · simp [hi]
  · intro i hi
    have hsilent : stage i = .destroyed := by
      rw [hstage] at hi
      by_cases hcon : i = id
      · rw [hcon, Function.update_self] at hi
        cases hi
      · rwa [Function.update_of_ne hcon] at hi
    have := h.silent i hsilent
    simpa [Channel.isEmptyEvent] using this
  · intro b hb hout
    have hb' : b ∉ order := fun hcon => hout ((hrest b).2 ⟨hcon, hne hb⟩)
    rw [hothers b hb']
    exact h.unused b (hsame hb) hb'
  · intro b hb
    rw [moveIndex_fd]
    exact h.descriptor b (hsame hb)
  · intro b d hb hd
    rw [moveIndex_fd, moveIndex_fd]
    exact h.distinct b d (hsame hb) (hsame hd)

theorem accept (h : Channels p chan stage order) {id : ℕ} (hid : stage id = .unborn) {fd : ℤ}
    (hfd : 0 ≤ fd) (hfree : ∀ b, ChannelOpen stage b → (chan b).fd ≠ fd) :
    Channels p (Function.update chan (.conn id) (Channel.create fd))
      (Function.update stage id .accepted) order := by
  have hout : .conn id ∉ order := fun hcon => by
    have := (h.registered id).1 hcon
    rw [hid] at this
    cases this
  have hsame : ∀ {b}, ChannelOpen (Function.update stage id .accepted) b → b ≠ .conn id →
      ChannelOpen stage b := by
    intro b hb hne
    cases b with
    | conn i =>
      rwa [ChannelOpen, Function.update_of_ne (fun hcon => hne (by rw [hcon]))] at hb
    | _ => trivial
  have hstage : ∀ {i s}, Function.update stage id .accepted i = s → s ≠ .accepted →
      stage i = s ∧ i ≠ id := by
    intro i s hs hne
    by_cases hi : i = id
    · rw [hi, Function.update_self] at hs
      exact absurd hs.symm hne
    · rw [Function.update_of_ne hi] at hs
      exact ⟨hs, hi⟩
  constructor
  · refine (h.watches.alike fun b hb => ?_).mono ?_
    · have hne : b ≠ .conn id := by
        rintro rfl
        exact hout hb
      rw [Function.update_of_ne hne]
      exact Channel.Alike.refl _
    · rintro b - ⟨i, rfl, hi⟩
      exact ⟨i, rfl, (hstage hi (by decide)).1⟩
  · intro i
    rw [h.registered]
    by_cases hi : i = id
    · rw [hi, Function.update_self, hid]
      rfl
    · rw [Function.update_of_ne hi]
  · intro i hi
    obtain ⟨hi, hne⟩ := hstage hi (by decide)
    rw [Function.update_of_ne (by simpa using hne)]
    exact h.silent i hi
  · intro b hb hb'
    by_cases hne : b = .conn id
    · rw [hne, Function.update_self]
      exact ⟨by simp [Channel.create], Or.inl rfl⟩
    · rw [Function.update_of_ne hne]
      exact h.unused b (hsame hb hne) hb'
  · intro b hb
    by_cases hne : b = .conn id
    · rw [hne, Function.update_self]
      exact hfd
    · rw [Function.update_of_ne hne]
      exact h.descriptor b (hsame hb hne)
  · intro b d hb hd heq
    by_cases hb' : b = .conn id <;> by_cases hd' : d = .conn id
    · rw [hb', hd']
    · rw [hb', Function.update_self, Function.update_of_ne hd'] at heq
      exact absurd heq.symm (hfree d (hsame hd hd'))
    · rw [hd', Function.update_self, Function.update_of_ne hb'] at heq
      exact absurd heq (hfree b (hsame hb hb'))
    · rw [Function.update_of_ne hb', Function.update_of_ne hd'] at heq
      exact h.distinct b d (hsame hb hb') (hsame hd hd') heq

end Channels
end TcpServer
end HydrogenWeb
