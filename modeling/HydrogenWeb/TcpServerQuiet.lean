import HydrogenWeb.TcpServerChannels

set_option autoImplicit false

/-!
# What the user's code and the quiet methods keep

`send`, `shutdown` and the write handler change the events of one channel and the buffers
and the state of one connection; they neither accept nor close anything.
-/
namespace HydrogenWeb
open TransitionRuns Lifecycle Poller

namespace TcpConnection

def Effect.quiet : Effect → Prop
  | .update | .write _ _ | .shutdownWrite => True
  | _ => False

/-- A connected one may get disconnecting. -/
def StateStep (before after : State) : Prop :=
  after = before ∨ before = .CONNECTED ∧ after = .DISCONNECTING

theorem StateStep.trans {a b c : State} (hab : StateStep a b) (hbc : StateStep b c) :
    StateStep a c := by
  rcases hab with rfl | ⟨rfl, rfl⟩
  · exact hbc
  · rcases hbc with rfl | ⟨hcon, -⟩
    · exact Or.inr ⟨rfl, rfl⟩
    · cases hcon

/-- New events of a channel come with an update. -/
structure Calm (c : TcpConnection) (r : TcpConnection × List Effect) : Prop where
  connName : r.1.connName = c.connName
  state : StateStep c.state r.1.state
  quiet : ∀ e ∈ r.2, e.quiet
  fd : r.1.channel.fd = c.channel.fd
  index : r.1.channel.index = c.channel.index
  revents : r.1.channel.revents = c.channel.revents
  known : Channel.KnownEvents c.channel.events → Channel.KnownEvents r.1.channel.events
  update : r.1.channel = c.channel ∨ .update ∈ r.2

theorem calm_same (c : TcpConnection) : Calm c (c, []) :=
  ⟨rfl, Or.inl rfl, by simp, rfl, rfl, rfl, id, Or.inl rfl⟩

theorem shutdownInLoopThread_calm (c : TcpConnection) : Calm c c.shutdownInLoopThread := by
  unfold shutdownInLoopThread
  split_ifs
  · exact calm_same c
  · exact ⟨rfl, Or.inl rfl, by simp [Effect.quiet], rfl, rfl, rfl, id, Or.inl rfl⟩

theorem appendRest_calm (c : TcpConnection) (data : List UInt8) (n left : ℕ) :
    Calm c (c.appendRest data n left) := by
  unfold appendRest
  dsimp only
  split_ifs
  · exact ⟨rfl, Or.inl rfl, by simp, rfl, rfl, rfl, id, Or.inl rfl⟩
  · exact ⟨rfl, Or.inl rfl, by simp [Effect.quiet], rfl, rfl, rfl, Channel.enableWriting_known,
      Or.inr (by simp)⟩
  · exact calm_same c

theorem Calm.write {c : TcpConnection} {r : TcpConnection × List Effect} (h : Calm c r)
    (offered : List UInt8) (n : ℤ) : Calm c (r.1, .write offered n :: r.2) where
  connName := h.connName
  state := h.state
  quiet e he := by
    rcases List.mem_cons.1 he with rfl | he
    · trivial
    · exact h.quiet e he
  fd := h.fd
  index := h.index
  revents := h.revents
  known := h.known
  update := h.update.imp_right (List.mem_cons_of_mem _)

theorem sendInLoopThread_calm (c : TcpConnection) (data : List UInt8) (w : WriteResult) :
    Calm c (c.sendInLoopThread data w) := by
  unfold sendInLoopThread
  split_ifs
  · dsimp only
    split_ifs
    · exact (appendRest_calm c data _ _).write data _
    · exact (appendRest_calm c data _ _).write data _
  · exact appendRest_calm c data _ _

theorem send_calm (c : TcpConnection) (msg : List UInt8) (w : WriteResult) :
    Calm c (c.send true msg w) := by
  unfold send
  split_ifs
  · exact sendInLoopThread_calm c msg w
  · contradiction
  · exact calm_same c

theorem shutdown_calm (c : TcpConnection) : Calm c (c.shutdown true) := by
  unfold shutdown
  split_ifs with hstate
  · have h := shutdownInLoopThread_calm (c.setState .DISCONNECTING)
    refine ⟨h.connName, ?_, h.quiet, h.fd, h.index, h.revents, h.known, h.update⟩
    rcases h.state with hsame | ⟨hcon, -⟩
    · exact Or.inr ⟨hstate, hsame⟩
    · cases hcon
  · contradiction
  · exact calm_same c

theorem writeHandler_calm (c : TcpConnection) (w : WriteResult) : Calm c (c.writeHandler w) := by
  unfold writeHandler
  split_ifs with hwriting
  · dsimp only
    split_ifs
    · have h := shutdownInLoopThread_calm
        { c with outputBuffer := c.outputBuffer.drop (w.value c.outputBuffer).toNat,
                 channel := c.channel.disableWriting }
      refine ⟨h.connName, h.state, ?_, h.fd, h.index, h.revents, fun hk => h.known ?_,
        Or.inr (by simp)⟩
      · intro e he
        rcases List.mem_cons.1 he with rfl | he
        · trivial
        rcases List.mem_cons.1 he with rfl | he
        · trivial
        · exact h.quiet e he
      · exact Channel.disableWriting_known hk
    · exact ⟨rfl, Or.inl rfl, by simp [Effect.quiet], rfl, rfl, rfl, Channel.disableWriting_known,
        Or.inr (by simp)⟩
    · exact ⟨rfl, Or.inl rfl, by simp [Effect.quiet], rfl, rfl, rfl, id, Or.inl rfl⟩
    · exact ⟨rfl, Or.inl rfl, by simp [Effect.quiet], rfl, rfl, rfl, id, Or.inl rfl⟩
  · exact calm_same c

end TcpConnection

namespace TcpServer
open TcpConnection (Effect StateStep Calm)

variable {s s' s'' : TcpServer} {a : ChannelId} {c : Channel} {stage : ℕ → Stage}
  {order : List ChannelId} {id : ℕ} {user : TcpServer → Option TcpServer}

theorem chan_setConn (s : TcpServer) (id : ℕ) (c : TcpConnection) :
    (s.setConn id c).chan = Function.update s.chan (.conn id) c.channel := by
  funext b
  cases b with
  | conn i =>
    by_cases hi : i = id
    · simp [chan, setConn, hi]
    · simp [chan, setConn, hi]
  | _ => rfl

@[simp] theorem chan_setChannel (s : TcpServer) (a : ChannelId) (c : Channel) :
    (s.setChannel a c).chan = Function.update s.chan a c := by
  cases a with
  | conn id => exact chan_setConn s id _
  | _ =>
    funext b
    cases b <;> rfl

/-- Nothing is accepted, closed or removed; the user may have queued functors. -/
structure Quiet (s s' : TcpServer) : Prop where
  serverName : s'.serverName = s.serverName
  newConnId : s'.newConnId = s.newConnId
  connections : s'.connections = s.connections
  phase : s'.phase = s.phase
  log : s'.log = s.log
  functors : ∃ n, s'.unprocessedFunctors = s.unprocessedFunctors ++ List.replicate n .user
  connName : ∀ id, (s'.conn id).connName = (s.conn id).connName
  state : ∀ id, StateStep (s.conn id).state (s'.conn id).state
  revents : ∀ a, (s'.chan a).revents = (s.chan a).revents
  kept : ∀ (fd : ℤ) (a : ChannelId),
    s.poller.channels[fd]? = some a → s'.poller.channels[fd]? = some a

namespace Quiet

theorem refl (s : TcpServer) : Quiet s s where
  serverName := rfl
  newConnId := rfl
  connections := rfl
  phase := rfl
  log := rfl
  functors := ⟨0, by simp⟩
  connName _ := rfl
  state _ := Or.inl rfl
  revents _ := rfl
  kept _ _ h := h

theorem trans (h : Quiet s s') (h' : Quiet s' s'') : Quiet s s'' where
  serverName := h'.serverName.trans h.serverName
  newConnId := h'.newConnId.trans h.newConnId
  connections := h'.connections.trans h.connections
  phase := h'.phase.trans h.phase
  log := h'.log.trans h.log
  functors := by
    obtain ⟨n, hn⟩ := h.functors
    obtain ⟨m, hm⟩ := h'.functors
    exact ⟨n + m, by rw [hm, hn, List.append_assoc, List.replicate_append_replicate]⟩
  connName id := (h'.connName id).trans (h.connName id)
  state id := (h.state id).trans (h'.state id)
  revents a := (h'.revents a).trans (h.revents a)
  kept fd a hold := h'.kept fd a (h.kept fd a hold)

theorem setConn {c : TcpConnection} (hname : c.connName = (s.conn id).connName)
    (hstate : StateStep (s.conn id).state c.state)
    (hrevents : c.channel.revents = (s.conn id).channel.revents) : Quiet s (s.setConn id c) := by
  have hconn : ∀ i, (s.setConn id c).conn i = if i = id then c else s.conn i := fun i => by
    simp [TcpServer.setConn, Function.update_apply]
  refine ⟨rfl, rfl, rfl, rfl, rfl, ⟨0, by simp [TcpServer.setConn]⟩, ?_, ?_, ?_, fun _ _ h => h⟩
  · intro i
    rw [hconn]
    split_ifs with hi
    · rw [hi, hname]
    · rfl
  · intro i
    rw [hconn]
    split_ifs with hi
    · rw [hi]
      exact hstate
    · exact Or.inl rfl
  · intro b
    rw [chan_setConn]
    exact Channels.update_same Channel.revents hrevents b

theorem setChannel (hrevents : c.revents = (s.chan a).revents) : Quiet s (s.setChannel a c) := by
  cases a with
  | conn id => exact Quiet.setConn rfl (Or.inl rfl) hrevents
  | _ =>
    refine ⟨rfl, rfl, rfl, rfl, rfl, ⟨0, by simp [TcpServer.setChannel]⟩, fun _ => rfl,
      fun _ => Or.inl rfl, fun b => ?_, fun _ _ h => h⟩
    rw [chan_setChannel]
    exact Channels.update_same Channel.revents hrevents b

theorem poller {q : Poller ChannelId}
    (hkept : ∀ (fd : ℤ) (a : ChannelId),
      s.poller.channels[fd]? = some a → q.channels[fd]? = some a) :
    Quiet s { s with poller := q } :=
  ⟨rfl, rfl, rfl, rfl, rfl, ⟨0, by simp⟩, fun _ => rfl, fun _ => Or.inl rfl, fun _ => rfl, hkept⟩

end Quiet

theorem updateChannel_eq {q : Poller ChannelId} (hentry : UpdateEntry s.poller a (s.chan a))
    (hasserts : UpdateAsserts s.poller (s.chan a))
    (hq : s.poller.updateChannel a (s.chan a) = some (q, c)) :
    s.updateChannel a = some { s.setChannel a c with poller := q } := by
  rw [updateChannel, if_pos ⟨hentry, hasserts⟩, hq]
  rfl

/-- The table is the one of the old channel `c₀`, up to the update that is still due. -/
structure Due (s : TcpServer) (stage : ℕ → Stage) (order : List ChannelId) (a : ChannelId)
    (c₀ : Channel) : Prop where
  table : Channels s.poller (Function.update s.chan a c₀) stage order
  mem : a ∈ order
  live : ∀ id, a = .conn id → stage id ≠ .destroyed
  fd : (s.chan a).fd = c₀.fd
  index : (s.chan a).index = c₀.index
  known : Channel.KnownEvents (s.chan a).events

theorem Due.updateChannel {c₀ : Channel} (h : Due s stage order a c₀) :
    ∃ s', s.updateChannel a = some s' ∧ Quiet s s' ∧ s'.chan = s.chan ∧ s'.conn = s.conn ∧
      Channels s'.poller s'.chan stage order := by
  obtain ⟨hentry, hasserts, q, hq, hchannels, htable⟩ := h.table.change h.mem
    (by rw [Function.update_self]; exact h.fd) (by rw [Function.update_self]; exact h.index)
    h.known h.live
  have hchan : (s.setChannel a (s.chan a)).chan = s.chan := by
    rw [chan_setChannel, Function.update_eq_self]
  have hkept : ∀ (fd : ℤ) (b : ChannelId),
      (s.setChannel a (s.chan a)).poller.channels[fd]? = some b → q.channels[fd]? = some b := by
    intro fd b hb
    rw [hchannels]
    cases a <;> exact hb
  refine ⟨_, updateChannel_eq hentry hasserts hq, (Quiet.setChannel rfl).trans (Quiet.poller hkept),
    hchan, ?_, ?_⟩
  · cases a with
    | conn id => exact Function.update_eq_self id s.conn
    | _ => rfl
  · rw [Function.update_idem, Function.update_eq_self] at htable
    change Channels q (s.setChannel a (s.chan a)).chan stage order
    rw [hchan]
    exact htable

/-- The effects of a calm method; they end with the table of the new channel. -/
theorem effects_quiet (user : TcpServer → Option TcpServer) {effects : List Effect} {c₀ : Channel} (hquiet : ∀ e ∈ effects, e.quiet)
    (h : Due s stage order (.conn id) c₀) :
    ∃ s', run (effect user id) s effects = some s' ∧ Quiet s s' ∧ s'.conn = s.conn ∧
      (.update ∈ effects ∨ Channels s.poller s.chan stage order →
        Channels s'.poller s'.chan stage order) := by
  induction effects generalizing s c₀ with
  | nil => exact ⟨s, rfl, Quiet.refl s, rfl, fun hor => hor.resolve_left List.not_mem_nil⟩
  | cons e effects ih =>
    have hrest : ∀ e ∈ effects, e.quiet := fun e he => hquiet e (List.mem_cons_of_mem _ he)
    have hskip : effect user id s e = some s → e ≠ .update →
        ∃ s', run (effect user id) s (e :: effects) = some s' ∧ Quiet s s' ∧ s'.conn = s.conn ∧
          (.update ∈ e :: effects ∨ Channels s.poller s.chan stage order →
            Channels s'.poller s'.chan stage order) := by
      intro heffect hne
      obtain ⟨s', hs', hq, hconn, htable⟩ := ih hrest h
      refine ⟨s', by rw [run_cons, heffect]; exact hs', hq, hconn, fun hor => htable ?_⟩
      refine hor.imp_left fun hmem => ?_
      exact (List.mem_cons.1 hmem).resolve_left hne.symm
    cases e with
    | update =>
      obtain ⟨s₁, hs₁, hq₁, hchan₁, hconn₁, htable₁⟩ := h.updateChannel
      have hdue : Due s₁ stage order (.conn id) (s₁.chan (.conn id)) := by
        refine ⟨by rw [Function.update_eq_self]; exact htable₁, h.mem, h.live, rfl, rfl, ?_⟩
        rw [hchan₁]
        exact h.known
      obtain ⟨s', hs', hq, hconn, htable⟩ := ih hrest hdue
      refine ⟨s', ?_, hq₁.trans hq, hconn.trans hconn₁, fun _ => htable (Or.inr htable₁)⟩
      rw [run_cons, effect, hs₁]
      exact hs'
    | write offered n => exact hskip rfl (by simp)
    | shutdownWrite => exact hskip rfl (by simp)
    | _ => exact (hquiet _ List.mem_cons_self).elim

theorem perform_calm (user : TcpServer → Option TcpServer) (h : Channels s.poller s.chan stage order)
    (hregistered : (stage id).registered = true) (hlive : stage id ≠ .destroyed)
    {r : TcpConnection × List Effect} (hcalm : Calm (s.conn id) r) :
    ∃ s', perform user id s r = some s' ∧ Quiet s s' ∧ s'.conn = Function.update s.conn id r.1 ∧
      Channels s'.poller s'.chan stage order := by
  have hin := (h.registered id).2 hregistered
  have hback : Function.update (s.setConn id r.1).chan (.conn id) (s.chan (.conn id)) = s.chan := by
    rw [chan_setConn, Function.update_idem, Function.update_eq_self]
  have hself : (s.setConn id r.1).chan (.conn id) = r.1.channel := by
    rw [chan_setConn, Function.update_self]
  have hdue : Due (s.setConn id r.1) stage order (.conn id) (s.chan (.conn id)) := by
    refine ⟨by rw [hback]; exact h, hin, ?_, ?_, ?_, ?_⟩
    · rintro i heq
      cases heq
      exact hlive
    · rw [hself]
      exact hcalm.fd
    · rw [hself]
      exact hcalm.index
    · rw [hself]
      exact hcalm.known (h.watches.known _ hin)
  obtain ⟨s', hs', hq, hconn, htable⟩ := effects_quiet user hcalm.quiet hdue
  refine ⟨s', hs', (Quiet.setConn hcalm.connName hcalm.state hcalm.revents).trans hq, hconn,
    htable ?_⟩
  refine hcalm.update.symm.imp_right fun hsame => ?_
  have hchan : (s.setConn id r.1).chan = s.chan := by
    rw [chan_setConn, hsame]
    exact Function.update_eq_self (.conn id) s.chan
  rw [hchan]
  exact h

def StateAt : Stage → TcpConnection.State → Prop
  | .unborn, x | .accepted, x => x = .CONNECTING
  | .established, x | .closed, x => x = .CONNECTED ∨ x = .DISCONNECTING
  | .destroyed, x | .removed, x => x = .DISCONNECTED

theorem StateAt.step {t : Stage} {x y : TcpConnection.State} (h : StateAt t x)
    (hstep : StateStep x y) : StateAt t y := by
  rcases hstep with rfl | ⟨rfl, rfl⟩
  · exact h
  · cases t <;> simp_all [StateAt]

theorem StateAt.registered {t : Stage} {x : TcpConnection.State} (h : StateAt t x)
    (hx : x = .CONNECTED) : t.registered = true ∧ t ≠ .destroyed := by
  cases t <;> simp_all [StateAt, Stage.registered]

theorem enableReading_isEmptyEvent (hknown : Channel.KnownEvents c.events) :
    c.enableReading.isEmptyEvent = false := by
  show decide (c.events ||| Channel.READEVENT = Channel.EMPTYEVENT) = false
  rcases hknown with h | h | h | h <;> rw [h] <;> decide

/-- The first update of an open channel `a`, which was `c₀` before it got events. -/
theorem register_quiet (stage' : ℕ → Stage) {c₀ : Channel}
    (h : Channels s.poller (Function.update s.chan a c₀) stage order) (hin : a ∉ order)
    (hopen : ChannelOpen stage a) (hfd : (s.chan a).fd = c₀.fd)
    (hindex : (s.chan a).index = c₀.index) (hknown : Channel.KnownEvents (s.chan a).events)
    (hevents : (s.chan a).isEmptyEvent = false)
    (hstage : ∀ id, stage' id = if a = .conn id then .established else stage id) :
    ∃ s', s.updateChannel a = some s' ∧ Quiet s s' ∧
      Channels s'.poller s'.chan stage' (order ++ [a]) := by
  obtain ⟨hentry, hasserts, q, n, hq, hchannels, hfree, htable⟩ := h.register stage' hin hopen
    (by rw [Function.update_self]; exact hfd) (by rw [Function.update_self]; exact hindex)
    hknown hevents hstage
  have hkept : ∀ (fd : ℤ) (b : ChannelId),
      (s.setChannel a ((s.chan a).set_index n)).poller.channels[fd]? = some b →
        q.channels[fd]? = some b := by
    intro fd b hb
    have hold : s.poller.channels[fd]? = some b := by
      cases a <;> exact hb
    rw [hchannels, Std.ExtTreeMap.getElem?_insert]
    simp only [Std.LawfulEqCmp.compare_eq_iff_eq]
    rw [if_neg, hold]
    rintro rfl
    rw [hfree] at hold
    cases hold
  have hset : Quiet s (s.setChannel a ((s.chan a).set_index n)) := Quiet.setChannel rfl
  refine ⟨_, updateChannel_eq hentry hasserts hq, hset.trans (Quiet.poller hkept), ?_⟩
  change Channels q (s.setChannel a ((s.chan a).set_index n)).chan stage' (order ++ [a])
  rw [Function.update_idem] at htable
  rw [chan_setChannel]
  exact htable

/-- The update of a channel, which was `c₀`, once `disableAll` has taken its events. -/
theorem silence_quiet {c₀ : Channel} {y : Stage}
    (h : Channels s.poller (Function.update s.chan (.conn id) c₀) stage order)
    (hregistered : (stage id).registered = true) (hy : y = .closed ∨ y = .destroyed)
    (hfd : (s.chan (.conn id)).fd = c₀.fd) (hindex : (s.chan (.conn id)).index = c₀.index)
    (hempty : (s.chan (.conn id)).events = Channel.EMPTYEVENT) :
    ∃ s', s.updateChannel (.conn id) = some s' ∧ Quiet s s' ∧ s'.chan = s.chan ∧
      Channels s'.poller s'.chan (Function.update stage id y) order := by
  have hsame : ∀ f : Stage → Bool, f y = f (stage id) →
      ∀ i, f (Function.update stage id y i) = f (stage i) := by
    intro f hf i
    by_cases hi : i = id
    · rw [hi, Function.update_self, hf]
    · rw [Function.update_of_ne hi]
  have hlater : ∀ {i x}, Function.update stage id y i = x →
      stage i = x ∧ ChannelId.conn id ≠ .conn i ∨
        ChannelId.conn id = .conn i ∧ (s.chan (.conn id)).isEmptyEvent = true := by
    intro i x hi
    by_cases heq : i = id
    · exact Or.inr ⟨by rw [heq], by simp [Channel.isEmptyEvent, hempty]⟩
    · rw [Function.update_of_ne heq] at hi
      exact Or.inl ⟨hi, fun hcon => heq (by cases hcon; rfl)⟩
  obtain ⟨hentry, hasserts, q, hq, hchannels, htable⟩ := h.update
    (Function.update stage id y) ((h.registered id).2 hregistered)
    (by rw [Function.update_self]; exact hfd) (by rw [Function.update_self]; exact hindex)
    (Or.inl hempty) (hsame _ (by rcases hy with rfl | rfl <;> exact hregistered.symm))
    (hsame _ (by
      rcases hy with rfl | rfl <;> exact (Stage.open_of_registered hregistered).symm))
    (fun i hi => (hlater hi).imp_left And.left) fun i hi => hlater hi
  have hkept : ∀ (fd : ℤ) (a : ChannelId),
      (s.setChannel (.conn id) (s.chan (.conn id))).poller.channels[fd]? = some a →
        q.channels[fd]? = some a := by
    intro fd a ha
    rw [hchannels]
    exact ha
  have hchan : (s.setChannel (.conn id) (s.chan (.conn id))).chan = s.chan := by
    rw [chan_setChannel, Function.update_eq_self]
  refine ⟨_, updateChannel_eq hentry hasserts hq, (Quiet.setChannel rfl).trans (Quiet.poller hkept),
    hchan, ?_⟩
  change Channels q (s.setChannel (.conn id) (s.chan (.conn id))).chan _ order
  rw [Function.update_idem, Function.update_eq_self] at htable
  rw [hchan]
  exact htable

/-- Reading on a channel of the loop, in the table or not. -/
theorem enableReading_quiet (h : Channels s.poller s.chan stage order)
    (hloop : ∀ id, a ≠ .conn id) :
    ∃ s' order', (s.setChannel a (s.chan a).enableReading).updateChannel a = some s' ∧
      Quiet s s' ∧ Channels s'.poller s'.chan stage order' := by
  have hopen : ChannelOpen stage a := by
    cases a with
    | conn id => exact absurd rfl (hloop id)
    | _ => trivial
  have hset : Quiet s (s.setChannel a (s.chan a).enableReading) := Quiet.setChannel rfl
  generalize ht : s.setChannel a (s.chan a).enableReading = t at hset ⊢
  have hself : t.chan a = (s.chan a).enableReading := by
    rw [← ht, chan_setChannel, Function.update_self]
  have hback : Channels t.poller (Function.update t.chan a (s.chan a)) stage order := by
    have hpoller : t.poller = s.poller := by
      rw [← ht]
      cases a <;> rfl
    rw [← ht, chan_setChannel, Function.update_idem, Function.update_eq_self, ht, hpoller]
    exact h
  by_cases hin : a ∈ order
  · have hdue : Due t stage order a (s.chan a) :=
      ⟨hback, hin, fun id heq => absurd heq (hloop id), by rw [hself]; rfl, by rw [hself]; rfl,
        by rw [hself]; exact Channel.enableReading_known (h.watches.known a hin)⟩
    obtain ⟨s', hs', hq, -, -, htable⟩ := hdue.updateChannel
    exact ⟨s', order, hs', hset.trans hq, htable⟩
  · obtain ⟨-, hknown⟩ := h.unused a hopen hin
    obtain ⟨s', hs', hq, htable⟩ := register_quiet stage hback hin hopen
      (by rw [hself]; rfl) (by rw [hself]; rfl)
      (by rw [hself]; exact Channel.enableReading_known hknown)
      (by rw [hself]; exact enableReading_isEmptyEvent hknown)
      fun id => (if_neg (hloop id)).symm
    exact ⟨s', order ++ [a], hs', hset.trans hq, htable⟩

theorem perform_call (user : TcpServer → Option TcpServer) (h : Channels s.poller s.chan stage order)
    (hstate : StateAt (stage id) (s.conn id).state) {r : TcpConnection × List Effect}
    (hcalm : Calm (s.conn id) r) (hidle : (s.conn id).state ≠ .CONNECTED → r = (s.conn id, [])) :
    ∃ s', perform user id s r = some s' ∧ Quiet s s' ∧ Channels s'.poller s'.chan stage order := by
  by_cases hconnected : (s.conn id).state = .CONNECTED
  · obtain ⟨hregistered, hlive⟩ := hstate.registered hconnected
    obtain ⟨s', hs', hq, -, htable⟩ := perform_calm user h hregistered hlive hcalm
    exact ⟨s', hs', hq, htable⟩
  · refine ⟨s, ?_, Quiet.refl s, h⟩
    rw [hidle hconnected, perform, run_nil, setConn, Function.update_eq_self]

theorem userCall_quiet (h : Channels s.poller s.chan stage order)
    (hstate : ∀ id, StateAt (stage id) (s.conn id).state) (u : UserCall) :
    ∃ s' order', userCall s u = some s' ∧ Quiet s s' ∧
      Channels s'.poller s'.chan stage order' := by
  cases u with
  | send id msg w =>
    obtain ⟨s', hs', hq, htable⟩ := perform_call some h (hstate id)
      ((s.conn id).send_calm msg w) fun hne => by rw [TcpConnection.send, if_neg hne]
    exact ⟨s', order, hs', hq, htable⟩
  | shutdown id =>
    obtain ⟨s', hs', hq, htable⟩ := perform_call some h (hstate id)
      (s.conn id).shutdown_calm fun hne => by rw [TcpConnection.shutdown, if_neg hne]
    exact ⟨s', order, hs', hq, htable⟩
  | clear id len =>
    refine ⟨_, order, rfl, Quiet.setConn rfl (Or.inl rfl) rfl, ?_⟩
    rw [chan_setConn]
    change Channels s.poller (Function.update s.chan (.conn id) (s.chan (.conn id))) stage order
    rw [Function.update_eq_self]
    exact h
  | run =>
    rw [userCall]
    split_ifs
    · exact ⟨s, order, rfl, Quiet.refl s, h⟩
    · have hlistening : Quiet s { s with listening := true } :=
        ⟨rfl, rfl, rfl, rfl, rfl, ⟨0, by simp⟩, fun _ => rfl, fun _ => Or.inl rfl,
          fun b => by cases b <;> rfl, fun _ _ h => h⟩
      have hchan : TcpServer.chan { s with listening := true } = s.chan := by
        funext b
        cases b <;> rfl
      obtain ⟨s', order', hs', hq, htable⟩ := enableReading_quiet (a := .acceptor)
        (s := { s with listening := true }) (by rw [hchan]; exact h) (by simp)
      exact ⟨s', order', hs', hlistening.trans hq, htable⟩
  | addToLoopThread =>
    refine ⟨_, order, rfl, ?_, h⟩
    exact ⟨rfl, rfl, rfl, rfl, rfl, ⟨1, rfl⟩, fun _ => rfl, fun _ => Or.inl rfl, fun _ => rfl,
      fun _ _ h => h⟩

theorem userCalls_quiet (h : Channels s.poller s.chan stage order)
    (hstate : ∀ id, StateAt (stage id) (s.conn id).state) (calls : List UserCall) :
    ∃ s' order', userCalls calls s = some s' ∧ Quiet s s' ∧
      Channels s'.poller s'.chan stage order' := by
  induction calls generalizing s order with
  | nil => exact ⟨s, order, rfl, Quiet.refl s, h⟩
  | cons u calls ih =>
    obtain ⟨s₁, order₁, hs₁, hq₁, h₁⟩ := userCall_quiet h hstate u
    obtain ⟨s', order', hs', hq, h'⟩ := ih h₁ fun id => (hstate id).step (hq₁.state id)
    refine ⟨s', order', ?_, hq₁.trans hq, h'⟩
    rw [userCalls, run_cons, hs₁]
    exact hs'

end TcpServer
end HydrogenWeb
