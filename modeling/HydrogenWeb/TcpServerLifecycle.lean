import HydrogenWeb.TcpServerHandlers

set_option autoImplicit false

/-!
# Every connection is established once, closed at most once and destroyed after that

The functors that `newConnectionHandler` and `closeHandler` put off run in the functor
phase of the same iteration, where no list of active channels is left.
-/
namespace HydrogenWeb.TcpServer
open TransitionRuns Lifecycle Poller

variable {s s' : TcpServer} {stage : ℕ → Stage} {order : List ChannelId} {id : ℕ}
  {batch : List Functor}

theorem Ledger.setPoller (h : Ledger s stage) (q : Poller ChannelId) :
    Ledger { s with poller := q } stage :=
  ⟨h.trace, h.born, h.bound, h.state, h.connName, h.listed, h.establish, h.destroy, h.deferred⟩

theorem active_of_nil (h : s.phase.active = []) : Active s stage :=
  ⟨by rw [h]; exact List.nodup_nil, by simp [h], by simp [h]⟩

theorem storeIndex_quiet (s : TcpServer) (moved : Option (ChannelId × ℤ)) :
    Quiet s (s.storeIndex moved) ∧ (s.storeIndex moved).chan = moveIndex s.chan moved := by
  rcases moved with - | ⟨a, idx⟩
  · exact ⟨Quiet.refl s, rfl⟩
  · exact ⟨Quiet.setChannel rfl, chan_setChannel s a _⟩

/-- A functor that has marked its start and changed its connection, before the update. -/
theorem begun_spec (htable : Channels s.poller s.chan stage order)
    {m : Mark} {c : TcpConnection} {u : TcpServer}
    (hu : (TcpServer.mark { s with phase := .functors batch } id m).setConn id c = u) :
    u.chan (.conn id) = c.channel ∧ u.phase = .functors batch ∧
      Channels u.poller (Function.update u.chan (.conn id) (s.chan (.conn id))) stage order := by
  have huchan : u.chan = Function.update s.chan (.conn id) c.channel := by
    rw [← hu, chan_setConn]
    congr 1
  refine ⟨by rw [huchan, Function.update_self], by rw [← hu]; rfl, ?_⟩
  rw [huchan, Function.update_idem, Function.update_eq_self, ← hu]
  exact htable

theorem establish_spec (h : Inv s stage)
    (hphase : s.phase = .functors (.establishConnection id :: batch)) (user : List UserCall) :
    ∃ s', runFunctor user { s with phase := .functors batch } (.establishConnection id) = some s' ∧
      s'.phase = .functors batch ∧ Inv s' (Function.update stage id .established) := by
  have hid := h.ledger.establish_next hphase
  obtain ⟨order, htable⟩ := h.table
  have hstate : (s.conn id).state = .CONNECTING := by
    have hat := h.ledger.state id
    rwa [hid] at hat
  have hopen : ChannelOpen stage (.conn id) := by
    rw [ChannelOpen, hid]
    rfl
  have hin : .conn id ∉ order := by
    rw [htable.registered, hid]
    decide
  obtain ⟨-, hknown⟩ := htable.unused _ hopen hin
  have hledger := h.ledger.established hphase (c := { s.conn id with
    state := .CONNECTED, channel := (s.conn id).channel.enableReading }) rfl rfl
  generalize hu : (TcpServer.mark { s with phase := .functors batch } id .establish).setConn id
    { s.conn id with state := .CONNECTED, channel := (s.conn id).channel.enableReading } = u
    at hledger
  obtain ⟨hself, huphase, hback⟩ := begun_spec htable hu
  obtain ⟨v, hv, hquiet, htable'⟩ := register_quiet
    (Function.update stage id .established) hback hin hopen (by rw [hself]; rfl)
    (by rw [hself]; rfl) (by rw [hself]; exact Channel.enableReading_known hknown)
    (by rw [hself]; exact enableReading_isEmptyEvent hknown) (fun i => by
      rw [Function.update_apply]
      simp only [ChannelId.conn.injEq, eq_comm])
  have hvphase : v.phase = .functors batch := hquiet.phase.trans huphase
  have hinv : Inv v (Function.update stage id .established) :=
    ⟨hledger.quiet hquiet, active_of_nil (by rw [hvphase]; rfl), _, htable'⟩
  obtain ⟨s', hs', hp, -, hinv'⟩ := hinv.userCalls user
  refine ⟨s', ?_, hp.trans hvphase, hinv'⟩
  have hconnecting : (TcpServer.conn { s with phase := .functors batch } id).state = .CONNECTING :=
    hstate
  rw [runFunctor, TcpConnection.establishConnection, if_pos hconnecting, Option.bind_some, perform]
  change run _ (TcpServer.setConn _ id { s.conn id with
    state := .CONNECTED, channel := (s.conn id).channel.enableReading }) _ = some s'
  rw [hu, run_cons, effect, hv, Option.bind_some, run_cons, effect, hs']
  rfl

/-- `destroyConnection`: the assertions of `removeChannel` hold when it comes to it. -/
theorem destroy_spec (h : Inv s stage)
    (hphase : s.phase = .functors (.destroyConnection id :: batch)) (user : List UserCall) :
    ∃ s', runFunctor user { s with phase := .functors batch } (.destroyConnection id) = some s' ∧
      s'.phase = .functors batch ∧ Inv s' (Function.update stage id .removed) := by
  have hid := h.ledger.destroy_next hphase
  obtain ⟨order, htable⟩ := h.table
  have hstate : (s.conn id).state = .CONNECTED ∨ (s.conn id).state = .DISCONNECTING := by
    have hat := h.ledger.state id
    rwa [hid] at hat
  have hledger := h.ledger.destroyed hphase (c := { s.conn id with
    state := .DISCONNECTED, channel := (s.conn id).channel.disableAll }) rfl rfl
  generalize hu : (TcpServer.mark { s with phase := .functors batch } id .destroy).setConn id
    { s.conn id with state := .DISCONNECTED, channel := (s.conn id).channel.disableAll } = u
    at hledger
  obtain ⟨hself, huphase, hback⟩ := begun_spec htable hu
  obtain ⟨v, hv, hquiet, -, htable'⟩ := silence_quiet (y := .destroyed) hback
    (by rw [hid]; rfl) (Or.inr rfl) (by rw [hself]; rfl) (by rw [hself]; rfl) (by rw [hself]; rfl)
  have hvphase : v.phase = .functors batch := hquiet.phase.trans huphase
  have hinv : Inv v (Function.update stage id .destroyed) :=
    ⟨hledger.quiet hquiet, active_of_nil (by rw [hvphase]; rfl), _, htable'⟩
  obtain ⟨w, hw, hp, -, hinvw⟩ := hinv.userCalls user
  have hdestroyed : Function.update stage id .destroyed id = .destroyed := Function.update_self _ _ _
  obtain ⟨orderw, htablew⟩ := hinvw.table
  obtain ⟨hentry, hasserts, q, moved, rest, hq, htableq⟩ := htablew.remove hdestroyed
    (Function.update_idem _ _ _).symm
  have hremoved := hinvw.ledger.marked id (m := .remove) (y := .removed)
    (by rw [hdestroyed]; rfl) (by rw [hdestroyed]; decide) (by rw [hdestroyed]; rfl)
    (by rw [hdestroyed]; decide) (by
      have hat := hinvw.ledger.state id
      rwa [hdestroyed] at hat)
  rw [Function.update_idem] at hremoved
  obtain ⟨hstore, hstorechan⟩ := storeIndex_quiet (w.mark id .remove) moved
  refine ⟨{ (w.mark id .remove).storeIndex moved with poller := q }, ?_, ?_, ?_, ?_, rest, ?_⟩
  · have hconnected : (TcpServer.conn { s with phase := .functors batch } id).state = .CONNECTED ∨
        (TcpServer.conn { s with phase := .functors batch } id).state = .DISCONNECTING := hstate
    rw [runFunctor, TcpConnection.destroyConnection, if_pos hconnected, Option.bind_some, perform]
    change run _ (TcpServer.setConn _ id { s.conn id with
      state := .DISCONNECTED, channel := (s.conn id).channel.disableAll }) _ = _
    rw [hu, run_cons, effect, hv, Option.bind_some, run_cons, effect, hw, Option.bind_some,
      run_cons, effect, removeChannel]
    change (if RemoveEntry w.poller _ (w.chan (.conn id)) ∧ RemoveAsserts w.poller
      (w.chan (.conn id)) then (w.poller.removeChannel (w.chan (.conn id))).map _ else none).bind _ = _
    rw [if_pos ⟨hentry, hasserts⟩, hq]
    rfl
  · exact hstore.phase.trans (hp.trans hvphase)
  · exact (hremoved.quiet hstore).setPoller q
  · refine active_of_nil ?_
    change ((w.mark id .remove).storeIndex moved).phase.active = []
    rw [hstore.phase.trans (hp.trans hvphase)]
    rfl
  · change Channels q ((w.mark id .remove).storeIndex moved).chan _ rest
    have hwchan : (w.mark id .remove).chan = w.chan := by
      funext b
      cases b <;> rfl
    rw [hstorechan, hwchan]
    exact htableq

theorem Ledger.setChannel (h : Ledger s stage) (a : ChannelId) (c : Channel) :
    Ledger (s.setChannel a c) stage := by
  cases a with
  | conn i =>
    have hconn : ∀ j, ((s.setChannel (.conn i) c).conn j).connName = (s.conn j).connName ∧
        ((s.setChannel (.conn i) c).conn j).state = (s.conn j).state := by
      intro j
      change (Function.update s.conn i { s.conn i with channel := c } j).connName = _ ∧
        (Function.update s.conn i { s.conn i with channel := c } j).state = _
      by_cases hj : j = i
      · rw [hj, Function.update_self]
        exact ⟨rfl, rfl⟩
      · rw [Function.update_of_ne hj]
        exact ⟨rfl, rfl⟩
    refine ⟨h.trace, h.born, h.bound, ?_, ?_, ?_, h.establish, h.destroy, h.deferred⟩
    · intro j
      rw [(hconn j).2]
      exact h.state j
    · intro j hj
      rw [(hconn j).1]
      exact h.connName j hj
    · intro name j
      rw [(hconn j).1]
      exact h.listed name j
  | _ =>
    exact ⟨h.trace, h.born, h.bound, h.state, h.connName, h.listed, h.establish, h.destroy,
      h.deferred⟩

theorem storeRevents_spec {active : List (ChannelId × BitVec 16)} (h : Ledger s stage)
    (hnodup : (active.map Prod.fst).Nodup) : Ledger (s.storeRevents active) stage ∧
      (s.storeRevents active).pending = s.pending ∧
      (s.storeRevents active).unprocessedFunctors = s.unprocessedFunctors ∧
      (∀ a, ((s.storeRevents active).chan a).Alike (s.chan a)) ∧
      (∀ a ∉ active.map Prod.fst, (s.storeRevents active).chan a = s.chan a) ∧
      ∀ x ∈ active, ((s.storeRevents active).chan x.1).revents = x.2.signExtend 32 := by
  induction active generalizing s with
  | nil => exact ⟨h, rfl, rfl, fun _ => Channel.Alike.refl _, fun _ _ => rfl, by simp⟩
  | cons x active ih =>
    obtain ⟨a, r⟩ := x
    obtain ⟨hout, hnodup⟩ := List.nodup_cons.1 hnodup
    generalize ht : s.setChannel a ((s.chan a).set_revents (r.signExtend 32)) = t
    have htchan : t.chan = Function.update s.chan a ((s.chan a).set_revents (r.signExtend 32)) := by
      rw [← ht, chan_setChannel]
    have hcons : s.storeRevents ((a, r) :: active) = t.storeRevents active := by
      rw [← ht]
      rfl
    have htsame : t.pending = s.pending ∧ t.unprocessedFunctors = s.unprocessedFunctors := by
      rw [← ht]
      cases a <;> exact ⟨rfl, rfl⟩
    obtain ⟨hledger, hpending, hqueue, halike, hothers, hrevents⟩ :=
      ih (s := t) (ht ▸ h.setChannel a _) hnodup
    rw [hcons]
    refine ⟨hledger, hpending.trans htsame.1, hqueue.trans htsame.2, ?_, ?_, ?_⟩
    · intro b
      have hb := halike b
      by_cases heq : b = a
      · rw [htchan, heq, Function.update_self] at hb
        rw [heq]
        exact ⟨hb.fd_eq, hb.events_eq, hb.index_eq⟩
      · rw [htchan, Function.update_of_ne heq] at hb
        exact hb
    · intro b hb
      obtain ⟨hne, hb⟩ := not_or.1 (mt List.mem_cons.2 hb)
      rw [hothers b hb, htchan, Function.update_of_ne hne]
    · intro x hx
      rcases List.mem_cons.1 hx with rfl | hx
      · rw [hothers a hout, htchan, Function.update_self]
        rfl
      · exact hrevents x hx

/-- `poll` finds established connections and channels of the loop only. -/
theorem poll_spec (h : Inv s stage) (hsettled : ∀ id, stage id ≠ .destroyed)
    (hphase : s.phase = .polling) {revents : ℤ → BitVec 16}
    (hpromised : ∀ pfd ∈ s.poller.fds, Promised ((revents pfd.fd).signExtend 32))
    (numEvents : ℤ) : ∃ s', s.poll revents numEvents = some s' ∧ Inv s' stage := by
  obtain ⟨order, htable⟩ := h.table
  obtain ⟨active, hfill, hsub, hgood⟩ := htable.watches.fillActiveChannels_spec revents numEvents
  have hnodup := hsub.nodup htable.watches.nodup
  obtain ⟨hledger, hpending, hqueue, halike, -, hrevents⟩ := storeRevents_spec h.ledger hnodup
  have hledger' : Ledger { s.storeRevents active with
      phase := .handling (active.map Prod.fst),
      unprocessedFunctors := (s.storeRevents active).unprocessedFunctors } stage := by
    refine hledger.rephase (fun f _ => ?_) (fun hcon => by cases hcon)
    rw [hpending, hqueue, pending, hphase]
    rfl
  have hchan : (TcpServer.chan { s.storeRevents active with
      poller := s.poller.answer revents, phase := .handling (active.map Prod.fst) }) =
        (s.storeRevents active).chan := by
    funext b
    cases b <;> rfl
  refine ⟨{ s.storeRevents active with
    poller := s.poller.answer revents, phase := .handling (active.map Prod.fst) }, ?_,
    hledger'.setPoller _, ⟨hnodup, ?_, ?_⟩, order, ?_⟩
  · rw [poll, hfill]
    rfl
  · intro id hid
    obtain ⟨x, hx, heq⟩ := List.mem_map.1 hid
    have hregistered := (htable.registered id).1 (hsub.subset hid)
    have hmuted := (hgood x hx).1
    have hne := hsettled id
    cases hs : stage id <;> simp_all [Stage.registered, Muted]
  · intro a ha
    obtain ⟨x, hx, rfl⟩ := List.mem_map.1 ha
    obtain ⟨-, pfd, hpfd, hanswer⟩ := hgood x hx
    rw [hchan, hrevents x hx, hanswer]
    exact hpromised pfd hpfd
  · rw [hchan]
    refine Channels.alike ⟨htable.watches.answer revents, htable.registered, htable.silent,
      htable.unused, htable.descriptor, htable.distinct⟩ halike

theorem Inv.rephase (h : Inv s stage) (phase : Phase) (queue : List Functor)
    (hcount : ∀ f ≠ .user, (phase.batch ++ queue).count f = s.pending.count f)
    (hdeferred : phase.isHandling = false → ∀ f ∈ queue, f = .user) (hactive : phase.active = []) :
    Inv { s with phase := phase, unprocessedFunctors := queue } stage :=
  ⟨h.ledger.rephase hcount hdeferred, active_of_nil hactive, h.table⟩

theorem construct_spec (h : Inv s stage) : ∃ s', s.construct = some s' ∧ Inv s' stage := by
  obtain ⟨order, htable⟩ := h.table
  obtain ⟨t, order₁, ht, hq, htable₁⟩ := enableReading_quiet (a := .timer) htable (by simp)
  have hinv := h.quiet hq htable₁
  obtain ⟨u, order₂, hu, hq', htable₂⟩ := enableReading_quiet (a := .waken) htable₁ (by simp)
  refine ⟨u, ?_, hinv.quiet hq' htable₂⟩
  change Option.bind ((s.setChannel .timer (s.chan .timer).enableReading).updateChannel .timer)
    (fun s => (s.setChannel .waken (s.chan .waken).enableReading).updateChannel .waken) = some u
  rw [ht, Option.bind_some, hu]

/-- The phase allows the action, and the kernel's answers are ones that it can give. -/
def Possible (s : TcpServer) : Action → Prop
  | .construct => s.phase = .created
  | .poll revents _ => s.phase = .polling ∧
      ∀ pfd ∈ s.poller.fds, Promised ((revents pfd.fd).signExtend 32)
  | .handleEvent answers => s.phase.active ≠ [] ∧
      (s.phase.active.head? = some .acceptor → s.Fresh answers.accepted)
  | .processFunctors => s.phase = .handling []
  | .functor _ => s.phase.batch ≠ []
  | .endFunctors => s.phase = .functors []
  | .addToLoopThread => True
  | .call _ => s.phase = .polling

instance (s : TcpServer) (a : Action) : Decidable (Possible s a) := by
  cases a <;> unfold Possible <;> infer_instance

theorem functor_spec {f : Functor} (h : Inv s stage) (hsettled : ∀ id, stage id ≠ .destroyed)
    (hphase : s.phase = .functors (f :: batch)) (user : List UserCall) :
    ∃ s' stage', runFunctor user { s with phase := .functors batch } f = some s' ∧
      Inv s' stage' ∧ ∀ id, stage' id ≠ .destroyed := by
  have hkeep : ∀ i y, y ≠ .destroyed → ∀ id, Function.update stage i y id ≠ .destroyed := by
    intro i y hy id
    by_cases hid : id = i
    · rw [hid, Function.update_self]
      exact hy
    · rw [Function.update_of_ne hid]
      exact hsettled id
  cases f with
  | establishConnection id =>
    obtain ⟨s', hs', -, hinv⟩ := establish_spec h hphase user
    exact ⟨s', _, hs', hinv, hkeep id _ (by decide)⟩
  | destroyConnection id =>
    obtain ⟨s', hs', -, hinv⟩ := destroy_spec h hphase user
    exact ⟨s', _, hs', hinv, hkeep id _ (by decide)⟩
  | user =>
    have hcount : ∀ f ≠ Functor.user,
        ((Phase.functors batch).batch ++ s.unprocessedFunctors).count f = s.pending.count f := by
      intro f hf
      rw [Ledger.pending_pop hphase, List.count_cons_of_ne hf.symm]
      rfl
    have hinv := h.rephase _ _ hcount (fun _ => h.ledger.deferred (by rw [hphase]; rfl)) rfl
    obtain ⟨s', hs', -, -, hinv'⟩ := hinv.userCalls user
    exact ⟨s', stage, hs', hinv', hsettled⟩

theorem active_cons (h : s.phase.active ≠ []) :
    ∃ a active, s.phase = .handling (a :: active) := by
  cases hphase : s.phase with
  | handling active =>
    rw [hphase] at h
    obtain ⟨a, rest, rfl⟩ := List.exists_cons_of_ne_nil h
    exact ⟨a, rest, rfl⟩
  | _ =>
    rw [hphase] at h
    exact absurd rfl h

theorem batch_cons (h : s.phase.batch ≠ []) : ∃ f batch, s.phase = .functors (f :: batch) := by
  cases hphase : s.phase with
  | functors batch =>
    rw [hphase] at h
    obtain ⟨f, rest, rfl⟩ := List.exists_cons_of_ne_nil h
    exact ⟨f, rest, rfl⟩
  | _ =>
    rw [hphase] at h
    exact absurd rfl h

/-- Every possible action succeeds; nothing leaves the poller while channels are handled. -/
theorem step_spec (h : Inv s stage) (hsettled : ∀ id, stage id ≠ .destroyed) {a : Action}
    (hpossible : Possible s a) :
    ∃ s' stage', step s a = some s' ∧ Inv s' stage' ∧ (∀ id, stage' id ≠ .destroyed) ∧
      (s.phase.isHandling = true → Kept s s') ∧
      ((∃ batch, s.phase = .functors batch) ∨ ∀ id, ended (stage' id) = ended (stage id)) := by
  have hother : ∀ {p : Phase} {s' : TcpServer}, s.phase = p → p.isHandling = false →
      s.phase.isHandling = true → Kept s s' := by
    rintro p s' rfl hp hcon
    rw [hp] at hcon
    cases hcon
  have hsame : (∃ batch, s.phase = .functors batch) ∨ ∀ id, ended (stage id) = ended (stage id) :=
    Or.inr fun _ => rfl
  cases a with
  | construct =>
    have hphase : s.phase = .created := hpossible
    have hinv := h.rephase .polling s.unprocessedFunctors
      (fun f _ => by rw [pending, hphase]; rfl)
      (fun _ => h.ledger.deferred (by rw [hphase]; rfl)) rfl
    obtain ⟨s', hs', hinv'⟩ := construct_spec hinv
    exact ⟨s', stage, hs', hinv', hsettled, hother hphase rfl, hsame⟩
  | poll revents numEvents =>
    obtain ⟨hphase, hpromised⟩ := hpossible
    obtain ⟨s', hs', hinv⟩ := poll_spec h hsettled hphase hpromised numEvents
    exact ⟨s', stage, hs', hinv, hsettled, hother hphase rfl, hsame⟩
  | handleEvent answers =>
    obtain ⟨hactive, hfresh⟩ := hpossible
    obtain ⟨b, active, hphase⟩ := active_cons hactive
    obtain ⟨s', stage', hs', hk, hinv, hstages⟩ := handleEvent_spec answers h hsettled
      hphase fun hb => hfresh (by rw [hphase, hb]; rfl)
    refine ⟨s', stage', ?_, hinv, fun id => (hstages id).2, fun _ => hk,
      Or.inr fun id => (hstages id).1⟩
    simp only [step, hphase]
    exact hs'
  | processFunctors =>
    have hphase : s.phase = .handling [] := hpossible
    refine ⟨_, stage, rfl, h.rephase _ _ (fun f _ => ?_) (fun _ f hf => by cases hf) rfl, hsettled,
      fun _ _ _ ha => ha, hsame⟩
    rw [pending, hphase]
    exact congrArg _ (List.append_nil _)
  | functor user =>
    obtain ⟨f, batch, hphase⟩ := batch_cons hpossible
    obtain ⟨s', stage', hs', hinv, hsettled'⟩ := functor_spec h hsettled hphase user
    refine ⟨s', stage', ?_, hinv, hsettled', hother hphase rfl, Or.inl ⟨_, hphase⟩⟩
    simp only [step, hphase]
    exact hs'
  | endFunctors =>
    have hphase : s.phase = .functors [] := hpossible
    refine ⟨_, stage, rfl, h.rephase .polling s.unprocessedFunctors
      (fun f _ => ?_) (fun _ => h.ledger.deferred (by rw [hphase]; rfl)) rfl, hsettled,
      hother hphase rfl, hsame⟩
    rw [pending, hphase]
    rfl
  | addToLoopThread =>
    obtain ⟨order, htable⟩ := h.table
    have hquiet : Quiet s (s.addToLoopThread .user) :=
      ⟨rfl, rfl, rfl, rfl, rfl, ⟨1, rfl⟩, fun _ => rfl, fun _ => Or.inl rfl, fun _ => rfl,
        fun _ _ h => h⟩
    exact ⟨_, stage, rfl, h.quiet hquiet htable, hsettled, fun _ => hquiet.kept, hsame⟩
  | call u =>
    obtain ⟨order, htable⟩ := h.table
    obtain ⟨s', order', hs', hq, htable'⟩ := userCall_quiet htable h.ledger.state u
    exact ⟨s', stage, hs', h.quiet hq htable', hsettled, fun _ => hq.kept, hsame⟩

/-- What a step may do to the connections: the histories, the map and the poll table. -/
structure LifecycleStep (s s' : TcpServer) : Prop where
  established : ∀ id, .accept ∈ s'.trace id → (s'.trace id).count .establish =
    if .establishConnection id ∈ s'.pending then 0 else 1
  before_poll : s'.phase = .polling →
    ∀ id, .accept ∈ s'.trace id → (s'.trace id).count .establish = 1
  before_events : ∀ id pre post, s'.trace id = pre ++ .event :: post → .establish ∈ pre
  closed : ∀ id, (s'.trace id).count .close ≤ 1
  destroyed : ∀ id, (s'.trace id).count .destroy ≤ 1
  after_close : ∀ id pre post, s'.trace id = pre ++ .destroy :: post → .close ∈ pre
  in_functor_phase : ∀ id, (s'.trace id).count .destroy ≠ (s.trace id).count .destroy →
    ∃ batch, s.phase = .functors batch
  kept : s.phase.isHandling = true → Kept s s'
  listed : ∀ (name : String) id, s'.connections[name]? = some id ↔
    (.accept ∈ s'.trace id ∧ .close ∉ s'.trace id) ∧ (s'.conn id).connName = name

theorem pending_establish (h : Ledger s stage) :
    .establishConnection id ∈ s.pending ↔ stage id = .accepted := by
  rw [← List.count_pos_iff, h.establish]
  split_ifs with hid <;> simp [hid]

theorem count_establish_eq (h : Ledger s stage) (haccept : .accept ∈ s.trace id) :
    (s.trace id).count .establish = if .establishConnection id ∈ s.pending then 0 else 1 := by
  have hunborn := (accept_mem (h.trace id)).1 haccept
  rw [count_establish (h.trace id)]
  simp only [pending_establish h, hunborn, false_or]

theorem lifecycleStep_of_inv {stage' : ℕ → Stage} (h : Inv s stage) (h' : Inv s' stage')
    (hkept : s.phase.isHandling = true → Kept s s')
    (hended : (∃ batch, s.phase = .functors batch) ∨
      ∀ id, ended (stage' id) = ended (stage id)) : LifecycleStep s s' where
  established _ haccept := count_establish_eq h'.ledger haccept
  before_poll hphase id haccept := by
    have hnone : .establishConnection id ∉ s'.pending := by
      intro hmem
      rw [pending, hphase] at hmem
      cases h'.ledger.deferred (by rw [hphase]; rfl) _ hmem
    rw [count_establish_eq h'.ledger haccept, if_neg hnone]
  before_events id pre post htrace :=
    establish_before_event (htrace ▸ h'.ledger.trace id)
  closed id := by
    rw [count_close (h'.ledger.trace id)]
    split_ifs <;> omega
  destroyed id := by
    rw [count_destroy (h'.ledger.trace id)]
    split_ifs <;> omega
  after_close id pre post htrace :=
    close_before_destroy (htrace ▸ h'.ledger.trace id)
  in_functor_phase id hne := by
    refine hended.resolve_right fun hsame => hne ?_
    have hid := hsame id
    rw [count_destroy (h'.ledger.trace id), count_destroy (h.ledger.trace id)]
    cases hs : stage id <;> cases hs' : stage' id <;> simp_all [ended]
  kept := hkept
  listed name id := by
    rw [h'.ledger.listed, accept_mem (h'.ledger.trace id), close_mem (h'.ledger.trace id)]
    refine and_congr_left fun _ => ?_
    cases stage' id <;> simp [Stage.listed]

theorem start_inv (serverName : String) {timerfd wakenfd listenfd : ℤ} (htimer : 0 ≤ timerfd)
    (hwaken : 0 ≤ wakenfd) (hlisten : 0 ≤ listenfd)
    (hdistinct : [timerfd, wakenfd, listenfd].Nodup) :
    Inv (start serverName timerfd wakenfd listenfd) fun _ => .unborn where
  ledger := by
    refine ⟨fun _ => rfl, fun id => ?_, by simp [start], fun _ => rfl, ?_, ?_, fun _ => rfl,
      fun _ => rfl, fun _ f hf => by cases hf⟩
    · exact iff_of_true rfl (Nat.zero_le id)
    · intro id hid
      cases hid
    · intro name id
      simp [start, Stage.listed]
  active := active_of_nil rfl
  table := by
    have hconn : ∀ id, ¬ ChannelOpen (fun _ => .unborn) (.conn id) := fun _ hcon => by cases hcon
    obtain ⟨⟨htw, htl⟩, hwl⟩ : (timerfd ≠ wakenfd ∧ timerfd ≠ listenfd) ∧ wakenfd ≠ listenfd := by
      simpa [not_or] using hdistinct
    refine ⟨[], fresh_watches _ _, by simp [Stage.registered], by simp, ?_, ?_, ?_⟩
    · intro a _ _
      cases a <;> exact ⟨by simp [chan, start, TcpConnection.create, Channel.create], Or.inl rfl⟩
    · intro a ha
      cases a with
      | conn id => exact absurd ha (hconn id)
      | timer => exact htimer
      | waken => exact hwaken
      | acceptor => exact hlisten
    · intro a b ha hb hfd
      cases a <;> cases b <;> first
        | rfl
        | exact absurd ha (hconn _)
        | exact absurd hb (hconn _)
        | simp_all [chan, start, Channel.create]

/-- Every run of possible actions passes all assertions; each accepted connection is
established once and before its events, closed and destroyed at most once, and in the map
from its accept until its close. -/
theorem lifecycle_of_every_run (serverName : String) {timerfd wakenfd listenfd : ℤ}
    (htimer : 0 ≤ timerfd) (hwaken : 0 ≤ wakenfd) (hlisten : 0 ≤ listenfd)
    (hdistinct : [timerfd, wakenfd, listenfd].Nodup) (actions : List Action)
    (hpossible : Along step (fun s a _ => Possible s a)
      (start serverName timerfd wakenfd listenfd) actions) :
    Along step (fun s _ o => ∃ s', o = some s' ∧ LifecycleStep s s')
      (start serverName timerfd wakenfd listenfd) actions := by
  refine along_of_invariant (fun s => ∃ stage, Inv s stage ∧ ∀ id, stage id ≠ .destroyed)
    ?_ ?_ actions ⟨_, start_inv serverName htimer hwaken hlisten hdistinct, by simp⟩ hpossible
  · rintro s a ⟨stage, h, hsettled⟩ hstep
    obtain ⟨s', stage', hs', h', -, hkept, hended⟩ := step_spec h hsettled hstep
    exact ⟨s', hs', lifecycleStep_of_inv h h' hkept hended⟩
  · rintro s a t ⟨stage, h, hsettled⟩ hstep ht
    obtain ⟨s', stage', hs', h', hsettled', -⟩ := step_spec h hsettled hstep
    rw [ht] at hs'
    cases hs'
    exact ⟨stage', h', hsettled'⟩

/-- One client: it is accepted, established, sends a byte, hangs up and is removed. -/
def oneClient : List Action :=
  let quiet : Answers := ⟨-1, .error, .error, []⟩
  [.construct, .call .run,
    .poll (fun fd => if fd = 5 then 1 else 0) 1, .handleEvent { quiet with accepted := 6 },
    .processFunctors, .functor [.send 0 [104, 105] (.wrote 1)], .endFunctors,
    .poll (fun fd => if fd = 6 then 5 else 0) 1,
    .handleEvent { quiet with readv := .delivered [120], write := .wrote 1, user := [.shutdown 0] },
    .processFunctors, .endFunctors,
    .poll (fun fd => if fd = 6 then 16 else 0) 1, .handleEvent quiet,
    .processFunctors, .functor [], .endFunctors]

theorem lifecycle_of_one_client :
    Along step (fun s _ o => ∃ s', o = some s' ∧ LifecycleStep s s') (start "server" 3 4 5)
      oneClient :=
  lifecycle_of_every_run "server" (by decide) (by decide) (by decide) (by decide) oneClient
    (by decide +kernel)

end HydrogenWeb.TcpServer
