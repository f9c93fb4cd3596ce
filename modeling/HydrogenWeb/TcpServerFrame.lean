import HydrogenWeb.TcpServerLifecycle

set_option autoImplicit false

/-!
# What no step changes

The descriptor of a channel stays the one that it was created with, the history of the
connections only grows and only an accept takes a new number.
-/
namespace HydrogenWeb.TcpServer
open TransitionRuns Lifecycle Poller
open TcpConnection (Effect)

structure Framed (s s' : TcpServer) : Prop where
  phase : s'.phase = s.phase
  newConnId : s'.newConnId = s.newConnId
  fd : ∀ a, (s'.chan a).fd = (s.chan a).fd
  log : s.log <+: s'.log

variable {s s' s'' : TcpServer} {id : ℕ} {a : ChannelId} {user : TcpServer → Option TcpServer}

namespace Framed

theorem refl (s : TcpServer) : Framed s s := ⟨rfl, rfl, fun _ => rfl, List.prefix_rfl⟩

theorem trans (h : Framed s s') (h' : Framed s' s'') : Framed s s'' where
  phase := h'.phase.trans h.phase
  newConnId := h'.newConnId.trans h.newConnId
  fd a := (h'.fd a).trans (h.fd a)
  log := h.log.trans h'.log

theorem setChannel {c : Channel} (hfd : c.fd = (s.chan a).fd) : Framed s (s.setChannel a c) where
  phase := by cases a <;> rfl
  newConnId := by cases a <;> rfl
  fd b := by
    rw [chan_setChannel, Channels.update_same Channel.fd hfd]
  log := by cases a <;> exact List.prefix_rfl

theorem setConn {c : TcpConnection} (hfd : c.channel.fd = (s.conn id).channel.fd) :
    Framed s (s.setConn id c) where
  phase := rfl
  newConnId := rfl
  fd b := by
    rw [chan_setConn, Channels.update_same Channel.fd]
    exact hfd
  log := List.prefix_rfl

theorem mark (s : TcpServer) (id : ℕ) (m : Mark) : Framed s (s.mark id m) :=
  ⟨rfl, rfl, fun a => by cases a <;> rfl, List.prefix_append _ _⟩

theorem run {α : Type*} {f : TcpServer → α → Option TcpServer} {as : List α}
    (hf : ∀ t x t', f t x = some t' → Framed t t') (hrun : run f s as = some s') : Framed s s' :=
  run_invariant (Framed s) (fun t x t' h ht => h.trans (hf t x t' ht)) (refl s) hrun

theorem updateChannel (h : s.updateChannel a = some s') : Framed s s' := by
  rw [TcpServer.updateChannel] at h
  split_ifs at h
  obtain ⟨⟨poller, c⟩, hupdate, rfl⟩ := Option.map_eq_some_iff.1 h
  obtain ⟨⟨idx, hc⟩, -⟩ := updateChannel_spec hupdate
  have hset : Framed s (s.setChannel a c) := setChannel (by rw [hc]; rfl)
  exact ⟨hset.phase, hset.newConnId, fun b => by rw [← hset.fd b]; cases b <;> rfl, hset.log⟩

theorem removeChannel (h : s.removeChannel a = some s') : Framed s s' := by
  rw [TcpServer.removeChannel] at h
  split_ifs at h
  obtain ⟨⟨poller, moved⟩, -, rfl⟩ := Option.map_eq_some_iff.1 h
  have hset : Framed s (s.storeIndex moved) := by
    rcases moved with - | ⟨b, idx⟩
    · exact refl s
    · exact setChannel rfl
  exact ⟨hset.phase, hset.newConnId, fun b => by rw [← hset.fd b]; cases b <;> rfl, hset.log⟩

theorem removeConnection (h : s.removeConnectionInLoopThread id = some s') : Framed s s' := by
  rw [removeConnectionInLoopThread] at h
  split_ifs at h
  cases h
  exact ⟨rfl, rfl, fun b => by cases b <;> rfl, List.prefix_rfl⟩

theorem effect (huser : ∀ t t', user t = some t' → Framed t t') {e : Effect}
    (h : effect user id s e = some s') : Framed s s' := by
  cases e with
  | update => exact updateChannel h
  | removeChannel => exact (mark s id .remove).trans (removeChannel h)
  | closeCallback => exact (mark s id .close).trans (removeConnection h)
  | connCallback => exact huser s s' h
  | msgCallback => exact huser s s' h
  | _ =>
    cases h
    exact refl s

theorem perform (huser : ∀ t t', user t = some t' → Framed t t')
    {r : TcpConnection × List Effect} (hfd : r.1.channel.fd = (s.conn id).channel.fd)
    (h : perform user id s r = some s') : Framed s s' :=
  (setConn hfd).trans (run (fun _ _ _ => effect huser) h)

theorem userCall {u : UserCall} (h : s.userCall u = some s') : Framed s s' := by
  have huser : ∀ t t', some t = some t' → Framed t t' := by
    rintro t t' ⟨⟩
    exact refl t
  cases u with
  | send id msg w => exact perform huser (TcpConnection.send_calm _ msg w).fd h
  | shutdown id => exact perform huser (TcpConnection.shutdown_calm _).fd h
  | clear id len =>
    cases h
    exact setConn rfl
  | run =>
    rw [TcpServer.userCall, listen] at h
    split_ifs at h
    · cases h
      exact refl s
    · have hlistening : Framed s
          { s with listening := true, acceptorChannel := s.acceptorChannel.enableReading } :=
        ⟨rfl, rfl, fun b => by cases b <;> rfl, List.prefix_rfl⟩
      exact hlistening.trans (updateChannel h)
  | addToLoopThread =>
    cases h
    exact ⟨rfl, rfl, fun b => by cases b <;> rfl, List.prefix_rfl⟩

theorem userCalls {calls : List UserCall} (h : userCalls calls s = some s') : Framed s s' :=
  run (fun _ _ _ => userCall) h

theorem connectionHandler_fd {c : TcpConnection} {r : ReadvResult}
    {x : TcpConnection × List Effect} (h : c.connectionHandler r = some x) :
    x.1.channel.fd = c.channel.fd := by
  simp only [TcpConnection.connectionHandler] at h
  split_ifs at h
  · cases h
    rfl
  · rw [TcpConnection.closeHandler] at h
    split_ifs at h
    cases h
    rfl
  · cases h
    rfl

theorem closeHandler_fd {c : TcpConnection} {x : TcpConnection × List Effect}
    (h : c.closeHandler = some x) : x.1.channel.fd = c.channel.fd := by
  rw [TcpConnection.closeHandler] at h
  split_ifs at h
  cases h
  rfl

/-- Every callback but the one of the acceptor. -/
theorem callback {answers : Answers} (ha : a ≠ .acceptor) {cb : Callback}
    (h : callback answers a s cb = some s') : Framed s s' := by
  have huser : ∀ t t', TcpServer.userCalls answers.user t = some t' → Framed t t' :=
    fun _ _ => userCalls
  cases a with
  | acceptor => exact absurd rfl ha
  | timer =>
    cases cb with
    | read => exact userCalls h
    | _ =>
      cases h
      exact refl s
  | waken =>
    cases cb <;> cases h <;> exact refl s
  | conn id =>
    cases cb with
    | close =>
      obtain ⟨r, hr, hrest⟩ := Option.bind_eq_some_iff.1 h
      exact perform huser (closeHandler_fd hr) hrest
    | error => exact perform huser rfl h
    | read =>
      obtain ⟨r, hr, hrest⟩ := Option.bind_eq_some_iff.1 h
      exact perform huser (connectionHandler_fd hr) hrest
    | write => exact perform huser (TcpConnection.writeHandler_calm _ _).fd h

theorem handleEvent {answers : Answers} (ha : a ≠ .acceptor)
    (h : handleEvent answers s a = some s') : Framed s s' := by
  cases a with
  | acceptor => exact absurd rfl ha
  | conn id => exact (mark s id .event).trans (run (fun _ _ _ => callback ha) h)
  | timer => exact run (fun _ _ _ => callback ha) h
  | waken => exact run (fun _ _ _ => callback ha) h

theorem runFunctor {calls : List UserCall} {f : Functor}
    (h : runFunctor calls s f = some s') : Framed s s' := by
  have huser : ∀ t t', TcpServer.userCalls calls t = some t' → Framed t t' :=
    fun _ _ => userCalls
  cases f with
  | establishConnection id =>
    obtain ⟨r, hr, hrest⟩ := Option.bind_eq_some_iff.1 h
    refine (mark s id .establish).trans (perform huser ?_ hrest)
    rw [TcpConnection.establishConnection] at hr
    split_ifs at hr
    cases hr
    rfl
  | destroyConnection id =>
    obtain ⟨r, hr, hrest⟩ := Option.bind_eq_some_iff.1 h
    refine (mark s id .destroy).trans (perform huser ?_ hrest)
    rw [TcpConnection.destroyConnection] at hr
    split_ifs at hr
    cases hr
    rfl
  | user => exact userCalls h

theorem construct (h : s.construct = some s') : Framed s s' := by
  obtain ⟨t, ht, hrest⟩ := Option.bind_eq_some_iff.1 h
  have htimer : Framed s (s.setChannel .timer s.timerChannel.enableReading) := setChannel rfl
  have hwaken : Framed t (t.setChannel .waken t.wakenChannel.enableReading) := setChannel rfl
  exact (htimer.trans (updateChannel ht)).trans (hwaken.trans (updateChannel hrest))

theorem storeRevents (s : TcpServer) (active : List (ChannelId × BitVec 16)) :
    Framed s (s.storeRevents active) := by
  induction active generalizing s with
  | nil => exact refl s
  | cons x active ih =>
    have hset : Framed s (s.setChannel x.1 ((s.chan x.1).set_revents (x.2.signExtend 32))) :=
      setChannel rfl
    exact hset.trans (ih _)

end Framed

def accepted (s : TcpServer) : Action → Option ℤ
  | .handleEvent answers =>
    match s.phase with
    | .handling (.acceptor :: _) =>
      if .read ∈ s.acceptorChannel.handleEvent ∧ answers.accepted ≥ 0 then some answers.accepted
      else none
    | _ => none
  | _ => none

structure Stepped (s : TcpServer) (connfd : Option ℤ) (s' : TcpServer) : Prop where
  newConnId : s'.newConnId = s.newConnId + connfd.toList.length
  fd : ∀ a ≠ .conn s.newConnId, (s'.chan a).fd = (s.chan a).fd
  log : s.log <+: s'.log
  new : ∀ fd ∈ connfd, (s'.conn s.newConnId).channel.fd = fd

theorem Framed.stepped (h : Framed s s') : Stepped s none s' :=
  ⟨h.newConnId, fun a _ => h.fd a, h.log, by simp⟩

theorem Stepped.of_rephase {connfd : Option ℤ} {phase : Phase} {queue : List Functor}
    (h : Stepped { s with phase := phase, unprocessedFunctors := queue } connfd s') :
    Stepped s connfd s' :=
  ⟨h.newConnId, fun a ha => by rw [h.fd a ha]; cases a <;> rfl, h.log, h.new⟩

theorem newConnectionHandler_stepped (s : TcpServer) (connfd : ℤ) :
    Stepped s (some connfd) (s.newConnectionHandler connfd) where
  newConnId := rfl
  fd a ha := by
    have hchan : (s.newConnectionHandler connfd).chan =
        Function.update s.chan (.conn s.newConnId) (Channel.create connfd) :=
      chan_setConn s s.newConnId _
    rw [hchan, Function.update_of_ne ha]
  log := List.prefix_append _ _
  new fd hfd := by
    cases hfd
    change (Function.update s.conn s.newConnId _ s.newConnId).channel.fd = connfd
    rw [Function.update_self]
    rfl

theorem step_stepped {a : Action} (h : step s a = some s') : Stepped s (accepted s a) s' := by
  cases a with
  | construct => exact Stepped.of_rephase (Framed.construct h).stepped
  | poll revents numEvents =>
    obtain ⟨active, -, rfl⟩ := Option.map_eq_some_iff.1 h
    have hframed := Framed.storeRevents s active
    refine ⟨hframed.newConnId, fun b _ => ?_, hframed.log, fun _ hfd => by cases hfd⟩
    rw [← hframed.fd b]
    cases b <;> rfl
  | handleEvent answers =>
    cases hphase : s.phase with
    | handling active =>
      cases active with
      | nil => simp [step, hphase] at h
      | cons b active =>
        simp only [step, hphase] at h
        suffices hafter : Stepped { s with phase := .handling active }
            (accepted s (.handleEvent answers)) s' from hafter.of_rephase
        by_cases hb : b = .acceptor
        · subst hb
          have hrun := acceptor_callbacks answers _ (Channel.handleEvent_read s.acceptorChannel)
            { s with phase := .handling active }
          change run (TcpServer.callback answers .acceptor) _ s.acceptorChannel.handleEvent = _ at h
          rw [hrun, Option.some.injEq] at h
          simp only [accepted, hphase]
          rw [← h]
          by_cases hread : .read ∈ s.acceptorChannel.handleEvent
          · rw [if_pos hread, incomingHandler]
            by_cases hfd : answers.accepted ≥ 0
            · rw [if_pos hfd, if_pos ⟨hread, hfd⟩]
              exact newConnectionHandler_stepped _ _
            · rw [if_neg hfd, if_neg fun hcon => hfd hcon.2]
              exact (Framed.refl _).stepped
          · rw [if_neg hread, if_neg fun hcon => hread hcon.1]
            exact (Framed.refl _).stepped
        · have hnone : accepted s (.handleEvent answers) = none := by
            cases b <;> simp_all [accepted]
          rw [hnone]
          exact (Framed.handleEvent hb h).stepped
    | _ => simp [step, hphase] at h
  | processFunctors =>
    cases h
    exact Stepped.of_rephase (Framed.refl _).stepped
  | functor user =>
    cases hphase : s.phase with
    | functors batch =>
      cases batch with
      | nil => simp [step, hphase] at h
      | cons f batch =>
        simp only [step, hphase] at h
        exact Stepped.of_rephase (Framed.runFunctor h).stepped
    | _ => simp [step, hphase] at h
  | endFunctors =>
    cases h
    exact Stepped.of_rephase (Framed.refl _).stepped
  | addToLoopThread =>
    cases h
    exact Stepped.of_rephase (Framed.refl _).stepped
  | call u => exact (Framed.userCall h).stepped

theorem functor_phase {user : List UserCall} (h : step s (.functor user) = some s') :
    ∃ batch, s'.phase = .functors batch := by
  cases hphase : s.phase with
  | functors batch =>
    cases batch with
    | nil => simp [step, hphase] at h
    | cons f batch =>
      simp only [step, hphase] at h
      exact ⟨batch, (Framed.runFunctor h).phase⟩
  | _ => simp [step, hphase] at h

end HydrogenWeb.TcpServer
