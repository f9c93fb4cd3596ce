import HydrogenWeb.TcpServerFrame

set_option autoImplicit false

/-!
# What the connections of one server have of each other

A bare connection is one without the two notes that the poller makes in its channel, the index
and the `revents`. The methods read neither of them, and what the server does for one connection
leaves the others bare as they were.
-/
namespace HydrogenWeb

def Channel.bare (c : Channel) : Channel := { c with revents := 0, index := -1 }

namespace TcpConnection

def bare (c : TcpConnection) : TcpConnection := { c with channel := c.channel.bare }

def bareResult (r : TcpConnection × List Effect) : TcpConnection × List Effect := (r.1.bare, r.2)

theorem shutdownInLoopThread_bare (c : TcpConnection) :
    c.bare.shutdownInLoopThread = bareResult c.shutdownInLoopThread := by
  unfold shutdownInLoopThread
  have hwriting : c.bare.channel.isWriting = c.channel.isWriting := rfl
  rw [hwriting]
  split_ifs
  · rfl
  · rfl

theorem appendRest_bare (c : TcpConnection) (data : List UInt8) (n left : ℕ) :
    c.bare.appendRest data n left = bareResult (c.appendRest data n left) := by
  unfold appendRest
  dsimp only
  have hwriting : c.bare.channel.isWriting = c.channel.isWriting := rfl
  rw [hwriting]
  split_ifs
  · rfl
  · rfl
  · rfl

theorem sendInLoopThread_bare (c : TcpConnection) (data : List UInt8) (w : WriteResult) :
    c.bare.sendInLoopThread data w = bareResult (c.sendInLoopThread data w) := by
  unfold sendInLoopThread
  have hwriting : c.bare.channel.isWriting = c.channel.isWriting := rfl
  have houtput : c.bare.outputBuffer = c.outputBuffer := rfl
  rw [hwriting, houtput]
  simp only [appendRest_bare]
  split_ifs
  · rfl
  · rfl
  · rfl

theorem send_bare (c : TcpConnection) (msg : List UInt8) (w : WriteResult) :
    c.bare.send true msg w = bareResult (c.send true msg w) := by
  unfold send
  have hstate : c.bare.state = c.state := rfl
  rw [hstate, sendInLoopThread_bare]
  split_ifs
  · rfl
  · contradiction
  · rfl

theorem shutdown_bare (c : TcpConnection) :
    c.bare.shutdown true = bareResult (c.shutdown true) := by
  have hset : c.bare.setState .DISCONNECTING = (c.setState .DISCONNECTING).bare := rfl
  have hstate : c.bare.state = c.state := rfl
  simp only [shutdown, hstate, hset, shutdownInLoopThread_bare, if_pos]
  split_ifs
  · rfl
  · rfl

theorem writeHandler_bare (c : TcpConnection) (w : WriteResult) :
    c.bare.writeHandler w = bareResult (c.writeHandler w) := by
  have hwriting : c.bare.channel.isWriting = c.channel.isWriting := rfl
  have houtput : c.bare.outputBuffer = c.outputBuffer := rfl
  have hstate : c.bare.state = c.state := rfl
  have hdrained : (⟨c.bare.connName, c.state, c.bare.channel.disableWriting, c.bare.inputBuffer,
      c.outputBuffer.drop (w.value c.outputBuffer).toNat⟩ : TcpConnection) =
        bare { c with outputBuffer := c.outputBuffer.drop (w.value c.outputBuffer).toNat,
                      channel := c.channel.disableWriting } := rfl
  simp only [writeHandler, hwriting, houtput, hstate, hdrained, shutdownInLoopThread_bare]
  split_ifs
  · rfl
  · rfl
  · rfl
  · rfl
  · rfl

theorem closeHandler_bare (c : TcpConnection) :
    c.bare.closeHandler = c.closeHandler.map bareResult := by
  have hstate : c.bare.state = c.state := rfl
  rw [closeHandler, closeHandler, hstate]
  split_ifs
  · rfl
  · rfl

theorem establishConnection_bare (c : TcpConnection) :
    c.bare.establishConnection = c.establishConnection.map bareResult := by
  have hstate : c.bare.state = c.state := rfl
  rw [establishConnection, establishConnection, hstate]
  split_ifs
  · rfl
  · rfl

theorem connectionHandler_bare (c : TcpConnection) (r : ReadvResult) :
    c.bare.connectionHandler r = (c.connectionHandler r).map bareResult := by
  have hinput : c.bare.inputBuffer = c.inputBuffer := rfl
  have hread : ({ c.bare with inputBuffer := (readFd c.inputBuffer r).2 } : TcpConnection) =
      bare { c with inputBuffer := (readFd c.inputBuffer r).2 } := rfl
  simp only [connectionHandler, hinput, hread, closeHandler_bare]
  split_ifs
  · rfl
  · rfl
  · rfl

end TcpConnection

namespace TcpServer
open TransitionRuns Lifecycle Poller
open TcpConnection (Effect bare)

def bares (s : TcpServer) (id : ℕ) : TcpConnection := (s.conn id).bare

def marks : Effect → List Mark
  | .removeChannel => [.remove]
  | .closeCallback => [.close]
  | _ => []

/-- All that happens to the connections is that `id` becomes `c`, with these marks. -/
structure Moves (id : ℕ) (c : TcpConnection) (ms : List Mark) (s s' : TcpServer) : Prop where
  bares : bares s' = Function.update (bares s) id c
  log : s'.log = s.log ++ ms.map (Prod.mk id)

structure Still (s s' : TcpServer) : Prop where
  bares : bares s' = bares s
  log : s'.log = s.log

variable {s s' s'' : TcpServer} {id : ℕ} {c d : TcpConnection} {ms ns : List Mark}
  {a : ChannelId} {user : TcpServer → Option TcpServer}

theorem Still.refl (s : TcpServer) : Still s s := ⟨rfl, rfl⟩

theorem Still.trans (h : Still s s') (h' : Still s' s'') : Still s s'' :=
  ⟨h'.bares.trans h.bares, h'.log.trans h.log⟩

theorem Still.moves (h : Still s s') (id : ℕ) : Moves id (TcpServer.bares s id) [] s s' where
  bares := by rw [h.bares, Function.update_eq_self]
  log := by rw [h.log, List.map_nil, List.append_nil]

theorem Moves.trans (h : Moves id c ms s s') (h' : Moves id d ns s' s'') :
    Moves id d (ms ++ ns) s s'' where
  bares := by rw [h'.bares, h.bares, Function.update_idem]
  log := by rw [h'.log, h.log, List.map_append, List.append_assoc]

theorem Moves.still (h : Moves id c ms s s') (h' : Still s' s'') : Moves id c ms s s'' :=
  ⟨h'.bares.trans h.bares, h'.log.trans h.log⟩

theorem Still.then (h : Still s s') (h' : Moves id c ms s' s'') : Moves id c ms s s'' :=
  ⟨by rw [h'.bares, h.bares], by rw [h'.log, h.log]⟩

theorem Moves.own (h : Moves id c ms s s') : (s'.conn id).bare = c := by
  have hid := congrFun h.bares id
  rwa [Function.update_self] at hid

theorem Moves.other (h : Moves id c ms s s') {j : ℕ} (hj : j ≠ id) :
    (s'.conn j).bare = (s.conn j).bare := by
  have hother := congrFun h.bares j
  rwa [Function.update_of_ne hj] at hother

theorem Moves.trace (h : Moves id c ms s s') : s'.trace id = s.trace id ++ ms := by
  have hall : (ms.map (Prod.mk id)).filter (fun entry => entry.1 = id) = ms.map (Prod.mk id) :=
    List.filter_eq_self.2 fun entry hentry => by
      obtain ⟨m, -, rfl⟩ := List.mem_map.1 hentry
      exact decide_eq_true rfl
  rw [TcpServer.trace, h.log, List.filter_append, List.map_append, hall, List.map_map]
  exact congrArg _ (List.map_id ms)

theorem Moves.trace_other (h : Moves id c ms s s') {j : ℕ} (hj : j ≠ id) :
    s'.trace j = s.trace j := by
  have hnone : (ms.map (Prod.mk id)).filter (fun entry => entry.1 = j) = [] :=
    List.filter_eq_nil_iff.2 fun entry hentry => by
      obtain ⟨m, -, rfl⟩ := List.mem_map.1 hentry
      simpa using hj.symm
  rw [TcpServer.trace, h.log, List.filter_append, hnone, List.append_nil]
  rfl

theorem Still.trace (h : Still s s') (j : ℕ) : s'.trace j = s.trace j := by
  rw [TcpServer.trace, h.log]
  rfl

theorem setConn_moves (s : TcpServer) (id : ℕ) (c : TcpConnection) :
    Moves id c.bare [] s (s.setConn id c) where
  bares := by
    funext j
    by_cases hj : j = id
    · rw [hj, Function.update_self]
      exact congrArg bare (Function.update_self _ _ _)
    · rw [Function.update_of_ne hj]
      exact congrArg bare (Function.update_of_ne hj _ _)
  log := (List.append_nil _).symm

theorem mark_moves (s : TcpServer) (id : ℕ) (m : Mark) :
    Moves id (TcpServer.bares s id) [m] s (s.mark id m) where
  bares := (Function.update_eq_self _ _).symm
  log := rfl

/-- A channel with another index or other `revents`. -/
theorem setChannel_still {e : Channel} (he : e.bare = (s.chan a).bare) :
    Still s (s.setChannel a e) := by
  cases a with
  | conn id =>
    have hmoves := setConn_moves s id { s.conn id with channel := e }
    have hsame : ({ s.conn id with channel := e } : TcpConnection).bare = TcpServer.bares s id := by
      show ({ s.conn id with channel := e.bare } : TcpConnection) = (s.conn id).bare
      rw [he]
      rfl
    rw [hsame] at hmoves
    exact ⟨by rw [← Function.update_eq_self id (TcpServer.bares s)]; exact hmoves.bares,
      hmoves.log.trans (List.append_nil _)⟩
  | _ => exact ⟨rfl, rfl⟩

theorem updateChannel_still (h : s.updateChannel a = some s') : Still s s' := by
  rw [TcpServer.updateChannel] at h
  split_ifs at h
  obtain ⟨⟨poller, e⟩, hupdate, rfl⟩ := Option.map_eq_some_iff.1 h
  obtain ⟨⟨idx, he⟩, -⟩ := updateChannel_spec hupdate
  have hset : Still s (s.setChannel a e) := setChannel_still (by rw [he]; rfl)
  exact ⟨hset.bares, hset.log⟩

theorem removeChannel_still (h : s.removeChannel a = some s') : Still s s' := by
  rw [TcpServer.removeChannel] at h
  split_ifs at h
  obtain ⟨⟨poller, moved⟩, -, rfl⟩ := Option.map_eq_some_iff.1 h
  have hset : Still s (s.storeIndex moved) := by
    rcases moved with - | ⟨b, idx⟩
    · exact Still.refl s
    · exact setChannel_still rfl
  exact ⟨hset.bares, hset.log⟩

theorem removeConnection_still (h : s.removeConnectionInLoopThread id = some s') : Still s s' := by
  rw [removeConnectionInLoopThread] at h
  split_ifs at h
  cases h
  exact ⟨rfl, rfl⟩

/-- An effect leaves its mark; callbacks that do nothing are left out of account. -/
theorem effect_moves (huser : ∀ t t', user t = some t' → t' = t) {e : Effect}
    (h : effect user id s e = some s') : Moves id (TcpServer.bares s id) (marks e) s s' := by
  cases e with
  | update => exact (updateChannel_still h).moves id
  | removeChannel => exact (mark_moves s id .remove).still (removeChannel_still h)
  | closeCallback => exact (mark_moves s id .close).still (removeConnection_still h)
  | connCallback =>
    rw [huser s s' h]
    exact (Still.refl s).moves id
  | msgCallback =>
    rw [huser s s' h]
    exact (Still.refl s).moves id
  | _ =>
    cases h
    exact (Still.refl s).moves id

theorem effects_moves (huser : ∀ t t', user t = some t' → t' = t) {effects : List Effect}
    (h : run (effect user id) s effects = some s') :
    Moves id (TcpServer.bares s id) (effects.flatMap marks) s s' := by
  induction effects generalizing s with
  | nil =>
    cases h
    exact (Still.refl _).moves id
  | cons e effects ih =>
    rw [run_cons, Option.bind_eq_some_iff] at h
    obtain ⟨t, ht, hrest⟩ := h
    have hfirst := effect_moves huser ht
    have hbare : TcpServer.bares t id = TcpServer.bares s id := hfirst.own
    have htail := ih hrest
    rw [hbare] at htail
    rw [List.flatMap_cons]
    exact hfirst.trans htail

theorem perform_moves (huser : ∀ t t', user t = some t' → t' = t)
    {r : TcpConnection × List Effect} (h : perform user id s r = some s') :
    Moves id r.1.bare (r.2.flatMap marks) s s' := by
  have hset := setConn_moves s id r.1
  have heffects := effects_moves huser h
  have hbare : TcpServer.bares (s.setConn id r.1) id = r.1.bare := hset.own
  rw [hbare] at heffects
  exact hset.trans heffects

theorem calm_marks {r : TcpConnection × List Effect} (h : TcpConnection.Calm c r) :
    r.2.flatMap marks = [] := by
  rw [List.flatMap_eq_nil_iff]
  intro e he
  have hquiet := h.quiet e he
  cases e <;> first
    | rfl
    | exact absurd hquiet not_false

theorem userCalls_nil {t t' : TcpServer} (h : userCalls [] t = some t') : t' = t := by
  rw [userCalls, run_nil, Option.some.injEq] at h
  exact h.symm

theorem close_moves (h : (c.closeHandler.bind (perform (userCalls []) id s)) = some s') :
    ∃ r, c.closeHandler = some r ∧ Moves id r.1.bare [.close] s s' := by
  obtain ⟨r, hr, hrest⟩ := Option.bind_eq_some_iff.1 h
  have hmoves := perform_moves (fun _ _ => userCalls_nil) hrest
  refine ⟨r, hr, ?_⟩
  rw [TcpConnection.closeHandler] at hr
  split_ifs at hr
  cases hr
  exact hmoves

theorem establish_moves (h : runFunctor [] s (.establishConnection id) = some s') :
    ∃ r, (s.conn id).establishConnection = some r ∧ Moves id r.1.bare [.establish] s s' := by
  obtain ⟨r, hr, hrest⟩ := Option.bind_eq_some_iff.1 h
  have hmoves := perform_moves (fun _ _ => userCalls_nil) hrest
  refine ⟨r, hr, ?_⟩
  rw [TcpConnection.establishConnection] at hr
  split_ifs at hr
  cases hr
  exact (mark_moves s id .establish).trans hmoves

theorem destroy_moves (h : runFunctor [] s (.destroyConnection id) = some s') :
    ∃ r, (s.conn id).destroyConnection = some r ∧ Moves id r.1.bare [.destroy, .remove] s s' := by
  obtain ⟨r, hr, hrest⟩ := Option.bind_eq_some_iff.1 h
  have hmoves := perform_moves (fun _ _ => userCalls_nil) hrest
  refine ⟨r, hr, ?_⟩
  rw [TcpConnection.destroyConnection] at hr
  split_ifs at hr
  cases hr
  exact (mark_moves s id .destroy).trans hmoves

theorem accept_moves (s : TcpServer) (connfd : ℤ) :
    Moves s.newConnId (TcpConnection.create (s.serverName ++ connId s.newConnId) connfd) [.accept] s
      (s.newConnectionHandler connfd) := by
  have hset := setConn_moves s s.newConnId
    (TcpConnection.create (s.serverName ++ connId s.newConnId) connfd)
  exact ⟨hset.bares, rfl⟩

theorem storeRevents_still (s : TcpServer) (active : List (ChannelId × BitVec 16)) :
    Still s (s.storeRevents active) := by
  induction active generalizing s with
  | nil => exact Still.refl s
  | cons x active ih =>
    have hset : Still s (s.setChannel x.1 ((s.chan x.1).set_revents (x.2.signExtend 32))) :=
      setChannel_still rfl
    exact hset.trans (ih _)

theorem poll_still {revents : ℤ → BitVec 16} {numEvents : ℤ}
    (h : s.poll revents numEvents = some s') : Still s s' := by
  obtain ⟨active, -, rfl⟩ := Option.map_eq_some_iff.1 h
  have hstore := storeRevents_still s active
  exact ⟨hstore.bares, hstore.log⟩

theorem construct_still (h : s.construct = some s') : Still s s' := by
  obtain ⟨t, ht, hrest⟩ := Option.bind_eq_some_iff.1 h
  have htimer : Still s { s with timerChannel := s.timerChannel.enableReading } := ⟨rfl, rfl⟩
  have hwaken : Still t { t with wakenChannel := t.wakenChannel.enableReading } := ⟨rfl, rfl⟩
  exact (htimer.trans (updateChannel_still ht)).trans (hwaken.trans (updateChannel_still hrest))

theorem run_still (h : s.userCall .run = some s') : Still s s' := by
  rw [userCall, listen] at h
  split_ifs at h
  · cases h
    exact Still.refl s
  · have hlisten : Still s
        { s with listening := true, acceptorChannel := s.acceptorChannel.enableReading } :=
      ⟨rfl, rfl⟩
    exact hlisten.trans (updateChannel_still h)

/-- The timers and the eventfd, without code of the user. -/
theorem loop_event_still {answers : Answers} (huser : answers.user = []) (ha : a = .timer ∨ a = .waken)
    (h : handleEvent answers s a = some s') : Still s s' := by
  have hcallbacks : ∀ callbacks : List Callback, ∀ t t', run (callback answers a) t callbacks = some t' →
      Still t t' := by
    intro callbacks
    induction callbacks with
    | nil =>
      rintro t t' ⟨⟩
      exact Still.refl t
    | cons cb callbacks ih =>
      intro t t' hrun
      rw [run_cons, Option.bind_eq_some_iff] at hrun
      obtain ⟨u, hu, hrest⟩ := hrun
      suffices hfirst : Still t u from hfirst.trans (ih u t' hrest)
      rcases ha with rfl | rfl <;> cases cb
      case inl.read =>
        rw [callback, huser] at hu
        rw [userCalls_nil hu]
        exact Still.refl t
      all_goals
        cases hu
        exact Still.refl _
  rcases ha with rfl | rfl
  · exact hcallbacks _ s s' h
  · exact hcallbacks _ s s' h

variable {stage stage' : ℕ → Stage} {active : List ChannelId}

theorem Still.stage_eq (h : Still s s') (hs : Inv s stage) (hs' : Inv s' stage') : stage' = stage := by
  funext j
  have hreach := hs'.ledger.trace j
  rw [h.trace j, Reaches, hs.ledger.trace j] at hreach
  exact (Option.some.inj hreach).symm

theorem Moves.stage_eq (h : Moves id c ms s s') (hs : Inv s stage) (hs' : Inv s' stage') :
    run next (stage id) ms = some (stage' id) ∧ ∀ j ≠ id, stage' j = stage j := by
  constructor
  · have hreach := hs'.ledger.trace id
    rw [h.trace, Reaches, run_append, hs.ledger.trace id] at hreach
    exact hreach
  · intro j hj
    have hreach := hs'.ledger.trace j
    rw [h.trace_other hj, Reaches, hs.ledger.trace j] at hreach
    exact (Option.some.inj hreach).symm

/-- Before the first callback of an event of a connection. -/
theorem Inv.event (h : Inv s stage) (hphase : s.phase = .handling (.conn id :: active)) :
    Inv ({ s with phase := .handling active }.mark id .event) stage ∧ stage id = .established ∧
      .conn id ∉ active ∧ Promised (s.chan (.conn id)).revents := by
  have hmem : .conn id ∈ s.phase.active := by
    rw [hphase]
    exact List.mem_cons_self
  have hid := h.active.established id hmem
  have hnodup := h.active.nodup
  rw [hphase] at hnodup
  have hnodup := List.nodup_cons.1 hnodup
  refine ⟨?_, hid, hnodup.1, h.active.promised _ hmem⟩
  have hpop : ∀ b ∈ active, b ∈ s.phase.active := by
    intro b hb
    rw [hphase]
    exact List.mem_cons_of_mem _ hb
  have hledger : Ledger { s with
      phase := .handling active, unprocessedFunctors := s.unprocessedFunctors } stage := by
    refine h.ledger.rephase (fun f _ => ?_) (fun hcon => by cases hcon)
    rw [pending, hphase]
    rfl
  have hmarked := hledger.marked id (m := .event) (y := .established) (by rw [hid]; rfl)
    (by rw [hid]; decide) (by rw [hid]) (by rw [hid]; decide) (by
      have hstate := hledger.state id
      rwa [hid] at hstate)
  rw [← hid, Function.update_eq_self] at hmarked
  have hchan : ({ s with phase := .handling active }.mark id .event).chan = s.chan := by
    funext b
    cases b <;> rfl
  refine ⟨hmarked, ⟨hnodup.2, fun i hi => h.active.established i (hpop _ hi), fun b hb => ?_⟩, ?_⟩
  · rw [hchan]
    exact h.active.promised b (hpop b hb)
  · rw [hchan]
    exact h.table

/-- Only the error callback runs before the one of a readable event. -/
theorem handleEvent_order {e : Channel} (h : Promised e.revents) :
    e.handleEvent.Pairwise fun a b => b = .read → a = .error := by
  have hread : e.revents &&& POLLIN = 0 → e.revents &&& (POLLIN ||| POLLPRI ||| POLLRDHUP) ≠ 0 →
      e.revents &&& (POLLPRI ||| POLLRDHUP) ≠ 0 := by
    intro hin hany hcon
    rw [BitVec.or_assoc, BitVec.and_or_distrib_left, hin, hcon] at hany
    exact hany rfl
  unfold Channel.handleEvent
  split_ifs with hclose herror hreads hwrite
  all_goals first
    | exact absurd hclose.2 (h hclose.1 (hread hclose.2 ‹_›))
    | decide

end TcpServer
end HydrogenWeb
