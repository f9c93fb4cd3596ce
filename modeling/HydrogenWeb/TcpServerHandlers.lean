import HydrogenWeb.TcpServerLedger

set_option autoImplicit false

/-!
# The handlers of one iteration

`Inv` holds between any two methods. A handler closes at most its own connection, since
the kernel's promise keeps the close and the read callback apart, and removes nothing.
-/
namespace HydrogenWeb

/-- The kernel reports `POLLPRI` or `POLLRDHUP` with `POLLHUP` only if it reports `POLLIN`. -/
def Promised (revents : BitVec 32) : Prop :=
  revents &&& POLLHUP ≠ 0 → revents &&& (POLLPRI ||| POLLRDHUP) ≠ 0 → revents &&& POLLIN ≠ 0

instance (revents : BitVec 32) : Decidable (Promised revents) := by
  unfold Promised
  infer_instance

namespace Channel

def closing : Callback → Bool
  | .close | .read => true
  | _ => false

theorem handleEvent_closing {c : Channel} (h : Promised c.revents) :
    c.handleEvent.countP closing ≤ 1 := by
  have hread : c.revents &&& POLLIN = 0 → c.revents &&& (POLLIN ||| POLLPRI ||| POLLRDHUP) ≠ 0 →
      c.revents &&& (POLLPRI ||| POLLRDHUP) ≠ 0 := by
    intro hin hany hcon
    rw [BitVec.or_assoc, BitVec.and_or_distrib_left, hin, hcon] at hany
    exact hany rfl
  unfold handleEvent
  split_ifs with hclose herror hreads hwrite
  all_goals first
    | exact absurd hclose.2 (h hclose.1 (hread hclose.2 ‹_›))
    | decide

theorem handleEvent_read (c : Channel) : c.handleEvent.count .read ≤ 1 := by
  unfold handleEvent
  split_ifs <;> decide

end Channel

namespace TcpServer
open TransitionRuns Lifecycle Poller

structure Active (s : TcpServer) (stage : ℕ → Stage) : Prop where
  nodup : s.phase.active.Nodup
  established : ∀ id, .conn id ∈ s.phase.active → stage id = .established
  promised : ∀ a ∈ s.phase.active, Promised (s.chan a).revents

structure Inv (s : TcpServer) (stage : ℕ → Stage) : Prop where
  ledger : Ledger s stage
  active : Active s stage
  table : ∃ order, Channels s.poller s.chan stage order

def Kept (s s' : TcpServer) : Prop := ∀ (fd : ℤ) (a : ChannelId),
  s.poller.channels[fd]? = some a → s'.poller.channels[fd]? = some a

variable {s s' : TcpServer} {stage : ℕ → Stage} {order : List ChannelId} {id : ℕ}
  {c : TcpConnection} {answers : Answers} {user : TcpServer → Option TcpServer}

theorem Kept.trans {s'' : TcpServer} (h : Kept s s') (h' : Kept s' s'') : Kept s s'' :=
  fun fd a ha => h' fd a (h fd a ha)

theorem Inv.quiet (h : Inv s stage) (hq : Quiet s s')
    (htable : Channels s'.poller s'.chan stage order) : Inv s' stage where
  ledger := h.ledger.quiet hq
  active := by
    refine ⟨?_, ?_, ?_⟩ <;> rw [hq.phase]
    · exact h.active.nodup
    · exact h.active.established
    · intro a ha
      rw [hq.revents]
      exact h.active.promised a ha
  table := ⟨order, htable⟩

theorem Inv.userCalls (h : Inv s stage) (calls : List UserCall) :
    ∃ s', userCalls calls s = some s' ∧ s'.phase = s.phase ∧ Kept s s' ∧ Inv s' stage := by
  obtain ⟨order, htable⟩ := h.table
  obtain ⟨s', order', hs', hq, htable'⟩ := userCalls_quiet htable h.ledger.state calls
  exact ⟨s', hs', hq.phase, hq.kept, h.quiet hq htable'⟩

theorem Inv.setBuffers (h : Inv s stage) (id : ℕ) (hname : c.connName = (s.conn id).connName)
    (hstate : c.state = (s.conn id).state) (hchannel : c.channel = (s.conn id).channel) :
    Inv (s.setConn id c) stage := by
  obtain ⟨order, htable⟩ := h.table
  refine h.quiet (Quiet.setConn hname (Or.inl hstate) (by rw [hchannel]))
    (show Channels _ _ _ order from ?_)
  rw [chan_setConn, hchannel]
  change Channels s.poller (Function.update s.chan (.conn id) (s.chan (.conn id))) stage order
  rw [Function.update_eq_self]
  exact htable

theorem close_spec (user : TcpServer → Option TcpServer) (h : Inv s stage) (hphase : s.phase.isHandling = true)
    (hid : stage id = .established) (hout : .conn id ∉ s.phase.active)
    (hname : c.connName = (s.conn id).connName) (hstate : c.state = (s.conn id).state)
    (hchannel : c.channel = (s.conn id).channel) :
    ∃ s', c.closeHandler.bind (perform user id s) = some s' ∧ s'.phase = s.phase ∧ Kept s s' ∧
      Inv s' (Function.update stage id .closed) := by
  obtain ⟨order, htable⟩ := h.table
  have hlive : c.state = .CONNECTED ∨ c.state = .DISCONNECTING := by
    have hat := h.ledger.state id
    rwa [hid, ← hstate] at hat
  have hset : Quiet s (s.setConn id { c with channel := c.channel.disableAll }) :=
    Quiet.setConn hname (Or.inl hstate) (by rw [← hchannel]; rfl)
  generalize ht : s.setConn id { c with channel := c.channel.disableAll } = t at hset
  have htchan : t.chan = Function.update s.chan (.conn id) c.channel.disableAll := by
    rw [← ht, chan_setConn]
  have hself : t.chan (.conn id) = c.channel.disableAll := by
    rw [htchan, Function.update_self]
  have hback : Channels t.poller (Function.update t.chan (.conn id) (s.chan (.conn id))) stage
      order := by
    rw [htchan, Function.update_idem, Function.update_eq_self, ← ht]
    exact htable
  obtain ⟨u, hu, hupdate, huchan, htable'⟩ := silence_quiet (y := .closed) hback
    (by rw [hid]; rfl) (Or.inl rfl) (by rw [hself, hchannel]; rfl) (by rw [hself, hchannel]; rfl)
    (by rw [hself]; rfl)
  have hquiet := hset.trans hupdate
  obtain ⟨v, hv, hledger, hvphase, hvpoller, hvchan⟩ :=
    (h.ledger.quiet hquiet).close (hquiet.phase ▸ hphase) hid
  have hphase' : v.phase = s.phase := hvphase.trans hquiet.phase
  refine ⟨v, ?_, hphase', ?_, hledger, ⟨?_, ?_, ?_⟩, order, ?_⟩
  · rw [TcpConnection.closeHandler, if_pos hlive, Option.bind_some, perform, ht, run_cons, effect,
      hu, Option.bind_some, run_cons, effect, hv]
    rfl
  · intro fd a ha
    rw [hvpoller]
    exact hquiet.kept fd a ha
  · rw [hphase']
    exact h.active.nodup
  · intro i hi
    rw [hphase'] at hi
    have hne : i ≠ id := by
      rintro rfl
      exact hout hi
    rw [Function.update_of_ne hne]
    exact h.active.established i hi
  · intro a ha
    rw [hphase'] at ha
    rw [hvchan, hquiet.revents]
    exact h.active.promised a ha
  · rw [hvpoller, hvchan]
    exact htable'

theorem perform_same (user : TcpServer → Option TcpServer) (s : TcpServer) (id : ℕ) :
    perform user id s (s.conn id, []) = some s := by
  rw [perform, run_nil, setConn, Function.update_eq_self]

/-- A callback of a connection that is established or closed; the second kind does not close. -/
theorem callback_spec (answers : Answers) (h : Inv s stage) (hphase : s.phase.isHandling = true)
    (hout : .conn id ∉ s.phase.active) (cb : Callback)
    (hready : stage id = .established ∨ stage id = .closed ∧ Channel.closing cb = false) :
    ∃ s' stage', callback answers (.conn id) s cb = some s' ∧ s'.phase = s.phase ∧ Kept s s' ∧
      Inv s' stage' ∧ (stage' = stage ∨
        Channel.closing cb = true ∧ stage' = Function.update stage id .closed) := by
  have hopen : Channel.closing cb = true → stage id = .established := by
    rintro hcb
    refine hready.resolve_right fun hcon => ?_
    rw [hcb] at hcon
    cases hcon.2
  cases cb with
  | close =>
    obtain ⟨s', hs', hp, hk, hinv⟩ := close_spec (userCalls answers.user) h hphase
      (hopen rfl) hout rfl rfl rfl
    exact ⟨s', _, hs', hp, hk, hinv, Or.inr ⟨rfl, rfl⟩⟩
  | error => exact ⟨s, stage, perform_same _ s id, rfl, fun _ _ ha => ha, h, Or.inl rfl⟩
  | read =>
    generalize hread : TcpConnection.readFd (s.conn id).inputBuffer answers.readv = r
    have hbuffers := h.setBuffers id (c := { s.conn id with inputBuffer := r.2 }) rfl rfl rfl
    by_cases hpos : sizeOfSsize r.1 > 0
    · obtain ⟨s', hs', hp, hk, hinv⟩ := hbuffers.userCalls answers.user
      refine ⟨s', stage, ?_, hp, hk, hinv, Or.inl rfl⟩
      simp only [callback, TcpConnection.connectionHandler, hread, if_pos hpos, Option.bind_some,
        perform, run_cons, effect, hs', run_nil]
    · have hzero : sizeOfSsize r.1 = 0 := by omega
      obtain ⟨s', hs', hp, hk, hinv⟩ := close_spec (userCalls answers.user)
        (c := { s.conn id with inputBuffer := r.2 }) h hphase (hopen rfl) hout rfl rfl rfl
      refine ⟨s', _, ?_, hp, hk, hinv, Or.inr ⟨rfl, rfl⟩⟩
      simp only [callback, TcpConnection.connectionHandler, hread, if_neg hpos, if_pos hzero]
      exact hs'
  | write =>
    obtain ⟨order, htable⟩ := h.table
    have hregistered : (stage id).registered = true ∧ stage id ≠ .destroyed := by
      rcases hready with hid | ⟨hid, -⟩ <;> rw [hid] <;> decide
    obtain ⟨s', hs', hq, -, htable'⟩ := perform_calm (userCalls answers.user) htable
      hregistered.1 hregistered.2 ((s.conn id).writeHandler_calm answers.write)
    exact ⟨s', stage, hs', hq.phase, hq.kept, h.quiet hq htable', Or.inl rfl⟩

/-- The callbacks of one `handleEvent`, at most one of which can close. -/
theorem callbacks_spec (answers : Answers) (callbacks : List Callback) (h : Inv s stage)
    (hphase : s.phase.isHandling = true) (hout : .conn id ∉ s.phase.active)
    (hready : stage id = .established ∧ callbacks.countP Channel.closing ≤ 1 ∨
      stage id = .closed ∧ callbacks.countP Channel.closing = 0) :
    ∃ s' stage', run (callback answers (.conn id)) s callbacks = some s' ∧ s'.phase = s.phase ∧
      Kept s s' ∧ Inv s' stage' ∧
        (stage' = stage ∨ stage id = .established ∧ stage' = Function.update stage id .closed) := by
  induction callbacks generalizing s stage with
  | nil => exact ⟨s, stage, rfl, rfl, fun _ _ ha => ha, h, Or.inl rfl⟩
  | cons cb callbacks ih =>
    rw [List.countP_cons] at hready
    obtain ⟨s₁, stage₁, hs₁, hp₁, hk₁, h₁, hstage₁⟩ := callback_spec answers h hphase
      hout cb (hready.imp And.left fun hid => ⟨hid.1, by
        have := hid.2
        cases hcb : Channel.closing cb
        · rfl
        · simp [hcb] at this⟩)
    have hready₁ : stage₁ id = .established ∧ callbacks.countP Channel.closing ≤ 1 ∨
        stage₁ id = .closed ∧ callbacks.countP Channel.closing = 0 := by
      rcases hstage₁ with rfl | ⟨hcb, rfl⟩
      · exact hready.imp (fun hid => ⟨hid.1, by omega⟩) fun hid => ⟨hid.1, by omega⟩
      · rw [hcb, if_pos rfl] at hready
        exact Or.inr ⟨Function.update_self _ _ _, by omega⟩
    obtain ⟨s', stage', hs', hp, hk, hinv, hstage⟩ :=
      ih h₁ (hp₁ ▸ hphase) (hp₁ ▸ hout) hready₁
    refine ⟨s', stage', ?_, hp.trans hp₁, hk₁.trans hk, hinv, ?_⟩
    · rw [run_cons, hs₁]
      exact hs'
    · rcases hstage₁ with rfl | ⟨hcb, rfl⟩
      · exact hstage
      · rw [hcb, if_pos rfl] at hready
        rcases hready with ⟨hid, -⟩ | ⟨-, hcon⟩
        · rcases hstage with rfl | ⟨hcon, -⟩
          · exact Or.inr ⟨hid, rfl⟩
          · rw [Function.update_self] at hcon
            cases hcon
        · omega

/-- What `accept` may return: no error, or a descriptor that no open channel has. -/
def Fresh (s : TcpServer) (connfd : ℤ) : Prop :=
  connfd ≥ 0 → s.newConnId + 1 < 2 ^ 31 ∧ connfd ≠ s.timerChannel.fd ∧
    connfd ≠ s.wakenChannel.fd ∧ connfd ≠ s.acceptorChannel.fd ∧
    ∀ id < s.newConnId, (s.conn id).state ≠ .DISCONNECTED → connfd ≠ (s.conn id).channel.fd

instance (s : TcpServer) (connfd : ℤ) : Decidable (s.Fresh connfd) := by
  unfold Fresh
  infer_instance

theorem incomingHandler_spec (h : Inv s stage) (hphase : s.phase.isHandling = true)
    (hsettled : ∀ id, stage id ≠ .destroyed) {connfd : ℤ} (hfresh : s.Fresh connfd) :
    ∃ stage', (s.incomingHandler connfd).phase = s.phase ∧ Kept s (s.incomingHandler connfd) ∧
      Inv (s.incomingHandler connfd) stage' ∧
        (stage' = stage ∨ stage s.newConnId = .unborn ∧
          stage' = Function.update stage s.newConnId .accepted) := by
  rw [incomingHandler]
  split_ifs with hfd
  swap
  · exact ⟨stage, rfl, fun _ _ ha => ha, h, Or.inl rfl⟩
  obtain ⟨hbound, htimer, hwaken, hacceptor, hconns⟩ := hfresh hfd
  obtain ⟨order, htable⟩ := h.table
  have hunborn : stage s.newConnId = .unborn := (h.ledger.born _).2 le_rfl
  have hchan : (s.newConnectionHandler connfd).chan =
      Function.update s.chan (.conn s.newConnId) (Channel.create connfd) :=
    chan_setConn s s.newConnId _
  refine ⟨_, rfl, fun _ _ ha => ha, ⟨h.ledger.accept hphase hbound connfd, ?_, order, ?_⟩,
    Or.inr ⟨hunborn, rfl⟩⟩
  · refine ⟨h.active.nodup, ?_, ?_⟩
    · intro i hi
      have hstage := h.active.established i hi
      rw [Function.update_of_ne, hstage]
      rintro rfl
      rw [hunborn] at hstage
      cases hstage
    · intro a ha
      have hne : a ≠ .conn s.newConnId := by
        rintro rfl
        have hstage := h.active.established _ ha
        rw [hunborn] at hstage
        cases hstage
      rw [hchan, Function.update_of_ne hne]
      exact h.active.promised a ha
  · rw [hchan]
    refine htable.accept hunborn hfd fun b hb => ?_
    cases b with
    | conn i =>
      have hi : (stage i).open = true := hb
      have hlt : i < s.newConnId := h.ledger.lt_of_stage (by
        intro hcon
        rw [hcon] at hi
        cases hi)
      have hat := h.ledger.state i
      refine (hconns i hlt ?_).symm
      intro hdisconnected
      rw [hdisconnected] at hat
      have hne := hsettled i
      cases hs : stage i <;> simp_all [StateAt, Stage.open]
    | timer => exact htimer.symm
    | waken => exact hwaken.symm
    | acceptor => exact hacceptor.symm

/-- The timers and the eventfd run the user's code at most. -/
theorem loop_callbacks_spec (answers : Answers) {a : ChannelId} (ha : a = .timer ∨ a = .waken)
    (callbacks : List Callback) (h : Inv s stage) :
    ∃ s', run (callback answers a) s callbacks = some s' ∧ Kept s s' ∧ Inv s' stage := by
  induction callbacks generalizing s with
  | nil => exact ⟨s, rfl, fun _ _ ha => ha, h⟩
  | cons cb callbacks ih =>
    have hfirst : ∃ s₁, callback answers a s cb = some s₁ ∧ Kept s s₁ ∧ Inv s₁ stage := by
      obtain ⟨s₁, hs₁, -, hk, hinv⟩ := h.userCalls answers.user
      rcases ha with rfl | rfl <;> cases cb
      case inl.read => exact ⟨s₁, hs₁, hk, hinv⟩
      all_goals exact ⟨s, rfl, fun _ _ ha => ha, h⟩
    obtain ⟨s₁, hs₁, hk₁, h₁⟩ := hfirst
    obtain ⟨s', hs', hk, hinv⟩ := ih h₁
    refine ⟨s', ?_, hk₁.trans hk, hinv⟩
    rw [run_cons, hs₁]
    exact hs'

theorem acceptor_callbacks (answers : Answers) (callbacks : List Callback) (hread : callbacks.count .read ≤ 1)
    (s : TcpServer) : run (callback answers .acceptor) s callbacks =
      some (if .read ∈ callbacks then s.incomingHandler answers.accepted else s) := by
  induction callbacks generalizing s with
  | nil => rfl
  | cons cb callbacks ih =>
    cases cb with
    | read =>
      rw [List.count_cons_self] at hread
      have hnone : .read ∉ callbacks := List.count_eq_zero.1 (by omega)
      rw [run_cons, callback, Option.bind_some, ih (by omega), if_neg hnone, if_pos (by simp)]
    | _ =>
      rw [List.count_cons_of_ne (by decide)] at hread
      simpa [run_cons, callback] using ih hread s

def ended : Stage → Bool
  | .destroyed | .removed => true
  | _ => false

/-- An event handler closes or accepts one connection at most, and destroys none. -/
theorem handleEvent_spec (answers : Answers) {a : ChannelId} {active : List ChannelId} (h : Inv s stage)
    (hsettled : ∀ id, stage id ≠ .destroyed) (hphase : s.phase = .handling (a :: active))
    (hfresh : a = .acceptor → s.Fresh answers.accepted) :
    ∃ s' stage', handleEvent answers { s with phase := .handling active } a = some s' ∧
      Kept s s' ∧ Inv s' stage' ∧ ∀ id, ended (stage' id) = ended (stage id) ∧
        stage' id ≠ .destroyed := by
  generalize ht : ({ s with phase := .handling active } : TcpServer) = t
  have htphase : t.phase = .handling active := by
    rw [← ht]
  have hkept : Kept s t := by
    rw [← ht]
    exact fun _ _ ha => ha
  have htchan : t.chan = s.chan := by
    rw [← ht]
    funext b
    cases b <;> rfl
  have hnodup := h.active.nodup
  rw [hphase] at hnodup
  have hnodup := List.nodup_cons.1 hnodup
  have hinv : Inv t stage := by
    refine ⟨?_, ⟨?_, ?_, ?_⟩, ?_⟩
    · rw [← ht]
      refine h.ledger.rephase (fun f _ => ?_) (fun hcon => (nomatch hcon))
      rw [pending, hphase]
      rfl
    · rw [htphase]
      exact hnodup.2
    · intro id hid
      rw [htphase] at hid
      exact h.active.established id (by rw [hphase]; exact List.mem_cons_of_mem _ hid)
    · intro b hb
      rw [htphase] at hb
      rw [htchan]
      exact h.active.promised b (by rw [hphase]; exact List.mem_cons_of_mem _ hb)
    · rw [htchan, ← ht]
      exact h.table
  have hsame : ∀ id, ended (stage id) = ended (stage id) ∧ stage id ≠ .destroyed := fun id =>
    ⟨rfl, hsettled id⟩
  cases a with
  | conn id =>
    have hmem : .conn id ∈ s.phase.active := by
      rw [hphase]
      exact List.mem_cons_self
    have hid := h.active.established id hmem
    have hmarked : Inv (t.mark id .event) stage := by
      have hledger := hinv.ledger.marked id (m := .event) (y := .established)
        (by rw [hid]; rfl) (by rw [hid]; decide) (by rw [hid]) (by rw [hid]; decide) (by
          have := hinv.ledger.state id
          rwa [hid] at this)
      rw [← hid, Function.update_eq_self] at hledger
      obtain ⟨hn, he, hp⟩ := hinv.active
      exact ⟨hledger, ⟨hn, he, hp⟩, hinv.table⟩
    have hclosing := Channel.handleEvent_closing (h.active.promised _ hmem)
    obtain ⟨s', stage', hs', -, hk, hinv', hstage⟩ := callbacks_spec answers
      (s.chan (.conn id)).handleEvent hmarked (by rw [mark, htphase]; rfl)
      (by rw [mark, htphase]; exact hnodup.1) (Or.inl ⟨hid, hclosing⟩)
    refine ⟨s', stage', ?_, hkept.trans hk, hinv', ?_⟩
    · rw [← htchan] at hs'
      exact hs'
    · rcases hstage with rfl | ⟨-, rfl⟩
      · exact hsame
      · intro i
        by_cases hi : i = id
        · rw [hi, Function.update_self, hid]
          decide
        · rw [Function.update_of_ne hi]
          exact hsame i
  | acceptor =>
    have hfresh' : t.Fresh answers.accepted := by
      rw [← ht]
      exact hfresh rfl
    obtain ⟨stage', -, hk, hinv', hstage⟩ := incomingHandler_spec hinv (by rw [htphase]; rfl)
      hsettled hfresh'
    have hrun := acceptor_callbacks answers _
      (Channel.handleEvent_read (t.chan .acceptor)) t
    split_ifs at hrun with hread
    · refine ⟨_, stage', hrun, hkept.trans hk, hinv', ?_⟩
      rcases hstage with rfl | ⟨hunborn, rfl⟩
      · exact hsame
      · intro i
        by_cases hi : i = t.newConnId
        · rw [hi, Function.update_self, hunborn]
          decide
        · rw [Function.update_of_ne hi]
          exact hsame i
    · exact ⟨t, stage, hrun, hkept, hinv, hsame⟩
  | timer =>
    obtain ⟨s', hs', hk, hinv'⟩ := loop_callbacks_spec answers (Or.inl rfl)
      (t.chan .timer).handleEvent hinv
    exact ⟨s', stage, hs', hkept.trans hk, hinv', hsame⟩
  | waken =>
    obtain ⟨s', hs', hk, hinv'⟩ := loop_callbacks_spec answers (Or.inr rfl)
      (t.chan .waken).handleEvent hinv
    exact ⟨s', stage, hs', hkept.trans hk, hinv', hsame⟩

end TcpServer
end HydrogenWeb
