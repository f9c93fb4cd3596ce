import HydrogenWeb.HttpServerHandlers

set_option autoImplicit false

/-!
# Each client of the server is served as if it were alone

Whatever the order in which the loop takes the clients, and whatever the kernel answers, every
step of the server is a step of one connection, or none that a connection could tell.
-/
namespace HydrogenWeb.HttpServer
open TransitionRuns Lifecycle
open TcpServer (bares Moves Still)
open HttpConnection (Reading idle sends rejectedReading)
open TcpConnection (acceptedBytes)

variable {s s' : HttpServer} {t : TcpServer} {stage stage' : ℕ → Stage} {id : ℕ} {a : Action}
  {c : TcpConnection}

theorem client_eq {ctx : ℕ → HttpContext} {j : ℕ} (hbare : bares t j = bares s.tcpServer j)
    (hcontext : ctx j = s.context j) :
    client { s with tcpServer := t, context := ctx } j = client s j := by
  simp only [client, hbare, hcontext]

/-- A step of the loop that no connection can tell. -/
theorem Clients.still (h : Clients s stage) (hstill : Still s.tcpServer t)
    (hinv : TcpServer.Inv t stage') (hsettled : ∀ j, stage' j ≠ .destroyed) :
    Clients { s with tcpServer := t } stage' := by
  refine ⟨hinv, hsettled, fun j => ?_⟩
  rw [client_eq (congrFun hstill.bares j) rfl, hstill.stage_eq h.inv hinv]
  exact h.own j

/-- A step of the loop for one connection. -/
theorem Clients.moves (h : Clients s stage) {ms : List Mark} (hmoves : Moves id c ms s.tcpServer t)
    (hinv : TcpServer.Inv t stage') (hsettled : ∀ j, stage' j ≠ .destroyed)
    {ctx : ℕ → HttpContext} (hctx : ∀ j ≠ id, ctx j = s.context j)
    (hown : run next (stage id) ms = some (stage' id) →
      Own ⟨c, ctx id, s.events id, s.wire id⟩ (stage' id)) :
    Clients { s with tcpServer := t, context := ctx } stage' := by
  obtain ⟨hnext, hothers⟩ := hmoves.stage_eq h.inv hinv
  refine ⟨hinv, hsettled, fun j => ?_⟩
  by_cases hj : j = id
  · have hbare : bares t id = c := hmoves.own
    rw [hj, client, hbare]
    exact hown hnext
  · rw [client_eq (hmoves.other hj) (hctx j hj), hothers j hj]
    exact h.own j

theorem step_plain (h : Clients s stage) (hpossible : Possible s a) :
    ∃ t stage', s.tcpServer.step a.tcp = some t ∧ TcpServer.Inv t stage' ∧
      ∀ j, stage' j ≠ .destroyed := by
  obtain ⟨t, stage', ht, hinv, hsettled, -⟩ := TcpServer.step_spec h.inv h.settled hpossible
  exact ⟨t, stage', ht, hinv, hsettled⟩

theorem run_establish {y y' : Stage} (h : run next y [.establish] = some y') :
    y = .accepted ∧ y' = .established := by
  cases y <;> simp_all [run_cons, next]

theorem run_destroy {y y' : Stage} (h : run next y [.destroy, .remove] = some y') :
    y = .closed ∧ y' = .removed := by
  cases y <;> simp_all [run_cons, next]

theorem run_accept {y y' : Stage} (h : run next y [.accept] = some y') :
    y = .unborn ∧ y' = .accepted := by
  cases y <;> simp_all [run_cons, next]

/-- An established connection starts like one that is alone. -/
theorem own_established {r : TcpConnection × List TcpConnection.Effect}
    (hx : Own (client s id) .accepted)
    (hr : (s.tcpServer.conn id).establishConnection = some r) :
    Own ⟨r.1.bare, HttpContext.fresh, s.events id, s.wire id⟩ .established := by
  obtain ⟨hevents, hwire, hconn⟩ := hx
  have hevents : s.events id = [] := hevents
  have hwire : s.wire id = [] := hwire
  have hcreated : (s.tcpServer.conn id).bare = TcpConnection.create
    (s.tcpServer.conn id).connName (s.tcpServer.conn id).channel.fd := hconn
  have hbare : r.1.bare = TcpConnection.established (s.tcpServer.conn id).connName
      (s.tcpServer.conn id).channel.fd := by
    have hresult := TcpConnection.establishConnection_bare (s.tcpServer.conn id)
    rw [hcreated, hr, TcpConnection.establishConnection_create] at hresult
    exact (Prod.ext_iff.1 (Option.some.inj hresult)).1.symm
  rw [hevents, hwire, hbare]
  exact ⟨HttpConnection.accepted _ _, ⟨rfl, rfl, rfl, rfl, rfl⟩, rfl,
    fun ev hev => absurd hev List.not_mem_nil⟩

theorem own_removed {r : TcpConnection × List TcpConnection.Effect}
    (hx : Own (client s id) .closed) (hr : (s.tcpServer.conn id).destroyConnection = some r) :
    Own ⟨r.1.bare, s.context id, s.events id, s.wire id⟩ .removed := by
  obtain ⟨g, hlone, -⟩ := hx
  rw [TcpConnection.destroyConnection] at hr
  split_ifs at hr
  cases hr
  exact ⟨g, hlone.ran, hlone.context, hlone.input, hlone.output, hlone.wire⟩

theorem functor_clients (h : Clients s stage) (hpossible : Possible s .functor) :
    ∃ s' stage', step s .functor = some s' ∧ Clients s' stage' := by
  obtain ⟨t, stage', ht, hinv, hsettled⟩ := step_plain h hpossible
  obtain ⟨f, batch, hphase⟩ := TcpServer.batch_cons hpossible
  have hplain : s.plain .functor = some { s with tcpServer := t } := by
    rw [plain, ht]
    rfl
  have hpop : Still s.tcpServer { s.tcpServer with phase := .functors batch } := ⟨rfl, rfl⟩
  have hrun : TcpServer.runFunctor [] { s.tcpServer with phase := .functors batch } f = some t := by
    simpa only [Action.tcp, TcpServer.step, hphase] using ht
  cases f with
  | establishConnection id =>
    obtain ⟨r, hr, hmoves⟩ := TcpServer.establish_moves hrun
    refine ⟨{ s with tcpServer := t, context := Function.update s.context id HttpContext.fresh },
      stage', ?_, ?_⟩
    · simp only [step, hphase, hplain]
      rfl
    · refine h.moves (hpop.then hmoves) hinv hsettled (fun j hj => Function.update_of_ne hj _ _) ?_
      intro hnext
      obtain ⟨hid, hid'⟩ := run_establish hnext
      rw [hid', Function.update_self]
      exact own_established (hid ▸ h.own id) hr
  | destroyConnection id =>
    obtain ⟨r, hr, hmoves⟩ := TcpServer.destroy_moves hrun
    refine ⟨{ s with tcpServer := t }, stage', ?_, ?_⟩
    · simp only [step, hphase, hplain]
    · refine h.moves (hpop.then hmoves) hinv hsettled (fun _ _ => rfl) ?_
      intro hnext
      obtain ⟨hid, hid'⟩ := run_destroy hnext
      rw [hid']
      exact own_removed (hid ▸ h.own id) hr
  | user =>
    have hstill : Still s.tcpServer t := by
      rw [TcpServer.userCalls_nil hrun]
      exact hpop
    exact ⟨{ s with tcpServer := t }, stage', by simp only [step, hphase, hplain],
      h.still hstill hinv hsettled⟩

/-- The message handler of one client does not return, as it would not if that client were alone. -/
def FailsAlone (s : HttpServer) (a : Action) : Prop :=
  ∃ accepted e w id active g, a = .handleEvent accepted e w ∧
    s.tcpServer.phase = .handling (.conn id :: active) ∧ Lone (client s id) g ∧
      (∀ ev ∈ s.events id, ev.closes = false) ∧ HttpConnection.step g (.readable e) = none

theorem event_clients (h : Clients s stage) {accepted : ℤ} {e : Reading} {w : WriteResult}
    (hpossible : Possible s (.handleEvent accepted e w)) :
    (step s (.handleEvent accepted e w) = none ∧ FailsAlone s (.handleEvent accepted e w)) ∨
      ∃ s' stage', step s (.handleEvent accepted e w) = some s' ∧ Clients s' stage' := by
  obtain ⟨b, active, hphase⟩ := TcpServer.active_cons hpossible.1
  by_cases hb : ∃ id, b = .conn id
  · obtain ⟨id, rfl⟩ := hb
    obtain ⟨hinv, hid, hout, hpromised⟩ := h.inv.event hphase
    generalize ht : ({ s.tcpServer with phase := .handling active }.mark id .event) = t at hinv
    have hstep : step s (.handleEvent accepted e w) =
        run (callback e w id) { s with tcpServer := t }
          (s.tcpServer.conn id).channel.handleEvent := by
      rw [← ht]
      simp only [step, hphase]
    have hsame : ∀ j, client { s with tcpServer := t } j = client s j := by
      intro j
      rw [← ht]
      rfl
    have hclients : Clients { s with tcpServer := t } stage :=
      ⟨hinv, h.settled, fun j => by rw [hsame j]; exact h.own j⟩
    have htphase : t.phase = .handling active := by
      rw [← ht]
      rfl
    rcases callbacks_go e w _ hclients (by rw [htphase]; rfl) (by rw [htphase]; exact hout)
        (TcpServer.handleEvent_order hpromised)
        (Or.inl ⟨hid, Channel.handleEvent_closing hpromised⟩) with
      ⟨hnone, -, g, hlone, hfails⟩ | ⟨s', stage', hrun, hclients'⟩
    · rw [hsame id] at hlone
      have hopen : ∀ ev ∈ s.events id, ev.closes = false := by
        have hown := h.own id
        rw [hid] at hown
        obtain ⟨-, -, -, hopen⟩ := hown
        exact hopen
      exact Or.inl ⟨hstep.trans hnone, accepted, e, w, id, active, g, rfl, hphase, hlone, hopen,
        hfails⟩
    · exact Or.inr ⟨s', stage', hstep.trans hrun, hclients'⟩
  · right
    obtain ⟨t, stage', ht, hinv, hsettled⟩ := step_plain h hpossible
    have hpop : Still s.tcpServer { s.tcpServer with phase := .handling active } := ⟨rfl, rfl⟩
    have hrun : TcpServer.handleEvent ⟨accepted, e.result, w, []⟩
        { s.tcpServer with phase := .handling active } b = some t := by
      simpa only [Action.tcp, TcpServer.step, hphase] using ht
    have hstep : step s (.handleEvent accepted e w) = some { s with tcpServer := t } := by
      have hplain : s.plain (.handleEvent accepted e w) = some { s with tcpServer := t } := by
        rw [plain, ht]
        rfl
      rw [← hplain]
      simp only [step, hphase]
      cases b with
      | conn id => exact absurd ⟨id, rfl⟩ hb
      | _ => rfl
    refine ⟨_, stage', hstep, ?_⟩
    cases b with
    | conn id => exact absurd ⟨id, rfl⟩ hb
    | timer =>
      exact h.still (hpop.trans (TcpServer.loop_event_still rfl (Or.inl rfl) hrun)) hinv hsettled
    | waken =>
      exact h.still (hpop.trans (TcpServer.loop_event_still rfl (Or.inr rfl) hrun)) hinv hsettled
    | acceptor =>
      have hcallbacks := TcpServer.acceptor_callbacks ⟨accepted, e.result, w, []⟩ _
        (Channel.handleEvent_read s.tcpServer.acceptorChannel)
        { s.tcpServer with phase := .handling active }
      have heq := hrun.symm.trans hcallbacks
      rw [Option.some.injEq] at heq
      split_ifs at heq
      · rw [TcpServer.incomingHandler] at heq
        split_ifs at heq
        · have hmoves := TcpServer.accept_moves
            { s.tcpServer with phase := .handling active } accepted
          have heq : t = TcpServer.newConnectionHandler
            { s.tcpServer with phase := .handling active } accepted := heq
          rw [← heq] at hmoves
          refine h.moves (hpop.then hmoves) hinv hsettled (fun _ _ => rfl) ?_
          intro hnext
          obtain ⟨hid, hid'⟩ := run_accept hnext
          have hunborn := h.own s.tcpServer.newConnId
          have hid : stage s.tcpServer.newConnId = .unborn := hid
          rw [hid] at hunborn
          rw [hid']
          exact ⟨hunborn.1, hunborn.2, rfl⟩
        · rw [heq]
          rw [heq] at hinv
          exact h.still hpop hinv hsettled
      · rw [heq]
        rw [heq] at hinv
        exact h.still hpop hinv hsettled

theorem step_clients (h : Clients s stage) (hpossible : Possible s a) :
    (step s a = none ∧ FailsAlone s a) ∨
      ∃ s' stage', step s a = some s' ∧ Clients s' stage' := by
  have hloop : (∀ t, s.tcpServer.step a.tcp = some t → Still s.tcpServer t) →
      step s a = s.plain a → ∃ s' stage', step s a = some s' ∧ Clients s' stage' := by
    intro hstill hstep
    obtain ⟨t, stage', ht, hinv, hsettled⟩ := step_plain h hpossible
    refine ⟨{ s with tcpServer := t }, stage', ?_, h.still (hstill t ht) hinv hsettled⟩
    rw [hstep, plain, ht]
    rfl
  cases a with
  | construct =>
    refine Or.inr (hloop (fun t ht => ?_) rfl)
    have hpop : Still s.tcpServer { s.tcpServer with phase := .polling } := ⟨rfl, rfl⟩
    exact hpop.trans (TcpServer.construct_still ht)
  | run => exact Or.inr (hloop (fun t ht => TcpServer.run_still ht) rfl)
  | poll revents numEvents => exact Or.inr (hloop (fun t ht => TcpServer.poll_still ht) rfl)
  | handleEvent accepted e w => exact event_clients h hpossible
  | processFunctors =>
    refine Or.inr (hloop (fun t ht => ?_) rfl)
    cases ht
    exact ⟨rfl, rfl⟩
  | functor => exact Or.inr (functor_clients h hpossible)
  | endFunctors =>
    refine Or.inr (hloop (fun t ht => ?_) rfl)
    cases ht
    exact ⟨rfl, rfl⟩

theorem run_clients {actions : List Action} (h : Clients s stage)
    (hpossible : Along step (fun s a _ => Possible s a) s actions) :
    Along step (fun s a o => o = none → FailsAlone s a) s actions ∧
      ∀ s', run step s actions = some s' → ∃ stage', Clients s' stage' := by
  induction actions generalizing s stage with
  | nil =>
    refine ⟨trivial, ?_⟩
    rintro s' ⟨⟩
    exact ⟨stage, h⟩
  | cons a actions ih =>
    rw [along_cons]
    rcases step_clients h hpossible.1 with ⟨hnone, hfails⟩ | ⟨t, stage₁, ht, hclients⟩
    · refine ⟨⟨fun _ => hfails, fun t ht => ?_⟩, fun s' hs' => ?_⟩
      · rw [hnone] at ht
        cases ht
      · rw [run_cons, hnone] at hs'
        cases hs'
    · obtain ⟨halong, hrun⟩ := ih hclients (hpossible.2 t ht)
      refine ⟨⟨fun hcon => ?_, fun u hu => ?_⟩, fun s' hs' => ?_⟩
      · rw [ht] at hcon
        cases hcon
      · rw [ht] at hu
        cases hu
        exact halong
      · rw [run_cons, ht] at hs'
        exact hrun s' hs'

theorem start_clients (serverName : String) {timerfd wakenfd listenfd : ℤ} (htimer : 0 ≤ timerfd)
    (hwaken : 0 ≤ wakenfd) (hlisten : 0 ≤ listenfd)
    (hdistinct : [timerfd, wakenfd, listenfd].Nodup) :
    Clients (start serverName timerfd wakenfd listenfd) fun _ => .unborn :=
  ⟨TcpServer.start_inv serverName htimer hwaken hlisten hdistinct, fun _ => by decide,
    fun _ => ⟨rfl, rfl⟩⟩

theorem establish_mem {ms : List Mark} {y : Stage} (h : Reaches ms y) :
    .establish ∈ ms ↔ y ≠ .unborn ∧ y ≠ .accepted := by
  rw [← List.count_pos_iff, count_establish h, ← not_or]
  split_ifs with hy
  · simp [hy]
  · simp [hy]

theorem Clients.lone (h : Clients s stage) (hid : .establish ∈ s.tcpServer.trace id) :
    ∃ g, Lone (client s id) g ∧
      (.destroy ∉ s.tcpServer.trace id → (client s id).conn = g.conn) := by
  have htrace := h.inv.ledger.trace id
  obtain ⟨hunborn, haccepted⟩ := (establish_mem htrace).1 hid
  have hown := h.own id
  have hdestroy : stage id = .removed → .destroy ∈ s.tcpServer.trace id := by
    intro hremoved
    rw [← List.count_pos_iff, count_destroy htrace, if_pos (Or.inr hremoved)]
    exact Nat.one_pos
  cases hstage : stage id with
  | unborn => exact absurd hstage hunborn
  | accepted => exact absurd hstage haccepted
  | established =>
    rw [hstage] at hown
    obtain ⟨g, hlone, hconn, -⟩ := hown
    exact ⟨g, hlone, fun _ => hconn⟩
  | closed =>
    rw [hstage] at hown
    obtain ⟨g, hlone, hconn⟩ := hown
    exact ⟨g, hlone, fun _ => hconn⟩
  | destroyed => exact absurd hstage (h.settled id)
  | removed =>
    rw [hstage] at hown
    obtain ⟨g, hlone⟩ := hown
    exact ⟨g, hlone, fun hcon => absurd (hdestroy hstage) hcon⟩

theorem Clients.silent (h : Clients s stage) (hid : .establish ∉ s.tcpServer.trace id) :
    s.events id = [] ∧ s.wire id = [] := by
  have hown := h.own id
  rw [establish_mem (h.inv.ledger.trace id), not_and_or, not_not, not_not] at hid
  rcases hid with hid | hid
  · rw [hid] at hown
    exact hown
  · rw [hid] at hown
    exact ⟨hown.1, hown.2.1⟩

/-- In every run of the server each client has come to where a connection comes that is alone and
gets the same events, with the same bytes on its wire; and the server fails only in the message
handler of a client that fails alone too. -/
theorem clients_are_separate (serverName : String) {timerfd wakenfd listenfd : ℤ}
    (htimer : 0 ≤ timerfd) (hwaken : 0 ≤ wakenfd) (hlisten : 0 ≤ listenfd)
    (hdistinct : [timerfd, wakenfd, listenfd].Nodup) (actions : List Action)
    (hpossible : Along step (fun s a _ => Possible s a)
      (start serverName timerfd wakenfd listenfd) actions) :
    Along step (fun s a o => o = none → FailsAlone s a)
      (start serverName timerfd wakenfd listenfd) actions ∧
    ∀ s, run step (start serverName timerfd wakenfd listenfd) actions = some s → ∀ id,
      (.establish ∉ s.tcpServer.trace id → s.events id = [] ∧ s.wire id = []) ∧
      (.establish ∈ s.tcpServer.trace id → ∃ g, Lone (client s id) g ∧
        (.destroy ∉ s.tcpServer.trace id → (client s id).conn = g.conn)) := by
  obtain ⟨hfails, hrun⟩ :=
    run_clients (start_clients serverName htimer hwaken hlisten hdistinct) hpossible
  refine ⟨hfails, fun s hs id => ?_⟩
  obtain ⟨stage, hclients⟩ := hrun s hs
  exact ⟨hclients.silent, hclients.lone⟩

def getReading : Reading :=
  sends (bytes "GET / HTTP/1.0\r\n\r\n") (by decide) (fun _ response => response) (.wrote 9)

/-- Two clients are accepted and then ready in the same rounds: a request and a bad line, both
answered in two writes. -/
def twoClients : List Action :=
  [.construct, .run,
    .poll (fun fd => if fd = 5 then 1 else 0) 1, .handleEvent 6 idle .error,
    .processFunctors, .functor, .endFunctors,
    .poll (fun fd => if fd = 5 then 1 else 0) 1, .handleEvent 7 idle .error,
    .processFunctors, .functor, .endFunctors,
    .poll (fun fd => if fd = 6 ∨ fd = 7 then 1 else 0) 2,
    .handleEvent (-1) getReading .error, .handleEvent (-1) (rejectedReading (.wrote 4)) .error,
    .processFunctors, .endFunctors,
    .poll (fun fd => if fd = 6 ∨ fd = 7 then 4 else 0) 2,
    .handleEvent (-1) idle (.wrote 100), .handleEvent (-1) idle (.wrote 100),
    .processFunctors, .endFunctors]

theorem twoClients_possible :
    Along step (fun s a _ => Possible s a) (start "server" 3 4 5) twoClients := by
  decide +kernel

theorem clients_are_separate_of_two : ∃ s, run step (start "server" 3 4 5) twoClients = some s ∧
    (∃ g, Lone (client s 0) g) ∧ ∃ g, Lone (client s 1) g := by
  have hsome : ((run step (start "server" 3 4 5) twoClients).map fun s =>
      decide (.establish ∈ s.tcpServer.trace 0 ∧ .establish ∈ s.tcpServer.trace 1)) = some true := by
    decide +kernel
  obtain ⟨s, hs, hestablished⟩ := Option.map_eq_some_iff.1 hsome
  obtain ⟨hzero, hone⟩ := of_decide_eq_true hestablished
  have hall := (clients_are_separate "server" (by decide) (by decide) (by decide) (by decide)
    twoClients twoClients_possible).2 s hs
  obtain ⟨g, hlone, -⟩ := (hall 0).2 hzero
  obtain ⟨g', hlone', -⟩ := (hall 1).2 hone
  exact ⟨s, hs, ⟨g, hlone⟩, g', hlone'⟩

section Answers

variable {P : HttpCallback → Prop} {e : Reading} {w : WriteResult}

end Answers

end HydrogenWeb.HttpServer
