import HydrogenWeb.HttpServerClients

set_option autoImplicit false

/-!
# The handlers of one client

A callback of a connection's channel does in the server what the connection does alone; it fails
only where `onMessage` does, and the other clients cannot tell that it has run.
-/
namespace HydrogenWeb.HttpServer
open TransitionRuns Lifecycle
open TcpServer (UserCall bares Moves Still)
open HttpConnection (Reading)
open TcpConnection (acceptedBytes)

variable {s s' : HttpServer} {id : ℕ} {e : Reading} {w : WriteResult} {cb : Callback} {y : Stage}
  {c : TcpConnection}

structure Goes (id : ℕ) (y y' : Stage) (s s' : HttpServer) : Prop where
  marked : ∃ ms, run next y ms = some y' ∧
    Moves id (bares s'.tcpServer id) ms s.tcpServer s'.tcpServer
  own : Own (client s' id) y'
  others : ∀ j ≠ id, client s' j = client s j

theorem after_client {ev : HttpConnection.Event} {bytes : List UInt8} {o : Option TcpServer}
    (h : s.after id ev bytes o = some s') : o = some s'.tcpServer ∧
      client s' id = ⟨bares s'.tcpServer id, s.context id, s.events id ++ [ev], s.wire id ++ bytes⟩ ∧
      ∀ j ≠ id, bares s'.tcpServer j = bares s.tcpServer j → client s' j = client s j := by
  obtain ⟨t, ht, rfl⟩ := Option.map_eq_some_iff.1 h
  refine ⟨ht, ?_, fun j hj hbare => ?_⟩
  · simp only [client, Function.update_self]
  · simp only [client, hbare, Function.update_of_ne hj]

/-- A handler that ends in `closeHandler`. -/
theorem close_goes (ev : HttpConnection.Event) (hx : Own (client s id) .established)
    (hcloses : ev.closes = true)
    (h : s.after id ev [] ((s.tcpServer.conn id).closeHandler.bind
      (TcpServer.perform (TcpServer.userCalls []) id s.tcpServer)) = some s') :
    Goes id .established .closed s s' := by
  obtain ⟨g, hlone, hconn, hopen⟩ := hx
  obtain ⟨hserver, hclient, hothers⟩ := after_client h
  obtain ⟨r, hclose, hmoves⟩ := TcpServer.close_moves hserver
  have hstep := lone_close (hlone.listens hopen) hconn hclose hcloses
  have hbytes : acceptedBytes g.output.history = acceptedBytes g.output.history ++ [] :=
    (List.append_nil _).symm
  have hnext := hlone.next hconn hstep hbytes
  have hbare : bares s'.tcpServer id = r.1.bare := hmoves.own
  refine ⟨⟨[.close], rfl, hbare ▸ hmoves⟩, ?_, fun j hj => hothers j hj (hmoves.other hj)⟩
  rw [hclient, hbare]
  have hcontext : s.context id = g.context := hlone.context
  rw [hcontext]
  exact ⟨_, hnext, rfl⟩

theorem write_goes (hx : Own (client s id) y) (hy : y = .established ∨ y = .closed)
    (h : s.callback e w id .write = some s') : Goes id y y s s' := by
  obtain ⟨hserver, hclient, hothers⟩ := after_client h
  have hmoves := TcpServer.perform_moves (fun _ _ => TcpServer.userCalls_nil) hserver
  rw [TcpServer.calm_marks (TcpConnection.writeHandler_calm _ w)] at hmoves
  have hbare : bares s'.tcpServer id = ((s.tcpServer.conn id).writeHandler w).1.bare := hmoves.own
  refine ⟨⟨[], rfl, hbare ▸ hmoves⟩, ?_, fun j hj => hothers j hj (hmoves.other hj)⟩
  rw [hclient, hbare]
  suffices hnext : ∀ g, Lone (client s id) g → (client s id).conn = g.conn → ∃ g',
      Lone ⟨((s.tcpServer.conn id).writeHandler w).1.bare, s.context id,
        s.events id ++ [.writable w], s.wire id ++
          TcpConnection.accepted ((s.tcpServer.conn id).writeHandler w).2⟩ g' ∧
      ((s.tcpServer.conn id).writeHandler w).1.bare = g'.conn by
    rcases hy with rfl | rfl
    · obtain ⟨g, hlone, hconn, hopen⟩ := hx
      obtain ⟨g', hlone', hconn'⟩ := hnext g hlone hconn
      refine ⟨g', hlone', hconn', fun ev hev => ?_⟩
      rcases List.mem_append.1 hev with hev | hev
      · exact hopen ev hev
      · rw [List.mem_singleton.1 hev]
        rfl
    · obtain ⟨g, hlone, hconn⟩ := hx
      exact hnext g hlone hconn
  intro g hlone hconn
  have hwrite : g.conn.writeHandler w =
      TcpConnection.bareResult ((s.tcpServer.conn id).writeHandler w) := by
    rw [← hconn]
    exact TcpConnection.writeHandler_bare _ w
  have hstep : HttpConnection.step g (.writable w) =
      some ⟨⟨((s.tcpServer.conn id).writeHandler w).1.bare, g.output.history ++
        ((s.tcpServer.conn id).writeHandler w).2.map .did⟩, g.context⟩ := by
    show some (HttpConnection.mk ⟨(g.conn.writeHandler w).1, g.output.history ++
      (g.conn.writeHandler w).2.map .did⟩ g.context) = _
    rw [hwrite]
    rfl
  have hnext := hlone.next hconn hstep
    ((TcpConnection.acceptedBytes_append _ _).trans
      (congrArg _ (TcpConnection.acceptedBytes_did _)))
  have hcontext : s.context id = g.context := hlone.context
  rw [hcontext]
  exact ⟨_, hnext, rfl⟩

def messageCalls (id : ℕ) (e : Reading) (c : TcpConnection)
    (r : List Call × HttpContext × List UInt8) : List UserCall :=
  .clear id (c.inputBuffer.length - r.2.2.length) :: userCalls id e.answers r.1

theorem server_message {t : TcpServer} {user : List UserCall}
    (hmessage : (t.conn id).connectionHandler e.result = some (c, [.msgCallback])) :
    TcpServer.callback ⟨-1, e.result, w, user⟩ (.conn id) t .read =
      TcpServer.userCalls user (t.setConn id c) := by
  simp only [TcpServer.callback, hmessage, Option.bind_some, TcpServer.perform, run_cons,
    TcpServer.effect, run_nil]
  exact Option.bind_fun_some _

theorem callback_error (s : HttpServer) (e : Reading) (w : WriteResult) (id : ℕ) :
    s.callback e w id .error = some s := by
  have hserver : ∀ answers, TcpServer.callback answers (.conn id) s.tcpServer .error =
      some s.tcpServer := fun answers => TcpServer.perform_same _ _ id
  simp only [callback, hserver]
  rfl

theorem callback_message
    (hmessage : (s.tcpServer.conn id).connectionHandler e.result = some (c, [.msgCallback])) :
    s.callback e w id .read =
      (onMessage e.callback (s.context id) c.inputBuffer e.receiveTime).bind fun r =>
        after { s with context := Function.update s.context id r.2.1 } id (.readable e)
          (taken (s.tcpServer.setConn id c) (messageCalls id e c r))
          (TcpServer.userCalls (messageCalls id e c r) (s.tcpServer.setConn id c)) := by
  simp only [callback, hmessage, Option.bind_some, server_message hmessage]
  rfl

theorem message_goes (hx : Own (client s id) .established)
    (hmessage : (s.tcpServer.conn id).connectionHandler e.result = some (c, [.msgCallback]))
    (h : s.callback e w id .read = some s') : Goes id .established .established s s' := by
  obtain ⟨g, hlone, hconn, hopen⟩ := hx
  rw [callback_message hmessage, Option.bind_eq_some_iff] at h
  obtain ⟨⟨calls, context, rest⟩, hcalls, hafter⟩ := h
  obtain ⟨hserver, hclient, hothers⟩ := after_client hafter
  have hrest := onMessage_rest hcalls
  generalize ht : (s.tcpServer.setConn id c).setConn id { c with inputBuffer := rest } = t
  have hclear : (s.tcpServer.setConn id c).userCall
      (.clear id (c.inputBuffer.length - rest.length)) = some t := by
    have hself : (s.tcpServer.setConn id c).conn id = c := Function.update_self _ _ _
    rw [TcpServer.userCall, hself, hrest, ht]
  have hset := (TcpServer.setConn_moves s.tcpServer id c).trans
    (TcpServer.setConn_moves (s.tcpServer.setConn id c) id { c with inputBuffer := rest })
  rw [ht] at hset
  have hcallsrun : TcpServer.userCalls (userCalls id e.answers calls) t = some s'.tcpServer := by
    change run TcpServer.userCall (s.tcpServer.setConn id c) (.clear id _ :: _) = _ at hserver
    rw [run_cons, hclear] at hserver
    exact hserver
  obtain ⟨hmoves, hbytes⟩ := userCalls_moves
    (o := ⟨{ c.bare with inputBuffer := rest }, g.output.history⟩) hset.own hcallsrun
  have htaken : taken (s.tcpServer.setConn id c) (messageCalls id e c (calls, context, rest)) =
      taken t (userCalls id e.answers calls) := taken_cons hclear _
  have hcontext : s.context id = g.context := hlone.context
  have hstep := lone_message (hlone.listens hopen) hconn hmessage
  rw [← hcontext, hcalls, Option.map_some] at hstep
  have hnext := hlone.next hconn hstep hbytes
  have hall := hset.trans hmoves
  have hbare : bares s'.tcpServer id = _ := hall.own
  refine ⟨⟨[], rfl, hbare ▸ hall⟩, ?_, fun j hj => ?_⟩
  · rw [hclient, htaken, hbare]
    have hnew : Function.update s.context id context id = context := Function.update_self _ _ _
    refine ⟨_, hnew.symm ▸ hnext, rfl, fun ev hev => ?_⟩
    rcases List.mem_append.1 hev with hev | hev
    · exact hopen ev hev
    · rw [List.mem_singleton.1 hev, HttpConnection.Event.closes, decide_eq_false_iff_not]
      intro hend
      rw [hend, TcpConnection.connectionHandler_end] at hmessage
      cases closeHandler_eq hmessage
  · have hother := hothers j hj (hall.other hj)
    rw [hother]
    simp only [client, Function.update_of_ne hj]

/-- A callback of a connection that is established or, if it does not close, closed. -/
theorem callback_goes (hx : Own (client s id) y)
    (hready : y = .established ∨ y = .closed ∧ Channel.closing cb = false)
    (h : s.callback e w id cb = some s') :
    ∃ y', Goes id y y' s s' ∧ (y' = y ∨ Channel.closing cb = true ∧ y' = .closed) := by
  have hopen : Channel.closing cb = true → y = .established := by
    intro hcb
    refine hready.resolve_right fun hcon => ?_
    rw [hcb] at hcon
    cases hcon.2
  cases cb with
  | close =>
    rw [hopen rfl] at hx ⊢
    exact ⟨.closed, close_goes .hangup hx rfl h, Or.inr ⟨rfl, rfl⟩⟩
  | error =>
    rw [callback_error] at h
    cases h
    exact ⟨y, ⟨⟨[], rfl, (Still.refl _).moves id⟩, hx, fun _ _ => rfl⟩, Or.inl rfl⟩
  | write => exact ⟨y, write_goes hx (hready.imp_right And.left) h, Or.inl rfl⟩
  | read =>
    rw [hopen rfl] at hx ⊢
    rcases connectionHandler_cases (s.tcpServer.conn id) e with hend | hmessage
    · refine ⟨.closed, close_goes (.readable e) hx ?_ ?_, Or.inr ⟨rfl, rfl⟩⟩
      · simp [HttpConnection.Event.closes, hend]
      · have hclose : (s.tcpServer.conn id).connectionHandler e.result =
            (s.tcpServer.conn id).closeHandler := by
          rw [hend, TcpConnection.connectionHandler_end]
        simp only [callback, TcpServer.callback, hclose] at h
        obtain ⟨r, hr, hrest⟩ := Option.bind_eq_some_iff.1 h
        rw [closeHandler_eq hr, if_neg (by simp)] at hrest
        exact hrest
    · exact ⟨.established, message_goes hx hmessage h, Or.inl rfl⟩

variable {stage : ℕ → Stage}

theorem callback_server (h : s.callback e w id cb = some s') :
    ∃ answers, TcpServer.callback answers (.conn id) s.tcpServer cb = some s'.tcpServer := by
  cases cb with
  | close => exact ⟨_, (after_client h).1⟩
  | write => exact ⟨_, (after_client h).1⟩
  | error =>
    rw [callback_error] at h
    cases h
    exact ⟨⟨-1, e.result, w, []⟩, TcpServer.perform_same _ _ id⟩
  | read =>
    obtain ⟨⟨c, effects⟩, hr, hrest⟩ := Option.bind_eq_some_iff.1 h
    dsimp only at hrest
    split_ifs at hrest
    · obtain ⟨⟨calls, context, rest⟩, -, hafter⟩ := Option.bind_eq_some_iff.1 hrest
      exact ⟨_, (after_client hafter).1⟩
    · exact ⟨_, (after_client hrest).1⟩

/-- Only `onMessage` can fail, and then it fails for the connection alone. -/
theorem callback_fails (hinv : TcpServer.Inv s.tcpServer stage)
    (hphase : s.tcpServer.phase.isHandling = true)
    (hout : .conn id ∉ s.tcpServer.phase.active) (hx : Own (client s id) (stage id))
    (hready : stage id = .established ∨ stage id = .closed ∧ Channel.closing cb = false)
    (h : s.callback e w id cb = none) : cb = .read ∧ ∃ g, Lone (client s id) g ∧
      HttpConnection.step g (.readable e) = none := by
  have hserver : ∀ answers, ∃ t,
      TcpServer.callback answers (.conn id) s.tcpServer cb = some t := by
    intro answers
    obtain ⟨t, stage', ht, -⟩ := TcpServer.callback_spec answers hinv hphase hout cb hready
    exact ⟨t, ht⟩
  have hafter : ∀ {u : HttpServer} {ev : HttpConnection.Event} {bytes : List UInt8}
      {user : List UserCall}, after u id ev bytes
        (TcpServer.callback ⟨-1, e.result, w, user⟩ (.conn id) s.tcpServer cb) ≠ none := by
    intro u ev bytes user hcon
    obtain ⟨t, ht⟩ := hserver ⟨-1, e.result, w, user⟩
    rw [ht] at hcon
    cases hcon
  cases cb with
  | close => exact absurd h hafter
  | write => exact absurd h hafter
  | error =>
    rw [callback_error] at h
    cases h
  | read =>
    have hid : stage id = .established := hready.resolve_right fun hcon => by cases hcon.2
    rw [hid] at hx
    obtain ⟨g, hlone, hconn, hopen⟩ := hx
    refine ⟨rfl, g, hlone, ?_⟩
    rcases connectionHandler_cases (s.tcpServer.conn id) e with hend | hmessage
    · obtain ⟨t, ht⟩ := hserver ⟨-1, e.result, w, []⟩
      obtain ⟨r, hr, -⟩ := Option.bind_eq_some_iff.1 ht
      have heffects : r.2 = [.update, .closeCallback] := by
        rw [hend, TcpConnection.connectionHandler_end] at hr
        rw [closeHandler_eq hr]
      simp only [callback] at h
      have hr' : (s.tcpServer.conn id).connectionHandler e.result = some r := hr
      rw [hr', Option.bind_some, heffects, if_neg (by simp)] at h
      exact absurd h hafter
    · rw [callback_message hmessage] at h
      have hnone : onMessage e.callback (s.context id)
          { s.tcpServer.conn id with
            inputBuffer := (TcpConnection.readFd (s.tcpServer.conn id).inputBuffer e.result).2
            }.inputBuffer e.receiveTime = none := by
        by_contra hsome
        obtain ⟨r, hr⟩ := Option.ne_none_iff_exists'.1 hsome
        rw [hr, Option.bind_some, ← server_message (w := w) hmessage] at h
        exact hafter h
      have hcontext : s.context id = g.context := hlone.context
      rw [lone_message (hlone.listens hopen) hconn hmessage, ← hcontext, hnone]
      rfl

/-- Every client is where a connection that is alone has come with the same events. -/
structure Clients (s : HttpServer) (stage : ℕ → Stage) : Prop where
  inv : TcpServer.Inv s.tcpServer stage
  settled : ∀ id, stage id ≠ .destroyed
  own : ∀ id, Own (client s id) (stage id)

variable {stage' : ℕ → Stage}

theorem Goes.own_all (h : Goes id (stage id) y s s') (hown : ∀ j, Own (client s j) (stage j))
    (hinv : TcpServer.Inv s.tcpServer stage) (hinv' : TcpServer.Inv s'.tcpServer stage') :
    stage' id = y ∧ (∀ j ≠ id, stage' j = stage j) ∧ ∀ j, Own (client s' j) (stage' j) := by
  obtain ⟨ms, hnext, hmoves⟩ := h.marked
  obtain ⟨hid, hothers⟩ := hmoves.stage_eq hinv hinv'
  have hstage : stage' id = y := Option.some.inj (hid.symm.trans hnext)
  refine ⟨hstage, hothers, fun j => ?_⟩
  by_cases hj : j = id
  · rw [hj, hstage]
    exact h.own
  · rw [hothers j hj, h.others j hj]
    exact hown j

/-- The callbacks of one event, as long as `onMessage` returns. -/
theorem callbacks_go (e : Reading) (w : WriteResult) (callbacks : List Callback)
    (h : Clients s stage) (hphase : s.tcpServer.phase.isHandling = true)
    (hout : .conn id ∉ s.tcpServer.phase.active)
    (horder : callbacks.Pairwise fun a b => b = .read → a = .error)
    (hready : stage id = .established ∧ callbacks.countP Channel.closing ≤ 1 ∨
      stage id = .closed ∧ callbacks.countP Channel.closing = 0) :
    (run (callback e w id) s callbacks = none ∧ .read ∈ callbacks ∧ ∃ g, Lone (client s id) g ∧
      HttpConnection.step g (.readable e) = none) ∨
    ∃ s' stage', run (callback e w id) s callbacks = some s' ∧ Clients s' stage' := by
  induction callbacks generalizing s stage with
  | nil => exact Or.inr ⟨s, stage, rfl, h⟩
  | cons cb callbacks ih =>
    rw [List.countP_cons] at hready
    obtain ⟨hfirst, horder⟩ := List.pairwise_cons.1 horder
    have hready₁ : stage id = .established ∨ stage id = .closed ∧ Channel.closing cb = false := by
      refine hready.imp And.left fun hid => ⟨hid.1, ?_⟩
      by_contra hcb
      rw [Bool.not_eq_false] at hcb
      have hcount := hid.2
      rw [hcb] at hcount
      simp at hcount
    cases hs : callback e w id s cb with
    | none =>
      obtain ⟨rfl, g, hlone, hstep⟩ := callback_fails h.inv hphase hout (h.own id) hready₁ hs
      exact Or.inl ⟨by rw [run_cons, hs]; rfl, List.mem_cons_self, g, hlone, hstep⟩
    | some s₁ =>
      obtain ⟨y', hgoes, hy'⟩ := callback_goes (h.own id) hready₁ hs
      obtain ⟨answers, hserver⟩ := callback_server hs
      obtain ⟨t, stage₁, ht, hphase₁, -, hinv₁, -⟩ :=
        TcpServer.callback_spec answers h.inv hphase hout cb hready₁
      rw [hserver] at ht
      cases ht
      obtain ⟨hid, hothers, hown₁⟩ := hgoes.own_all h.own h.inv hinv₁
      have hready' : stage₁ id = .established ∧ callbacks.countP Channel.closing ≤ 1 ∨
          stage₁ id = .closed ∧ callbacks.countP Channel.closing = 0 := by
        rcases hy' with rfl | ⟨hcb, rfl⟩
        · rw [hid]
          exact hready.imp (fun hid => ⟨hid.1, by omega⟩) fun hid => ⟨hid.1, by omega⟩
        · rw [hcb, if_pos rfl] at hready
          exact Or.inr ⟨hid, by omega⟩
      have hsettled₁ : ∀ j, stage₁ j ≠ .destroyed := by
        intro j
        by_cases hj : j = id
        · rw [hj]
          rcases hready' with hcon | hcon
          · rw [hcon.1]
            decide
          · rw [hcon.1]
            decide
        · rw [hothers j hj]
          exact h.settled j
      rcases ih ⟨hinv₁, hsettled₁, hown₁⟩ (hphase₁ ▸ hphase) (hphase₁ ▸ hout) horder hready' with
        ⟨hnone, hread, g, hlone, hstep⟩ | ⟨s', stage', hrun, hclients⟩
      · -- nothing has happened before the read
        have herror : cb = .error := hfirst .read hread rfl
        have hsame : s₁ = s := by
          rw [herror, callback_error] at hs
          exact (Option.some.inj hs).symm
        rw [hsame] at hlone hnone
        refine Or.inl ⟨?_, List.mem_cons_of_mem _ hread, g, hlone, hstep⟩
        rw [run_cons, hs, hsame]
        exact hnone
      · refine Or.inr ⟨s', stage', ?_, hclients⟩
        rw [run_cons, hs]
        exact hrun

end HydrogenWeb.HttpServer
