import HydrogenWeb.TcpServerQuiet

set_option autoImplicit false

/-!
# The map, the states and the pending functors

One invariant ties `_connections`, the states and the functors that have a connection
bound into them to the stage that the history of each connection has reached.
-/
namespace HydrogenWeb

def Lifecycle.Stage.listed : Lifecycle.Stage → Bool
  | .accepted | .established => true
  | _ => false

namespace TcpServer
open TransitionRuns Lifecycle Poller

def Phase.batch : Phase → List Functor
  | .functors batch => batch
  | _ => []

def Phase.active : Phase → List ChannelId
  | .handling active => active
  | _ => []

def Phase.isHandling : Phase → Bool
  | .handling _ => true
  | _ => false

def pending (s : TcpServer) : List Functor := s.phase.batch ++ s.unprocessedFunctors

structure Ledger (s : TcpServer) (stage : ℕ → Stage) : Prop where
  trace : ∀ id, Reaches (s.trace id) (stage id)
  born : ∀ id, stage id = .unborn ↔ s.newConnId ≤ id
  bound : s.newConnId < 2 ^ 31
  state : ∀ id, StateAt (stage id) (s.conn id).state
  connName : ∀ id < s.newConnId, (s.conn id).connName = s.serverName ++ connId id
  listed : ∀ (name : String) id, s.connections[name]? = some id ↔
    (stage id).listed = true ∧ (s.conn id).connName = name
  establish : ∀ id, s.pending.count (.establishConnection id) =
    if stage id = .accepted then 1 else 0
  destroy : ∀ id, s.pending.count (.destroyConnection id) = if stage id = .closed then 1 else 0
  deferred : s.phase.isHandling = false → ∀ f ∈ s.unprocessedFunctors, f = .user

variable {s s' t : TcpServer} {stage stage' : ℕ → Stage} {id : ℕ} {batch : List Functor}

theorem trace_snoc {m : Mark} (hlog : t.log = s.log ++ [(id, m)]) (i : ℕ) :
    t.trace i = s.trace i ++ if id = i then [m] else [] := by
  rw [trace, trace, hlog, List.filter_append, List.map_append]
  congr 1
  by_cases hi : id = i
  · simp [hi]
  · simp [hi]

/-- The decimal numbers of connections are different below the 32-bit limit. -/
theorem connId_inj {i j : ℕ} (hi : i < 2 ^ 31) (hj : j < 2 ^ 31) (h : connId i = connId j) :
    i = j := by
  have hint : ∀ n < 2 ^ 31, (BitVec.ofNat 32 n).toInt = n := by
    intro n hn
    have hnat : (BitVec.ofNat 32 n).toNat = n := by
      rw [BitVec.toNat_ofNat]
      omega
    rw [BitVec.toInt_eq_toNat_of_lt (by omega), hnat]
  rw [connId, connId, String.append_right_inj, hint i hi, hint j hj] at h
  have hrepr : Int.repr i = Int.repr j := h
  exact_mod_cast Int.repr_inj.1 hrepr

theorem removeConnection_spec (hpresent : (s.conn id).connName ∈ s.connections) :
    ∃ t, (s.mark id .close).removeConnectionInLoopThread id = some t ∧
      t.connections = s.connections.erase (s.conn id).connName ∧
      t.pending = s.pending ++ [.destroyConnection id] ∧ t.log = s.log ++ [(id, .close)] ∧
      t.newConnId = s.newConnId ∧ t.serverName = s.serverName ∧ t.conn = s.conn ∧
      t.chan = s.chan ∧ t.poller = s.poller ∧ t.phase = s.phase :=
  ⟨_, if_pos hpresent, rfl, (List.append_assoc _ _ _).symm, rfl, rfl, rfl, rfl, rfl, rfl, rfl⟩

namespace Ledger

theorem quiet (h : Ledger s stage) (hq : Quiet s s') : Ledger s' stage := by
  obtain ⟨n, hn⟩ := hq.functors
  have hpending : s'.pending = s.pending ++ List.replicate n .user := by
    rw [pending, pending, hq.phase, hn, List.append_assoc]
  constructor
  · intro id
    rw [TcpServer.trace, hq.log]
    exact h.trace id
  · intro id
    rw [hq.newConnId]
    exact h.born id
  · rw [hq.newConnId]
    exact h.bound
  · exact fun id => (h.state id).step (hq.state id)
  · intro id hid
    rw [hq.newConnId] at hid
    rw [hq.connName, hq.serverName]
    exact h.connName id hid
  · intro name id
    rw [hq.connections, hq.connName]
    exact h.listed name id
  · intro id
    rw [hpending, List.count_append, h.establish, List.count_replicate]
    simp
  · intro id
    rw [hpending, List.count_append, h.destroy, List.count_replicate]
    simp
  · intro hphase f hf
    rw [hq.phase] at hphase
    rw [hn] at hf
    rcases List.mem_append.1 hf with hf | hf
    · exact h.deferred hphase f hf
    · exact (List.mem_replicate.1 hf).2

theorem lt_of_stage (h : Ledger s stage) (hid : stage id ≠ .unborn) : id < s.newConnId := by
  by_contra hcon
  exact hid ((h.born id).2 (by omega))

theorem listed_inj (h : Ledger s stage) {i j : ℕ} (hi : (stage i).listed = true)
    (hj : (stage j).listed = true) (hname : (s.conn i).connName = (s.conn j).connName) : i = j := by
  have hi' := (h.listed _ i).2 ⟨hi, rfl⟩
  rw [hname, (h.listed _ j).2 ⟨hj, rfl⟩] at hi'
  exact (Option.some.inj hi').symm

/-- The parts of the ledger that a mark of a connection changes in the same way. -/
theorem advance (h : Ledger s stage) {m : Mark} {y : Stage} (hnext : next (stage id) m = some y)
    (hborn : stage id ≠ .unborn) (hlog : t.log = s.log ++ [(id, m)])
    (hnew : t.newConnId = s.newConnId) :
    (∀ i, Reaches (t.trace i) (Function.update stage id y i)) ∧
      ∀ i, Function.update stage id y i = .unborn ↔ t.newConnId ≤ i := by
  have hy : y ≠ .unborn := by
    rintro rfl
    cases hs : stage id <;> cases m <;> simp [hs, next] at hnext
  constructor
  · intro i
    rw [trace_snoc hlog]
    by_cases hi : id = i
    · subst hi
      rw [if_pos rfl, Function.update_self]
      exact reaches_snoc.2 ⟨_, h.trace id, hnext⟩
    · rw [if_neg hi, List.append_nil, Function.update_of_ne (Ne.symm hi)]
      exact h.trace i
  · intro i
    rw [hnew, ← h.born]
    by_cases hi : i = id
    · rw [hi, Function.update_self]
      exact iff_of_false hy hborn
    · rw [Function.update_of_ne hi]

theorem accept (h : Ledger s stage) (hphase : s.phase.isHandling = true)
    (hbound : s.newConnId + 1 < 2 ^ 31) (connfd : ℤ) :
    Ledger (s.newConnectionHandler connfd) (Function.update stage s.newConnId .accepted) := by
  have hunborn : stage s.newConnId = .unborn := (h.born _).2 le_rfl
  have hpending : (s.newConnectionHandler connfd).pending =
      s.pending ++ [.establishConnection s.newConnId] := (List.append_assoc _ _ _).symm
  have hlog : (s.newConnectionHandler connfd).log = s.log ++ [(s.newConnId, .accept)] := rfl
  have hnew : (s.newConnectionHandler connfd).newConnId = s.newConnId + 1 := rfl
  have hconn : (s.newConnectionHandler connfd).conn = Function.update s.conn s.newConnId
      (TcpConnection.create (s.serverName ++ connId s.newConnId) connfd) := rfl
  have hconnections : (s.newConnectionHandler connfd).connections =
      s.connections.insert (s.serverName ++ connId s.newConnId) s.newConnId := rfl
  constructor
  · intro i
    rw [trace_snoc hlog]
    by_cases hi : s.newConnId = i
    · subst hi
      rw [if_pos rfl, Function.update_self]
      exact reaches_snoc.2 ⟨_, h.trace _, by rw [hunborn]; rfl⟩
    · rw [if_neg hi, List.append_nil, Function.update_of_ne (Ne.symm hi)]
      exact h.trace i
  · intro i
    rw [hnew]
    by_cases hi : i = s.newConnId
    · rw [hi, Function.update_self]
      exact iff_of_false (by decide) (by omega)
    · rw [Function.update_of_ne hi, h.born]
      omega
  · rw [hnew]
    exact hbound
  · intro i
    rw [hconn]
    by_cases hi : i = s.newConnId
    · rw [hi, Function.update_self, Function.update_self]
      rfl
    · rw [Function.update_of_ne hi, Function.update_of_ne hi]
      exact h.state i
  · intro i hlt
    rw [hconn]
    by_cases hi : i = s.newConnId
    · rw [hi, Function.update_self]
      rfl
    · rw [Function.update_of_ne hi]
      exact h.connName i (by omega)
  · intro name i
    have hfresh : ∀ j, (stage j).listed = true →
        (s.conn j).connName ≠ s.serverName ++ connId s.newConnId := by
      intro j hj hcon
      have hlt : j < s.newConnId := h.lt_of_stage (by rintro heq; rw [heq] at hj; cases hj)
      rw [h.connName j hlt, String.append_right_inj] at hcon
      exact absurd (connId_inj (by omega) h.bound hcon) (by omega)
    rw [hconnections, hconn, Std.ExtTreeMap.getElem?_insert]
    simp only [Std.LawfulEqCmp.compare_eq_iff_eq]
    by_cases hi : i = s.newConnId
    · subst hi
      rw [Function.update_self, Function.update_self]
      have hself : (Stage.listed .accepted = true ∧
          (TcpConnection.create (s.serverName ++ connId s.newConnId) connfd).connName = name) ↔
            s.serverName ++ connId s.newConnId = name :=
        ⟨fun h => h.2, fun h => ⟨rfl, h⟩⟩
      rw [hself]
      split_ifs with hname
      · exact iff_of_true rfl hname
      · refine iff_of_false (fun hcon => ?_) hname
        have := ((h.listed _ _).1 hcon).1
        rw [hunborn] at this
        cases this
    · rw [Function.update_of_ne hi, Function.update_of_ne hi]
      split_ifs with hname
      · refine iff_of_false (fun hcon => hi (Option.some.inj hcon).symm) ?_
        rintro ⟨hlisted, hcon⟩
        exact hfresh i hlisted (hcon.trans hname.symm)
      · exact h.listed name i
  · intro i
    rw [hpending, List.count_append, h.establish]
    by_cases hi : i = s.newConnId
    · simp [hi, hunborn]
    · simp [hi, Ne.symm hi]
  · intro i
    rw [hpending, List.count_append, h.destroy]
    by_cases hi : i = s.newConnId
    · simp [hi, hunborn]
    · simp [hi]
  · intro hcon
    change s.phase.isHandling = false at hcon
    rw [hphase] at hcon
    cases hcon

/-- `removeConnectionInLoopThread` finds the connection and puts off its destruction. -/
theorem close (h : Ledger s stage) (hphase : s.phase.isHandling = true)
    (hid : stage id = .established) :
    ∃ t, (s.mark id .close).removeConnectionInLoopThread id = some t ∧
      Ledger t (Function.update stage id .closed) ∧ t.phase = s.phase ∧ t.poller = s.poller ∧
      t.chan = s.chan := by
  have hlisted : (stage id).listed = true := by
    rw [hid]
    rfl
  have hpresent : (s.conn id).connName ∈ s.connections := by
    have hget := (h.listed _ id).2 ⟨hlisted, rfl⟩
    rw [Std.ExtTreeMap.mem_iff_isSome_getElem?, hget]
    rfl
  obtain ⟨t, ht, hconnections, hpending, hlog, hnew, hserver, hconn, hchan, hpoller, hphase'⟩ :=
    removeConnection_spec hpresent
  refine ⟨t, ht, ?_, hphase', hpoller, hchan⟩
  obtain ⟨htrace, hborn⟩ := h.advance (y := .closed) (by rw [hid]; rfl) (by rw [hid]; decide)
    hlog hnew
  refine ⟨htrace, hborn, by rw [hnew]; exact h.bound, ?_, ?_, ?_, ?_, ?_, ?_⟩
  · intro i
    rw [hconn]
    by_cases hi : i = id
    · rw [hi, Function.update_self]
      have hstate := h.state id
      rwa [hid] at hstate
    · rw [Function.update_of_ne hi]
      exact h.state i
  · intro i hlt
    rw [hconn, hserver]
    exact h.connName i (hnew ▸ hlt)
  · intro name i
    rw [hconnections, hconn, Std.ExtTreeMap.getElem?_erase]
    simp only [Std.LawfulEqCmp.compare_eq_iff_eq]
    by_cases hi : i = id
    · subst hi
      rw [Function.update_self]
      refine iff_of_false ?_ (fun hcon => by cases hcon.1)
      split_ifs with hname
      · exact fun hcon => (nomatch hcon)
      · intro hcon
        exact hname ((h.listed _ _).1 hcon).2
    · rw [Function.update_of_ne hi]
      split_ifs with hname
      · refine iff_of_false (fun hcon => (nomatch hcon)) ?_
        rintro ⟨hl, hcon⟩
        exact hi (h.listed_inj hl hlisted (hcon.trans hname.symm))
      · exact h.listed name i
  · intro i
    rw [hpending, List.count_append, h.establish]
    by_cases hi : i = id
    · simp [hi, hid]
    · simp [hi]
  · intro i
    rw [hpending, List.count_append, h.destroy]
    by_cases hi : i = id
    · simp [hi, hid]
    · simp [hi, Ne.symm hi]
  · intro hcon
    rw [hphase', hphase] at hcon
    cases hcon

theorem pending_pop {f : Functor} (hphase : s.phase = .functors (f :: batch)) :
    s.pending = f :: TcpServer.pending { s with phase := .functors batch } := by
  rw [pending, hphase]
  rfl

/-- The functor that runs is the one that the stage of its connection lets wait. -/
theorem establish_next (h : Ledger s stage)
    (hphase : s.phase = .functors (.establishConnection id :: batch)) : stage id = .accepted := by
  have hcount := h.establish id
  rw [pending_pop hphase, List.count_cons_self] at hcount
  split_ifs at hcount with hid
  exact hid

theorem destroy_next (h : Ledger s stage)
    (hphase : s.phase = .functors (.destroyConnection id :: batch)) : stage id = .closed := by
  have hcount := h.destroy id
  rw [pending_pop hphase, List.count_cons_self] at hcount
  split_ifs at hcount with hid
  exact hid

variable {c : TcpConnection}

/-- A functor `f` of the batch takes its connection to the next stage. -/
theorem ran (h : Ledger s stage) {f : Functor} {m : Mark} {y : Stage}
    (hphase : s.phase = .functors (f :: batch)) (hnext : next (stage id) m = some y)
    (hborn : stage id ≠ .unborn) (hlisted : y.listed = (stage id).listed)
    (hestablish : ∀ i, (if Function.update stage id y i = .accepted then 1 else 0) +
      [f].count (.establishConnection i) = if stage i = .accepted then 1 else 0)
    (hdestroy : ∀ i, (if Function.update stage id y i = .closed then 1 else 0) +
      [f].count (.destroyConnection i) = if stage i = .closed then 1 else 0)
    (hname : c.connName = (s.conn id).connName) (hstate : StateAt y c.state) :
    Ledger ((TcpServer.mark { s with phase := .functors batch } id m).setConn id c)
      (Function.update stage id y) := by
  generalize ht : (TcpServer.mark { s with phase := .functors batch } id m).setConn id c = t
  have hpending : s.pending = [f] ++ t.pending := by
    rw [pending, hphase, ← ht]
    rfl
  have hconn : t.conn = Function.update s.conn id c := by
    rw [← ht]
    rfl
  have hconnName : ∀ i, (t.conn i).connName = (s.conn i).connName := by
    intro i
    rw [hconn]
    by_cases hi : i = id
    · rw [hi, Function.update_self, hname]
    · rw [Function.update_of_ne hi]
  obtain ⟨htrace, hborn'⟩ := h.advance (t := t) hnext hborn (by rw [← ht]; rfl) (by rw [← ht]; rfl)
  refine ⟨htrace, hborn', by rw [← ht]; exact h.bound, ?_, ?_, ?_, ?_, ?_, ?_⟩
  · intro i
    rw [hconn]
    by_cases hi : i = id
    · rw [hi, Function.update_self, Function.update_self]
      exact hstate
    · rw [Function.update_of_ne hi, Function.update_of_ne hi]
      exact h.state i
  · intro i hlt
    rw [← ht] at hlt
    rw [hconnName, h.connName i hlt, ← ht]
    rfl
  · intro name i
    have hconnections : t.connections = s.connections := by
      rw [← ht]
      rfl
    rw [hconnections, h.listed, hconnName]
    by_cases hi : i = id
    · rw [hi, Function.update_self, hlisted]
    · rw [Function.update_of_ne hi]
  · intro i
    have hcount := h.establish i
    rw [hpending, List.count_append, ← hestablish i] at hcount
    omega
  · intro i
    have hcount := h.destroy i
    rw [hpending, List.count_append, ← hdestroy i] at hcount
    omega
  · intro _ f hf
    rw [← ht] at hf
    exact h.deferred (by rw [hphase]; rfl) f hf

theorem established (h : Ledger s stage)
    (hphase : s.phase = .functors (.establishConnection id :: batch))
    (hname : c.connName = (s.conn id).connName) (hstate : c.state = .CONNECTED) :
    Ledger ((TcpServer.mark { s with phase := .functors batch } id .establish).setConn id c)
      (Function.update stage id .established) := by
  have hid := h.establish_next hphase
  refine h.ran hphase (by rw [hid]; rfl) (by rw [hid]; decide) (by rw [hid]; rfl) ?_ ?_ hname
    (Or.inl hstate)
  · intro i
    by_cases hi : i = id
    · simp [hi, hid]
    · simp [hi, Ne.symm hi]
  · intro i
    by_cases hi : i = id
    · simp [hi, hid]
    · simp [hi]

theorem destroyed (h : Ledger s stage)
    (hphase : s.phase = .functors (.destroyConnection id :: batch))
    (hname : c.connName = (s.conn id).connName) (hstate : c.state = .DISCONNECTED) :
    Ledger ((TcpServer.mark { s with phase := .functors batch } id .destroy).setConn id c)
      (Function.update stage id .destroyed) := by
  have hid := h.destroy_next hphase
  refine h.ran hphase (by rw [hid]; rfl) (by rw [hid]; decide) (by rw [hid]; rfl) ?_ ?_ hname hstate
  · intro i
    by_cases hi : i = id
    · simp [hi, hid]
    · simp [hi]
  · intro i
    by_cases hi : i = id
    · simp [hi, hid]
    · simp [hi, Ne.symm hi]

theorem marked (h : Ledger s stage) (id : ℕ) {m : Mark} {y : Stage} (hnext : next (stage id) m = some y)
    (hborn : stage id ≠ .unborn) (hlisted : y.listed = (stage id).listed)
    (hwaiting : y ≠ .accepted ∧ stage id ≠ .accepted ∧ y ≠ .closed ∧ stage id ≠ .closed)
    (hstate : StateAt y (s.conn id).state) :
    Ledger (s.mark id m) (Function.update stage id y) := by
  obtain ⟨htrace, hborn'⟩ := h.advance (t := s.mark id m) hnext hborn rfl rfl
  refine ⟨htrace, hborn', h.bound, ?_, h.connName, ?_, ?_, ?_, h.deferred⟩
  · intro i
    by_cases hi : i = id
    · rw [hi, Function.update_self]
      exact hstate
    · rw [Function.update_of_ne hi]
      exact h.state i
  · intro name i
    by_cases hi : i = id
    · rw [hi, Function.update_self, hlisted]
      exact h.listed name id
    · rw [Function.update_of_ne hi]
      exact h.listed name i
  · intro i
    by_cases hi : i = id
    · have hcount := h.establish id
      rw [if_neg hwaiting.2.1] at hcount
      rw [hi, Function.update_self, if_neg hwaiting.1]
      exact hcount
    · rw [Function.update_of_ne hi]
      exact h.establish i
  · intro i
    by_cases hi : i = id
    · have hcount := h.destroy id
      rw [if_neg hwaiting.2.2.2] at hcount
      rw [hi, Function.update_self, if_neg hwaiting.2.2.1]
      exact hcount
    · rw [Function.update_of_ne hi]
      exact h.destroy i

theorem rephase (h : Ledger s stage) {phase : Phase} {queue : List Functor}
    (hcount : ∀ f ≠ .user, (phase.batch ++ queue).count f = s.pending.count f)
    (hdeferred : phase.isHandling = false → ∀ f ∈ queue, f = .user) :
    Ledger { s with phase := phase, unprocessedFunctors := queue } stage :=
  ⟨h.trace, h.born, h.bound, h.state, h.connName, h.listed,
    fun id => (hcount _ (by simp)).trans (h.establish id),
    fun id => (hcount _ (by simp)).trans (h.destroy id), hdeferred⟩

end Ledger
end TcpServer
end HydrogenWeb
