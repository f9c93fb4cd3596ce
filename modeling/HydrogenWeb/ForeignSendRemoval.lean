import HydrogenWeb.ForeignSend

set_option autoImplicit false

/-!
# What touches a removed channel

After the removal the index in the channel is stale, so a run is watched for calls of
`updateChannel`. A functor that was pushed behind `destroyConnection` can still make one.
-/
namespace HydrogenWeb.ForeignSend
open TransitionRuns TcpConnection

variable {τ ι : Type*}

/-- No method that runs after the removal updates the channel or changes the poller. -/
def Untouched (s : ForeignSend τ ι) (a : Action τ ι) (o : Option (ForeignSend τ ι)) : Prop :=
  s.removed = true → ∀ r ∈ s.runs a, .update ∉ r.2 ∧ ∀ u ∈ o, u.poller = s.poller

/-- A send that leaves nothing behind, or a functor without the connection. -/
def Harmless (c : TcpConnection) (w : WriteResult) : Functor → Prop
  | .sendInLoopThread msg => msg = [] ∨ (c.outputBuffer = [] ∧ w.value msg = msg.length)
  | .destroyConnection => False
  | .other => True

def RunsHarmless (s : ForeignSend τ ι) : Action τ ι → Prop
  | .runFunctor w => s.removed = true → s.loop.ready .running = true →
      ∀ f ∈ s.loop.functors.head?, Harmless s.conn w f
  | _ => True

/-- Without write interest a send asks for it, unless it leaves nothing behind. -/
theorem sendInLoopThread_update {c : TcpConnection} {msg : List UInt8} {w : WriteResult}
    (hidle : c.channel.isWriting = false) (h : .update ∉ (c.sendInLoopThread msg w).2) :
    Harmless c w (.sendInLoopThread msg) := by
  by_cases hempty : c.outputBuffer.length = 0
  · have hle := w.value_le msg
    simp only [sendInLoopThread, hidle, hempty, appendRest] at h
    by_cases hmsg : msg.length = 0
    · exact Or.inl (List.length_eq_zero_iff.1 hmsg)
    · refine Or.inr ⟨List.length_eq_zero_iff.1 hempty, ?_⟩
      by_contra hne
      apply h
      by_cases hn : w.value msg ≥ 0
      · have hlt : (w.value msg).toNat < msg.length := by omega
        simp [hn, hlt]
      · have hlt : 0 < msg.length := by omega
        simp [hn, hlt]
  · left
    by_contra hne
    apply h
    have hlt : 0 < msg.length := List.length_pos_iff.2 hne
    simp [sendInLoopThread, hempty, appendRest, hlt, hidle]

theorem call_harmless {c : TcpConnection} {w : WriteResult} {f : Functor} (h : Harmless c w f)
    (hidle : c.channel.isWriting = false) :
    ∃ effects, call c w f = (c, effects) ∧ ∀ e ∈ effects, ∃ offered n, e = .write offered n := by
  cases f with
  | other => exact ⟨[], rfl, by simp⟩
  | destroyConnection => exact absurd h id
  | sendInLoopThread msg =>
    change ∃ effects, c.sendInLoopThread msg w = _ ∧ _
    have hle := w.value_le msg
    by_cases hempty : c.outputBuffer.length = 0
    · refine ⟨[.write msg (w.value msg)], ?_, by simp⟩
      have hrest : ∀ n left, (msg = [] ∨ n = msg.length) → c.appendRest msg n left = (c, []) := by
        intro n left hn
        apply if_neg
        rcases hn with rfl | rfl <;> simp
      rcases h with rfl | ⟨-, hall⟩
      · simp [sendInLoopThread, hidle, hempty, hrest]
      · simp [sendInLoopThread, hidle, hempty, hall, hrest]
    · rcases h with rfl | ⟨hnil, -⟩
      · exact ⟨[], by simp [sendInLoopThread, hempty, appendRest], by simp⟩
      · simp [hnil] at hempty

structure Gone (s : ForeignSend τ ι) : Prop where
  unheard : s.callbacks = []
  closed : s.conn.state = .DISCONNECTED
  idle : s.conn.channel.isWriting = false
  unknown : s.poller.channels[s.conn.channel.fd]? ≠ some none

theorem Gone.of_conn {s t : ForeignSend τ ι} (h : Gone s) (hcallbacks : t.callbacks = s.callbacks)
    (hconn : t.conn = s.conn) (hpoller : t.poller = s.poller) : Gone t where
  unheard := hcallbacks.trans h.unheard
  closed := hconn ▸ h.closed
  idle := hconn ▸ h.idle
  unknown := by
    rw [hconn, hpoller]
    exact h.unknown

structure RemovalInvariant (s : ForeignSend τ ι) : Prop where
  handled : s.loop.phase ≠ .handling → s.callbacks = []
  gone : s.removed = true → Gone s

theorem start_removalInvariant (connName : String) (sockfd : ℤ) (poller : Poller (Option ι))
    (others : ι → Channel) :
    RemovalInvariant (start connName sockfd poller others : ForeignSend τ ι) where
  handled := fun _ => rfl
  gone := fun h => nomatch h

/-- A closed connection has nothing to run but the functors. -/
theorem Gone.runs_eq {s : ForeignSend τ ι} (h : Gone s) {a : Action τ ι}
    {r : TcpConnection × List Effect} (hr : s.runs a = some r) :
    r = (s.conn, []) ∨ ∃ w f, a = .runFunctor w ∧ s.loop.ready .running = true ∧
      s.loop.functors.head? = some f ∧ r = call s.conn w f := by
  cases runs_cases hr with
  | callback _ hhead =>
    rw [h.unheard] at hhead
    cases hhead
  | @runFunctor w f hready hf => exact Or.inr ⟨w, f, rfl, hready, hf, rfl⟩
  | send => exact Or.inl (by simp [send, h.closed])
  | shutdown => exact Or.inl (by simp [shutdown, h.closed])

theorem appendRest_keeps (c : TcpConnection) (data : List UInt8) (n left : ℕ) :
    .removeChannel ∉ (c.appendRest data n left).2 := by
  unfold appendRest
  split
  · simp only
    split <;> simp
  · simp

theorem sendInLoopThread_keeps (c : TcpConnection) (data : List UInt8) (w : WriteResult) :
    .removeChannel ∉ (c.sendInLoopThread data w).2 := by
  unfold sendInLoopThread
  split
  · simp only
    split <;> simp [appendRest_keeps]
  · exact appendRest_keeps _ _ _ _

theorem writeHandler_keeps (c : TcpConnection) (w : WriteResult) :
    .removeChannel ∉ (c.writeHandler w).2 := by
  unfold writeHandler shutdownInLoopThread
  split
  · simp only
    split_ifs <;> simp
  · simp

theorem runCallback_keeps (c : TcpConnection) (r : ReadvResult) (w : WriteResult)
    (callback : Callback) : .removeChannel ∉ (runCallback c r w callback).2 := by
  cases callback with
  | close => simp [runCallback, Release.closeHandler]
  | error => simp [runCallback, errorHandler]
  | read =>
    simp only [runCallback, Release.connectionHandler]
    split_ifs <;> simp [Release.closeHandler, errorHandler]
  | write => exact writeHandler_keeps c w

theorem runs_removes {s : ForeignSend τ ι} {a : Action τ ι} {r : TcpConnection × List Effect}
    (hr : s.runs a = some r) : .removeChannel ∉ r.2 ∨
      (s.loop.ready .running = true ∧ r = Release.destroyConnection s.conn) := by
  cases runs_cases hr with
  | callback => exact Or.inl (runCallback_keeps _ _ _ _)
  | @runFunctor _ f hready =>
    cases f with
    | sendInLoopThread msg => exact Or.inl (sendInLoopThread_keeps _ _ _)
    | destroyConnection => exact Or.inr ⟨hready, rfl⟩
    | other => exact Or.inl List.not_mem_nil
  | send =>
    left
    simp only [send]
    split_ifs
    · exact sendInLoopThread_keeps _ _ _
    · exact List.not_mem_nil
  | shutdown =>
    left
    simp only [shutdown, shutdownInLoopThread]
    split_ifs <;> simp

theorem Gone.does_eq {s : ForeignSend τ ι} (h : Gone s) {a : Action τ ι}
    (ha : RunsHarmless s a) (hremoved : s.removed = true) {r : TcpConnection × List Effect}
    (hr : s.runs a = some r) : r.1 = s.conn ∧ .update ∉ r.2 ∧ ∀ e ∈ r.2, Inert e := by
  rcases h.runs_eq hr with rfl | ⟨w, f, rfl, hready, hf, rfl⟩
  · exact ⟨rfl, List.not_mem_nil, fun e he => absurd he List.not_mem_nil⟩
  · obtain ⟨effects, heq, hwrites⟩ := call_harmless (ha hremoved hready f hf) h.idle
    rw [heq]
    refine ⟨rfl, fun hmem => ?_, fun e he => ?_⟩
    · obtain ⟨offered, n, hupdate⟩ := hwrites _ hmem
      cases hupdate
    · obtain ⟨offered, n, rfl⟩ := hwrites e he
      exact trivial

variable [DecidableEq τ]

theorem enter_frame (s : ForeignSend τ ι) (a : Action τ ι) :
    (s.enter a).poller = s.poller ∧ (s.enter a).removed = s.removed ∧
      (s.enter a).loop.phase = s.loop.phase ∧
      (s.callbacks = [] → (s.enter a).callbacks = []) := by
  cases a with
  | callback => exact ⟨rfl, rfl, rfl, fun h => by simp [enter, h]⟩
  | send msg w =>
    simp only [enter]
    split <;> exact ⟨rfl, rfl, rfl, id⟩
  | _ => exact ⟨rfl, rfl, rfl, id⟩

/-- A step of the loop alone leaves the handlers only when they are all run. -/
theorem loop_handled {s : ForeignSend τ ι} (h : RemovalInvariant s)
    {a : EventLoop.Action τ Functor} (hplain : s.plain a = true)
    (henabled : s.loop.enabled a = true) (hne : (s.loop.effect a).phase ≠ .handling) :
    s.callbacks = [] := by
  by_cases hphase : s.loop.phase = .handling
  · cases a with
    | beginFunctors => exact List.isEmpty_iff.1 hplain
    | readFd => exact absurd hphase hne
    | push c f => exact absurd hphase hne
    | quit c => exact absurd hphase hne
    | waken c =>
      obtain ⟨n, -, heq⟩ := s.loop.waken_spec
      simp only [EventLoop.effect] at hne
      split at hne
      · rw [heq] at hne
        exact absurd hphase hne
      · exact absurd hphase hne
    | pollReturn => cases hplain
    | runFunctor => cases hplain
    | _ => simp [EventLoop.enabled, EventLoop.ready, hphase] at henabled
  · exact h.handled hphase

variable [DecidableEq ι]

theorem step_of_runs {s : ForeignSend τ ι} {a : Action τ ι} {r : TcpConnection × List Effect}
    (hr : s.runs a = some r) : step s a = (s.enter a).does r := by
  cases a with
  | callback | runFunctor | send | shutdown => simp only [step, hr, Option.bind_some]
  | _ => cases hr

theorem untouched_iff {s : ForeignSend τ ι} (h : RemovalInvariant s) (a : Action τ ι) :
    Untouched s a (step s a) ↔ RunsHarmless s a := by
  constructor
  · intro hun
    cases a with
    | runFunctor w =>
      intro hremoved hready f hf
      have hr : s.runs (.runFunctor w) = some (call s.conn w f) := by
        rw [runs, if_pos hready, hf, Option.map_some]
      have hupdate := (hun hremoved _ hr).1
      cases f with
      | sendInLoopThread msg => exact sendInLoopThread_update (h.gone hremoved).idle hupdate
      | destroyConnection => exact hupdate List.mem_cons_self
      | other => exact trivial
    | _ => exact trivial
  · intro ha hremoved r hr
    obtain ⟨-, hupdate, hinert⟩ := (h.gone hremoved).does_eq ha hremoved hr
    refine ⟨hupdate, fun u hu => ?_⟩
    rw [step_of_runs hr, does_inert hinert] at hu
    cases hu
    exact (enter_frame s a).1

theorem perform_update {s u : ForeignSend τ ι} (h : s.perform .update = some u) :
    u.conn.state = s.conn.state ∧ u.conn.channel.isWriting = s.conn.channel.isWriting := by
  obtain ⟨⟨poller, channel⟩, hupdate, rfl⟩ := Option.map_eq_some_iff.1 h
  obtain ⟨⟨idx, rfl⟩, -⟩ := Poller.updateChannel_spec hupdate
  exact ⟨rfl, rfl⟩

theorem perform_removeChannel {s u : ForeignSend τ ι} (h : s.perform .removeChannel = some u)
    (hnone : s.callbacks = []) (hclosed : s.conn.state = .DISCONNECTED)
    (hidle : s.conn.channel.isWriting = false) : Gone u := by
  obtain ⟨⟨poller, moved⟩, hremove, rfl⟩ := Option.map_eq_some_iff.1 h
  have hchannels := Poller.removeChannel_channels hremove
  obtain ⟨others, index, hstore⟩ := storeIndex_spec s moved
  simp only [hstore]
  refine ⟨hnone, hclosed, hidle, ?_⟩
  simp [hchannels, Channel.set_index]

/-- The functor that removes the channel has closed the connection before. -/
theorem destroy_gone {s u : ForeignSend τ ι} (hnone : s.callbacks = [])
    {c : TcpConnection} (h : s.does (Release.destroyConnection c) = some u) : Gone u := by
  obtain ⟨t, ht, htail⟩ := Option.bind_eq_some_iff.1 h
  obtain ⟨-, hcallbacks, -, -⟩ := perform_frame ht
  obtain ⟨hstate, hidle⟩ := perform_update ht
  obtain ⟨v, hv, hlast⟩ := Option.bind_eq_some_iff.1 htail
  cases hv
  obtain ⟨w, hw, hend⟩ := Option.bind_eq_some_iff.1 hlast
  cases hend
  apply perform_removeChannel hw (hcallbacks.trans hnone) hstate
  rw [hidle]
  exact Channel.disableAll_isWriting c.channel

theorem runs_keep {s u : ForeignSend τ ι} (h : RemovalInvariant s) {a : Action τ ι}
    (ha : RunsHarmless s a) {r : TcpConnection × List Effect} (hr : s.runs a = some r)
    (hu : (s.enter a).does r = some u) : RemovalInvariant u := by
  obtain ⟨hpoller, hremoved, hphase, hnone⟩ := enter_frame s a
  obtain ⟨-, hcallbacks, hphase', hkeep⟩ := does_frame hu
  have hhandled : u.loop.phase ≠ .handling → u.callbacks = [] := by
    intro hne
    rw [hphase', hphase] at hne
    rw [hcallbacks]
    exact hnone (h.handled hne)
  refine ⟨hhandled, fun hgone => ?_⟩
  by_cases hold : s.removed = true
  · have hs := h.gone hold
    obtain ⟨hconn, -, hinert⟩ := hs.does_eq ha hold hr
    rw [does_inert hinert] at hu
    cases hu
    exact hs.of_conn ((hnone hs.unheard).trans hs.unheard.symm) hconn hpoller
  · rcases runs_removes hr with hnot | ⟨hready, rfl⟩
    · exact absurd (hremoved.symm.trans ((hkeep hnot).symm.trans hgone)) hold
    · have hbatch : s.callbacks = [] := by
        apply h.handled
        rw [(EventLoop.ready_iff.1 hready).1]
        decide
      exact destroy_gone (hnone hbatch) hu

theorem step_keep {s u : ForeignSend τ ι} (h : RemovalInvariant s) {a : Action τ ι}
    (ha : RunsHarmless s a) (hu : step s a = some u) : RemovalInvariant u := by
  cases a with
  | callback | runFunctor | send | shutdown =>
    obtain ⟨r, hr, hdoes⟩ := Option.bind_eq_some_iff.1 hu
    exact runs_keep h ha hr hdoes
  | loop a =>
    simp only [step] at hu
    split at hu
    · rename_i hplain
      obtain ⟨l, hl, rfl⟩ := Option.map_eq_some_iff.1 hu
      obtain ⟨henabled, rfl⟩ := EventLoop.step_eq_some hl
      exact ⟨loop_handled h hplain henabled, fun hgone => (h.gone hgone).of_conn rfl rfl rfl⟩
    · cases hu
  | pollReturn revents =>
    obtain ⟨l, hl, rfl⟩ := Option.map_eq_some_iff.1 hu
    obtain ⟨-, rfl⟩ := EventLoop.step_eq_some hl
    by_cases hpolled : s.polled = true
    · simp only [hpolled, if_true]
      refine ⟨fun hne => absurd rfl hne, fun hgone => ?_⟩
      simp [polled, (h.gone hgone).unknown] at hpolled
    · simp only [hpolled]
      exact ⟨fun hne => absurd rfl hne, fun hgone => (h.gone hgone).of_conn rfl rfl rfl⟩
  | check t msg =>
    simp only [step] at hu
    split_ifs at hu
    · cases hu
      exact ⟨h.handled, fun hgone => (h.gone hgone).of_conn rfl rfl rfl⟩
    · cases hu
      exact h
  | push t msg =>
    simp only [step] at hu
    split at hu
    · obtain ⟨l, hl, rfl⟩ := Option.map_eq_some_iff.1 hu
      obtain ⟨-, rfl⟩ := EventLoop.step_eq_some hl
      exact ⟨h.handled, fun hgone => (h.gone hgone).of_conn rfl rfl rfl⟩
    · cases hu
  | updateOther i events =>
    simp only [step] at hu
    split at hu
    · obtain ⟨⟨poller, channel⟩, hupdate, rfl⟩ := Option.map_eq_some_iff.1 hu
      refine ⟨h.handled, fun hgone => ?_⟩
      obtain ⟨hnone, hclosed, hidle, hunknown⟩ := h.gone hgone
      refine ⟨hnone, hclosed, hidle, ?_⟩
      rcases (Poller.updateChannel_spec hupdate).2 with heq | heq
      · rw [heq]
        exact hunknown
      · rw [heq, Std.ExtTreeMap.getElem?_insert]
        split
        · simp
        · exact hunknown
    · cases hu
  | removeOther i =>
    simp only [step] at hu
    split at hu
    · obtain ⟨⟨poller, moved⟩, hremove, rfl⟩ := Option.map_eq_some_iff.1 hu
      obtain ⟨others, index, hstore⟩ := storeIndex_spec s moved
      simp only [hstore]
      refine ⟨h.handled, fun hgone => ?_⟩
      obtain ⟨hnone, hclosed, hidle, hunknown⟩ := h.gone hgone
      refine ⟨hnone, hclosed, hidle, ?_⟩
      rw [Poller.removeChannel_channels hremove, Std.ExtTreeMap.getElem?_erase]
      split
      · simp
      · exact hunknown
    · cases hu

/-- Along every run no method touches the channel or the poller after the removal, exactly if
each functor that runs then is a send that leaves nothing behind, or not one of the
connection. -/
theorem untouched_iff_runsHarmless (connName : String) (sockfd : ℤ) (poller : Poller (Option ι))
    (others : ι → Channel) (as : List (Action τ ι)) :
    Along step Untouched (start connName sockfd poller others) as ↔
      Along step (fun s a _ => RunsHarmless s a) (start connName sockfd poller others) as :=
  along_iff RemovalInvariant (fun _ a h _ => untouched_iff h a)
    (fun _ _ _ h _ ha hu => step_keep h ha hu) as
    (start_removalInvariant connName sockfd poller others) (along_true _ _ _)

/-- A thread sends one byte. Its functor comes behind the one that removes the channel, and
the entry at the stale index is by then the one of the other channel. -/
def sendBehindDestroy : List (Action Unit Unit) :=
  [.loop .enter, .loop .check, .pollReturn POLLIN, .updateOther () Channel.READEVENT,
    .check () [1], .callback (.delivered []) .error, .loop (.waken .loop), .push () [1],
    .loop (.waken (.foreign ())), .loop .beginFunctors, .loop .swap, .runFunctor .error]

def afterDestroy : ForeignSend Unit Unit :=
  (run step (start "" 5 .fresh fun _ => .create 7) sendBehindDestroy).get (by decide)

/-- The write fails, and the rest of the message asks for write interest. -/
theorem send_behind_destroy_not_untouched :
    ¬ Along step Untouched (start "" 5 .fresh fun _ => .create 7)
      (sendBehindDestroy ++ [.runFunctor .error]) := by
  intro h
  have hrun : run step (start "" 5 .fresh fun _ => .create 7) sendBehindDestroy =
      some afterDestroy := (Option.some_get _).symm
  have huntouched := h.at_step hrun (by decide) (call afterDestroy.conn .error
    (.sendInLoopThread [1])) (by decide)
  exact absurd huntouched.1 (by decide)

end HydrogenWeb.ForeignSend
