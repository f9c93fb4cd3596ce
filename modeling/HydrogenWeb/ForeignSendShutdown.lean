import HydrogenWeb.ForeignSend

set_option autoImplicit false

/-!
# Shutting the write side while other threads send

Where every `::write` takes its whole offer nothing is ever buffered, so a message is
either written or outstanding: its thread is before the push, or its functor is queued.
-/
namespace HydrogenWeb.ForeignSend
open TransitionRuns TraceMarks TcpConnection

variable {τ ι : Type*}

def messageOf : Event → Option (List UInt8)
  | .sent msg => some msg
  | _ => none

def Functor.message? : Functor → Option (List UInt8)
  | .sendInLoopThread msg => some msg
  | _ => none

def sentMessages (history : List Event) : List (List UInt8) := history.filterMap messageOf

/-- The bytes that `::write` took are those of all messages, one message after the other. -/
def Complete (history : List Event) : Prop :=
  ∃ msgs : List (List UInt8), msgs.Perm (sentMessages history) ∧
    acceptedBytes history = msgs.flatten

/-- The write side is shut after the last byte of every message. -/
def ShutLast (history : List Event) : Prop :=
  AtMark (.did .shutdownWrite) Complete (fun after => ∀ msg, .sent msg ∉ after) history

/-- The `::write` took what it was given, and the event does not close the connection. -/
def Taken : Event → Prop
  | .did (.write offered n) => n = offered.length
  | .did .closeCallback => False
  | _ => True

instance : DecidablePred Taken := by
  intro e
  cases e with
  | did e => cases e <;> unfold Taken <;> infer_instance
  | _ => exact isTrue trivial

def AllTaken (history : List Event) : Prop := ∀ e ∈ history, Taken e

instance (history : List Event) : Decidable (AllTaken history) :=
  inferInstanceAs (Decidable (∀ e ∈ history, Taken e))

def queue (l : EventLoop τ Functor) : List Functor := l.functors ++ l.unprocessedFunctors

def outstanding (s : ForeignSend τ ι) : List (List UInt8) :=
  s.checked.map Prod.snd ++ (queue s.loop).filterMap Functor.message?

/-- A call of `shutdown` in the loop's thread that takes effect leaves no bytes behind. -/
def ShutsDrained (s : ForeignSend τ ι) : Action τ ι → Prop
  | .shutdown => s.inCallback = true → s.conn.state = .CONNECTED → ∀ msg ∈ s.outstanding, msg = []
  | _ => True

def Delivered (rest : List (List UInt8)) (history : List Event) : Prop :=
  ∃ ran : List (List UInt8), (ran ++ rest).Perm (sentMessages history) ∧
    acceptedBytes history = ran.flatten

theorem sentMessages_append (h k : List Event) :
    sentMessages (h ++ k) = sentMessages h ++ sentMessages k := List.filterMap_append

theorem Delivered.quiet {rest rest' : List (List UInt8)} {history es : List Event}
    (h : Delivered rest history) (hrest : rest'.Perm rest) (hsent : sentMessages es = [])
    (haccepted : acceptedBytes es = []) : Delivered rest' (history ++ es) := by
  obtain ⟨ran, hperm, hbytes⟩ := h
  refine ⟨ran, ?_, ?_⟩
  · rw [sentMessages_append, hsent, List.append_nil]
    exact (hrest.append_left ran).trans hperm
  · rw [acceptedBytes_append, haccepted, List.append_nil, hbytes]

theorem Delivered.sent {rest rest' : List (List UInt8)} {history : List Event}
    (h : Delivered rest history) {msg : List UInt8} (hrest : rest'.Perm (msg :: rest)) :
    Delivered rest' (history ++ [.sent msg]) := by
  obtain ⟨ran, hperm, hbytes⟩ := h
  refine ⟨ran, ?_, ?_⟩
  · rw [sentMessages_append]
    calc (ran ++ rest').Perm (ran ++ msg :: rest) := hrest.append_left ran
      List.Perm _ (msg :: (ran ++ rest)) := List.perm_middle
      List.Perm _ (msg :: sentMessages history) := hperm.cons msg
      List.Perm _ (sentMessages history ++ [msg]) := (List.perm_append_singleton _ _).symm
  · rw [acceptedBytes_append, hbytes]
    simp [acceptedBytes, Event.accepted]

theorem Delivered.wrote {rest rest' : List (List UInt8)} {history : List Event}
    (h : Delivered rest history) {msg : List UInt8} (hrest : rest.Perm (msg :: rest')) :
    Delivered rest' (history ++ [.did (.write msg msg.length)]) := by
  obtain ⟨ran, hperm, hbytes⟩ := h
  refine ⟨ran ++ [msg], ?_, ?_⟩
  · rw [sentMessages_append, List.append_assoc]
    change (ran ++ msg :: rest').Perm (sentMessages history ++ [])
    rw [List.append_nil]
    exact (hrest.symm.append_left ran).trans hperm
  · rw [acceptedBytes_append, hbytes, List.flatten_append]
    simp [acceptedBytes, Event.accepted, Effect.accepted]

theorem Delivered.complete_iff {rest : List (List UInt8)} {history : List Event}
    (h : Delivered rest history) : Complete history ↔ ∀ msg ∈ rest, msg = [] := by
  obtain ⟨ran, hperm, hbytes⟩ := h
  constructor
  · rintro ⟨msgs, hmsgs, hall⟩
    have hlength : (ran ++ rest).flatten.length = msgs.flatten.length :=
      (hperm.trans hmsgs.symm).flatten.length_eq
    rw [← hall, hbytes, List.flatten_append, List.length_append] at hlength
    have hnil : rest.flatten = [] := List.length_eq_zero_iff.1 (by omega)
    exact List.flatten_eq_nil_iff.1 hnil
  · intro hrest
    refine ⟨ran ++ rest, hperm, ?_⟩
    rw [List.flatten_append, List.flatten_eq_nil_iff.2 hrest, List.append_nil, hbytes]

structure Flow (s : ForeignSend τ ι) : Prop where
  loop : s.loop.Invariant
  unwritten : s.conn.outputBuffer = []
  idle : s.conn.channel.isWriting = false
  kept : .destroyConnection ∉ queue s.loop
  unshut : s.conn.state = .CONNECTED → .did .shutdownWrite ∉ s.history
  delivered : Delivered s.outstanding s.history

structure Extends (s u : ForeignSend τ ι) (es : List Event) : Prop where
  history : u.history = s.history ++ es
  unmarked : .did .shutdownWrite ∉ es
  accepted : ∀ msg, .sent msg ∈ es → s.conn.state = .CONNECTED

theorem start_flow (connName : String) (sockfd : ℤ) (poller : Poller (Option ι))
    (others : ι → Channel) : Flow (start connName sockfd poller others : ForeignSend τ ι) where
  loop := EventLoop.fresh_invariant
  unwritten := rfl
  idle := by
    change (Channel.create sockfd).enableReading.isWriting = false
    rw [Channel.enableReading_isWriting, Channel.create_isWriting]
  kept := List.not_mem_nil
  unshut := fun _ => List.not_mem_nil
  delivered := ⟨[], .refl [], rfl⟩

theorem Flow.extend {s u : ForeignSend τ ι} {es : List Event} (h : Flow s) (hes : Extends s u es)
    (hloop : u.loop.Invariant) (hbuffer : u.conn.outputBuffer = s.conn.outputBuffer)
    (hidle : u.conn.channel.isWriting = s.conn.channel.isWriting)
    (hstate : u.conn.state = s.conn.state) (hkept : .destroyConnection ∉ queue u.loop)
    (hdelivered : Delivered u.outstanding u.history) : Flow u where
  loop := hloop
  unwritten := hbuffer.trans h.unwritten
  idle := hidle.trans h.idle
  kept := hkept
  unshut := by
    intro hconn hmem
    rw [hes.history, List.mem_append] at hmem
    exact hmem.elim (h.unshut (hstate.symm.trans hconn)) hes.unmarked
  delivered := hdelivered

theorem Extends.shutLast {s u : ForeignSend τ ι} {es : List Event} (h : Flow s)
    (hes : Extends s u es) (hshut : ShutLast s.history) : ShutLast u.history := by
  rw [hes.history]
  refine hshut.append hes.unmarked fun hmem post hpost msg hsent => ?_
  rcases List.mem_append.1 hsent with hold | hnew
  · exact hpost msg hold
  · exact h.unshut (hes.accepted msg hnew) hmem

/-- With nothing buffered a send writes the message, and this is all of it. -/
theorem sendInLoopThread_whole {c : TcpConnection} {msg : List UInt8} {w : WriteResult}
    (hidle : c.channel.isWriting = false) (hempty : c.outputBuffer = [])
    (hwhole : ∀ offered n, .write offered n ∈ (c.sendInLoopThread msg w).2 →
      n = offered.length) : c.sendInLoopThread msg w = (c, [.write msg msg.length]) := by
  have hall : w.value msg = msg.length := by
    apply hwhole msg
    simp [sendInLoopThread, hidle, hempty]
  simp [sendInLoopThread, hidle, hempty, hall, appendRest]

/-- With nothing buffered a handler that does not close the connection only reads. -/
theorem runCallback_quiet {c : TcpConnection} {r : ReadvResult} {w : WriteResult}
    {callback : Callback} (hidle : c.channel.isWriting = false)
    (hclose : .closeCallback ∉ (runCallback c r w callback).2) : ∃ inputBuffer effects,
    runCallback c r w callback = ({ c with inputBuffer }, effects) ∧
      (effects = [] ∨ effects = [.msgCallback]) := by
  cases callback with
  | close => exact absurd (by simp [runCallback, Release.closeHandler]) hclose
  | error => exact ⟨c.inputBuffer, [], rfl, Or.inl rfl⟩
  | read =>
    simp only [runCallback, Release.connectionHandler] at hclose ⊢
    split_ifs at hclose ⊢
    · exact ⟨_, _, rfl, Or.inr rfl⟩
    · simp [Release.closeHandler] at hclose
    · exact ⟨_, _, rfl, Or.inl rfl⟩
  | write =>
    refine ⟨c.inputBuffer, [], ?_, Or.inl rfl⟩
    simp [runCallback, writeHandler, hidle]

/-- A step that changes neither the queue nor what the connection writes. -/
theorem Flow.same {s u : ForeignSend τ ι} (h : Flow s) (hhistory : u.history = s.history)
    (hloop : u.loop.Invariant)
    (hqueue : queue u.loop = queue s.loop ∨ queue u.loop = queue s.loop ++ [.other])
    (hbuffer : u.conn.outputBuffer = s.conn.outputBuffer)
    (hidle : u.conn.channel.isWriting = s.conn.channel.isWriting)
    (hstate : u.conn.state = s.conn.state) (hchecked : u.checked = s.checked) :
    Flow u ∧ ∃ es, Extends s u es := by
  have hes : Extends s u [] := by
    refine ⟨?_, List.not_mem_nil, by simp⟩
    rw [hhistory, List.append_nil]
  have hmessages : u.outstanding = s.outstanding := by
    rcases hqueue with hqueue | hqueue
    · rw [outstanding, hchecked, hqueue]
      rfl
    · rw [outstanding, hchecked, hqueue, List.filterMap_append]
      exact congrArg (_ ++ ·) (List.append_nil _)
  refine ⟨h.extend hes hloop hbuffer hidle hstate ?_ ?_, [], hes⟩
  · rcases hqueue with hqueue | hqueue
    · rw [hqueue]
      exact h.kept
    · rw [hqueue]
      simp [h.kept]
  · rw [hhistory, hmessages]
    exact h.delivered

variable [DecidableEq τ]

/-- A step of the loop alone moves the queue along, or puts something else at its end. -/
theorem loop_queue {s : ForeignSend τ ι} (hloop : s.loop.Invariant)
    {a : EventLoop.Action τ Functor} (hplain : s.plain a = true)
    (henabled : s.loop.enabled a = true) :
    queue (s.loop.effect a) = queue s.loop ∨
      queue (s.loop.effect a) = queue s.loop ++ [.other] := by
  cases a with
  | push c f =>
    simp only [plain, Bool.and_eq_true, decide_eq_true_eq] at hplain
    right
    rw [hplain.1]
    exact (List.append_assoc _ _ _).symm
  | swap =>
    have hbatch : s.loop.functors = [] := by
      apply hloop.batch
      rw [(EventLoop.ready_iff.1 henabled).1]
      decide
    left
    simp [queue, EventLoop.effect, hbatch]
  | pollReturn => cases hplain
  | runFunctor => cases hplain
  | check =>
    left
    simp only [EventLoop.effect]
    split <;> rfl
  | waken c =>
    obtain ⟨n, -, heq⟩ := s.loop.waken_spec
    left
    simp only [EventLoop.effect, heq]
    split <;> rfl
  | _ => exact Or.inl rfl

variable [DecidableEq ι]

theorem AllTaken.of_does {s u : ForeignSend τ ι} {r : TcpConnection × List Effect}
    (h : AllTaken u.history) (hdoes : s.does r = some u) :
    (∀ offered n, .write offered n ∈ r.2 → n = offered.length) ∧ .closeCallback ∉ r.2 := by
  have hmem : ∀ e ∈ r.2, .did e ∈ u.history := by
    intro e he
    rw [(does_frame hdoes).1]
    exact List.mem_append_right _ (List.mem_map_of_mem he)
  exact ⟨fun offered n he => h _ (hmem _ he), fun he => h _ (hmem _ he)⟩

theorem callback_flow {s u : ForeignSend τ ι} (h : Flow s) {c : ReadvResult} {w : WriteResult}
    (ha : AllTaken u.history) (hu : step s (.callback c w) = some u) :
    Flow u ∧ ∃ es, Extends s u es := by
  obtain ⟨r, hr, hdoes⟩ := Option.bind_eq_some_iff.1 hu
  cases runs_cases hr with
  | callback =>
    obtain ⟨-, hclose⟩ := ha.of_does hdoes
    obtain ⟨inputBuffer, effects, heq, heffects⟩ := runCallback_quiet h.idle hclose
    rw [heq, does_inert (by rcases heffects with rfl | rfl <;> simp [Inert])] at hdoes
    cases hdoes
    have hes : Extends s { s with
        conn := { s.conn with inputBuffer }, callbacks := s.callbacks.tail,
        history := s.history ++ effects.map Event.did } (effects.map Event.did) := by
      refine ⟨rfl, ?_, ?_⟩
      · rcases heffects with rfl | rfl <;> simp
      · simp
    refine ⟨h.extend hes h.loop rfl rfl rfl h.kept ?_, _, hes⟩
    apply h.delivered.quiet (.refl _)
    · rcases heffects with rfl | rfl <;> rfl
    · rcases heffects with rfl | rfl <;> rfl

/-- The functor at the front writes its message, which is outstanding until then. -/
theorem runFunctor_flow {s u : ForeignSend τ ι} (h : Flow s) {w : WriteResult}
    (ha : AllTaken u.history) (hu : step s (.runFunctor w) = some u) :
    Flow u ∧ ∃ es, Extends s u es := by
  obtain ⟨r, hr, hdoes⟩ := Option.bind_eq_some_iff.1 hu
  cases runs_cases hr with
  | @runFunctor _ f hready hf =>
    obtain ⟨rest, hrest⟩ : ∃ rest, s.loop.functors = f :: rest :=
      ⟨_, List.eq_cons_of_mem_head? hf⟩
    have hqueue : queue s.loop = f :: queue (s.loop.effect .runFunctor) := by
      simp [queue, EventLoop.effect, hrest]
    have hstep : EventLoop.step s.loop .runFunctor = some (s.loop.effect .runFunctor) := by
      apply if_pos
      simp [EventLoop.enabled, hready, hrest]
    have hloop := EventLoop.step_invariant h.loop hstep
    have hkept : .destroyConnection ∉ queue (s.loop.effect .runFunctor) := by
      intro hmem
      apply h.kept
      rw [hqueue]
      exact List.mem_cons_of_mem f hmem
    cases f with
    | destroyConnection =>
      apply absurd _ h.kept
      rw [hqueue]
      exact List.mem_cons_self
    | other =>
      change does _ (s.conn, []) = _ at hdoes
      rw [does_inert (by simp)] at hdoes
      cases hdoes
      have hes : Extends s { s with
          loop := s.loop.effect .runFunctor, history := s.history ++ [] } [] := ⟨rfl, by simp, by simp⟩
      refine ⟨h.extend hes hloop rfl rfl rfl hkept ?_, _, hes⟩
      apply h.delivered.quiet _ rfl rfl
      simp only [outstanding, hqueue]
      exact .refl _
    | sendInLoopThread msg =>
      change does _ (s.conn.sendInLoopThread msg w) = _ at hdoes
      have hsend := sendInLoopThread_whole h.idle h.unwritten (ha.of_does hdoes).1
      rw [hsend, does_inert (by simp [Inert])] at hdoes
      cases hdoes
      have hes : Extends s { s with
          loop := s.loop.effect .runFunctor
          history := s.history ++ [.did (.write msg msg.length)] }
          [.did (.write msg msg.length)] := ⟨rfl, by simp, by simp⟩
      refine ⟨h.extend hes hloop rfl rfl rfl hkept ?_, _, hes⟩
      apply h.delivered.wrote
      simp only [outstanding, hqueue]
      exact List.perm_middle

theorem send_flow {s u : ForeignSend τ ι} (h : Flow s) {msg : List UInt8} {w : WriteResult}
    (ha : AllTaken u.history) (hu : step s (.send msg w) = some u) :
    Flow u ∧ ∃ es, Extends s u es := by
  obtain ⟨r, hr, hdoes⟩ := Option.bind_eq_some_iff.1 hu
  cases runs_cases hr with
  | send =>
    by_cases hconn : s.conn.state = .CONNECTED
    · have hcall : s.conn.send true msg w = s.conn.sendInLoopThread msg w := by
        simp [send, hconn]
      have henter : s.enter (.send msg w) = { s with history := s.history ++ [.sent msg] } := by
        simp [enter, connected, hconn]
      rw [hcall, henter] at hdoes
      have hsend := sendInLoopThread_whole h.idle h.unwritten (ha.of_does hdoes).1
      rw [hsend, does_inert (by simp [Inert])] at hdoes
      cases hdoes
      have hes : Extends s { s with
          history := s.history ++ [.sent msg] ++ [.did (.write msg msg.length)] }
          [.sent msg, .did (.write msg msg.length)] :=
        ⟨by simp, by simp, fun _ _ => hconn⟩
      refine ⟨h.extend hes h.loop rfl rfl rfl h.kept ?_, _, hes⟩
      exact (h.delivered.sent (.refl _)).wrote (.refl _)
    · have hcall : s.conn.send true msg w = (s.conn, []) := by simp [send, hconn]
      have henter : s.enter (.send msg w) = s := by simp [enter, connected, hconn]
      rw [hcall, henter, does_inert (by simp)] at hdoes
      cases hdoes
      have hes : Extends s { s with history := s.history ++ [] } [] := ⟨rfl, by simp, by simp⟩
      exact ⟨h.extend hes h.loop rfl rfl rfl h.kept (h.delivered.quiet (.refl _) rfl rfl), _, hes⟩

theorem shutdown_flow {s u : ForeignSend τ ι} (h : Flow s) (hshut : ShutLast s.history)
    (hu : step s .shutdown = some u) :
    Flow u ∧ (ShutLast u.history ↔ ShutsDrained s .shutdown) := by
  obtain ⟨r, hr, hdoes⟩ := Option.bind_eq_some_iff.1 hu
  cases runs_cases hr with
  | shutdown hin =>
    by_cases hconn : s.conn.state = .CONNECTED
    · have hcall : s.conn.shutdown true = (s.conn.setState .DISCONNECTING, [.shutdownWrite]) := by
        simp [shutdown, hconn, shutdownInLoopThread, setState, h.idle]
      rw [hcall, does_inert (by simp [Inert])] at hdoes
      cases hdoes
      have hdelivered : Delivered s.outstanding (s.history ++ [.shutdownCalled]) :=
        h.delivered.quiet (.refl _) rfl rfl
      have hnew : Event.did .shutdownWrite ∉ s.history ++ [.shutdownCalled] := by
        simp [h.unshut hconn]
      refine ⟨⟨h.loop, h.unwritten, h.idle, h.kept, ?_, ?_⟩, ?_⟩
      · intro hc
        cases hc
      · exact hdelivered.quiet (.refl _) rfl rfl
      · constructor
        · intro hall _ _
          apply hdelivered.complete_iff.1
          exact (hall _ [] rfl).1
        · intro hdrained
          apply atMark_snoc hnew
          · exact hdelivered.complete_iff.2 (hdrained hin hconn)
          · exact fun _ => List.not_mem_nil
    · have hcall : s.conn.shutdown true = (s.conn, []) := by simp [shutdown, hconn]
      rw [hcall, does_inert (by simp)] at hdoes
      cases hdoes
      have hes : Extends s { s with history := s.history ++ [.shutdownCalled] ++ [] }
          [.shutdownCalled] := ⟨List.append_nil _, by simp, by simp⟩
      refine ⟨h.extend hes h.loop rfl rfl rfl h.kept ?_, ?_⟩
      · exact (h.delivered.quiet (.refl _) rfl rfl).quiet (.refl _) rfl rfl
      · exact iff_of_true (hes.shutLast h hshut) fun _ hc => absurd hc hconn

theorem check_flow {s u : ForeignSend τ ι} (h : Flow s) {t : τ} {msg : List UInt8}
    (hu : step s (.check t msg) = some u) : Flow u ∧ ∃ es, Extends s u es := by
  simp only [step] at hu
  split_ifs at hu with hidle hconn
  · cases hu
    simp only [connected, decide_eq_true_eq] at hconn
    have hes : Extends s { s with
        checked := s.checked ++ [(t, msg)], history := s.history ++ [.sent msg] } [.sent msg] :=
      ⟨rfl, by simp, fun _ _ => hconn⟩
    refine ⟨h.extend hes h.loop rfl rfl rfl h.kept ?_, _, hes⟩
    apply h.delivered.sent
    simp only [outstanding, List.map_append, List.append_assoc]
    exact List.perm_middle
  · cases hu
    exact ⟨h, [], (List.append_nil _).symm, List.not_mem_nil, by simp⟩

theorem push_flow {s u : ForeignSend τ ι} (h : Flow s) {t : τ} {msg : List UInt8}
    (hu : step s (.push t msg) = some u) : Flow u ∧ ∃ es, Extends s u es := by
  simp only [step] at hu
  split at hu
  · rename_i hmem
    obtain ⟨l, hl, rfl⟩ := Option.map_eq_some_iff.1 hu
    have hloop := EventLoop.step_invariant h.loop hl
    obtain ⟨-, rfl⟩ := EventLoop.step_eq_some hl
    have hqueue : queue (s.loop.effect (.push (.foreign t) (.sendInLoopThread msg))) =
        queue s.loop ++ [.sendInLoopThread msg] := (List.append_assoc _ _ _).symm
    have hes : Extends s { s with
        loop := s.loop.effect (.push (.foreign t) (.sendInLoopThread msg))
        checked := s.checked.erase (t, msg) } [] :=
      ⟨(List.append_nil _).symm, List.not_mem_nil, by simp⟩
    refine ⟨h.extend hes hloop rfl rfl rfl ?_ ?_, _, hes⟩
    · rw [hqueue]
      simp [h.kept]
    · rw [hes.history]
      apply h.delivered.quiet _ rfl rfl
      have hchecked := (List.perm_cons_erase hmem).map Prod.snd
      simp only [outstanding, hqueue, List.filterMap_append]
      rw [← List.append_assoc]
      apply (List.perm_append_singleton msg _).trans
      exact (hchecked.append_right _).symm
  · cases hu

instance (s : ForeignSend τ ι) (a : Action τ ι) : Decidable (ShutsDrained s a) := by
  cases a <;> unfold ShutsDrained <;> infer_instance

theorem shutdown_step {s : ForeignSend τ ι} (hin : s.inCallback = true) :
    ∃ u, step s .shutdown = some u := by
  have hinert : ∀ e ∈ (s.conn.shutdown true).2, Inert e := by
    simp only [shutdown, shutdownInLoopThread]
    split_ifs <;> simp [Inert]
  have hr : s.runs .shutdown = some (s.conn.shutdown true) := if_pos hin
  have hdoes := does_inert hinert (s.enter .shutdown)
  exact ⟨_, by rw [step, hr, Option.bind_some, hdoes]⟩

theorem step_flow {s u : ForeignSend τ ι} (h : Flow s) (hshut : ShutLast s.history)
    {a : Action τ ι} (ha : AllTaken u.history) (hu : step s a = some u) :
    Flow u ∧ (ShutLast u.history ↔ ShutsDrained s a) := by
  have other : (Flow u ∧ ∃ es, Extends s u es) → a ≠ .shutdown →
      Flow u ∧ (ShutLast u.history ↔ ShutsDrained s a) := by
    rintro ⟨hflow, es, hes⟩ hne
    refine ⟨hflow, iff_of_true (hes.shutLast h hshut) ?_⟩
    cases a with
    | shutdown => exact absurd rfl hne
    | _ => exact trivial
  cases a with
  | shutdown => exact shutdown_flow h hshut hu
  | callback c w => exact other (callback_flow h ha hu) nofun
  | runFunctor w => exact other (runFunctor_flow h ha hu) nofun
  | send msg w => exact other (send_flow h ha hu) nofun
  | check t msg => exact other (check_flow h hu) nofun
  | push t msg => exact other (push_flow h hu) nofun
  | loop a =>
    apply other _ nofun
    simp only [step] at hu
    split at hu
    · rename_i hplain
      obtain ⟨l, hl, rfl⟩ := Option.map_eq_some_iff.1 hu
      have hloop := EventLoop.step_invariant h.loop hl
      obtain ⟨henabled, rfl⟩ := EventLoop.step_eq_some hl
      exact h.same rfl hloop (loop_queue h.loop hplain henabled) rfl rfl rfl rfl
    · cases hu
  | pollReturn revents =>
    apply other _ nofun
    obtain ⟨l, hl, rfl⟩ := Option.map_eq_some_iff.1 hu
    have hloop := EventLoop.step_invariant h.loop hl
    obtain ⟨-, rfl⟩ := EventLoop.step_eq_some hl
    by_cases hpolled : s.polled = true
    · rw [if_pos hpolled]
      exact h.same rfl hloop (Or.inl rfl) rfl rfl rfl rfl
    · rw [if_neg hpolled]
      exact h.same rfl hloop (Or.inl rfl) rfl rfl rfl rfl
  | updateOther i events =>
    apply other _ nofun
    simp only [step] at hu
    split at hu
    · obtain ⟨r, -, rfl⟩ := Option.map_eq_some_iff.1 hu
      exact h.same rfl h.loop (Or.inl rfl) rfl rfl rfl rfl
    · cases hu
  | removeOther i =>
    apply other _ nofun
    simp only [step] at hu
    split at hu
    · obtain ⟨⟨poller, moved⟩, -, rfl⟩ := Option.map_eq_some_iff.1 hu
      obtain ⟨others, index, hstore⟩ := storeIndex_spec s moved
      simp only [hstore]
      exact h.same rfl h.loop (Or.inl rfl) rfl rfl rfl rfl
    · cases hu

/-- In runs where every `::write` takes its whole offer and nothing closes the connection, the
write side is shut after the last byte of every message that found the state CONNECTED,
exactly if no call of `shutdown` in the loop's thread finds bytes outstanding. -/
theorem shutLast_iff_shutsDrained (connName : String) (sockfd : ℤ) (poller : Poller (Option ι))
    (others : ι → Channel) (as : List (Action τ ι))
    (htaken : Along step (fun _ _ o => ∀ u ∈ o, AllTaken u.history)
      (start connName sockfd poller others) as) :
    Along step (fun _ _ o => ∀ u ∈ o, ShutLast u.history)
        (start connName sockfd poller others) as ↔
      Along step (fun s a _ => ShutsDrained s a) (start connName sockfd poller others) as := by
  refine along_iff (fun s => Flow s ∧ ShutLast s.history) ?_ ?_ as
    ⟨start_flow connName sockfd poller others, atMark_nil⟩ htaken
  · rintro s a ⟨hflow, hshut⟩ ha
    cases hu : step s a with
    | none =>
      apply iff_of_true (by simp)
      cases a with
      | shutdown =>
        intro hin
        obtain ⟨u, hsome⟩ := shutdown_step hin
        rw [hu] at hsome
        cases hsome
      | _ => exact trivial
    | some u =>
      rw [hu] at ha
      have hiff := (step_flow hflow hshut (ha u rfl) hu).2
      simpa using hiff
  · rintro s a u ⟨hflow, hshut⟩ ha hdrained hu
    obtain ⟨hflow', hiff⟩ := step_flow hflow hshut (ha u hu) hu
    exact ⟨hflow', hiff.2 hdrained⟩

/-- Two threads send. One message is written before `shutdown`, and the functor of the other
one, which is empty, comes after it. -/
def sendsThenShutdown : List (Action ℕ Unit) :=
  [.loop .enter, .loop .check, .check 0 [1, 2], .check 1 [], .push 0 [1, 2], .pollReturn 0,
    .loop .beginFunctors, .loop .swap, .runFunctor (.wrote 2), .shutdown, .push 1 [],
    .loop .endFunctors, .loop .check, .pollReturn 0, .loop .beginFunctors, .loop .swap,
    .runFunctor (.wrote 0)]

theorem shutLast_iff_shutsDrained_of_two :
    (run step (start "" 5 .fresh fun _ => .create 7) sendsThenShutdown).isSome ∧
      Along step (fun _ _ o => ∀ u ∈ o, ShutLast u.history)
        (start "" 5 .fresh fun _ => .create 7) sendsThenShutdown :=
  ⟨by decide, (shutLast_iff_shutsDrained "" 5 .fresh (fun _ => .create 7) sendsThenShutdown
    (by decide)).2 (by decide)⟩

def checkThenShutdown : List (Action Unit Unit) :=
  [.loop .enter, .loop .check, .check () [1], .pollReturn 0]

def atShutdown : ForeignSend Unit Unit :=
  (run step (start "" 5 .fresh fun _ => .create 7) checkThenShutdown).get (by decide)

/-- The write side is shut before the thread pushes its message. -/
theorem checked_send_not_shutLast :
    Along step (fun _ _ o => ∀ u ∈ o, AllTaken u.history)
        (start "" 5 .fresh fun _ => .create 7) (checkThenShutdown ++ [.shutdown]) ∧
      ¬ Along step (fun _ _ o => ∀ u ∈ o, ShutLast u.history)
        (start "" 5 .fresh fun _ => .create 7) (checkThenShutdown ++ [.shutdown]) := by
  refine ⟨by decide, fun h => ?_⟩
  have hrun : run step (start "" 5 .fresh fun _ => .create 7) checkThenShutdown =
      some atShutdown := (Option.some_get _).symm
  have hshut := h.at_step hrun _ rfl
  obtain ⟨msgs, hperm, hbytes⟩ := (hshut [.sent [1], .shutdownCalled] [] rfl).1
  change msgs.Perm [[1]] at hperm
  rw [List.perm_singleton.1 hperm] at hbytes
  exact absurd hbytes (by decide)

end HydrogenWeb.ForeignSend
