import HydrogenWeb.TcpConnection
import HydrogenWeb.TraceMarks

set_option autoImplicit false

/-!
# The output of a connection is a FIFO byte stream

Runs of `send`, `shutdown` and writable events of one established connection in its
loop's thread, with an arbitrary answer to every `::write`.
-/
namespace HydrogenWeb.TcpConnection
open TraceMarks

inductive Event where
  | sent (msg : List UInt8)
  | shutdownCalled
  | did (e : Effect)

def Effect.accepted : Effect → List UInt8
  | .write offered n => offered.take n.toNat
  | _ => []

def accepted (effects : List Effect) : List UInt8 := effects.flatMap Effect.accepted

def Event.accepted : Event → List UInt8
  | .did e => e.accepted
  | _ => []

def Event.sentBytes : Event → List UInt8
  | .sent msg => msg
  | _ => []

def acceptedBytes (history : List Event) : List UInt8 := history.flatMap Event.accepted

/-- The messages passed to `send` while the state was CONNECTED. -/
def sentBytes (history : List Event) : List UInt8 := history.flatMap Event.sentBytes

structure OutputRun where
  conn : TcpConnection
  history : List Event

inductive OutputOp where
  | send (msg : List UInt8) (w : WriteResult)
  | shutdown
  | writable (w : WriteResult)

def OutputRun.step (s : OutputRun) : OutputOp → OutputRun
  | .send msg w =>
    let (conn, effects) := s.conn.send true msg w
    let call := if s.conn.connected then [.sent msg] else []
    ⟨conn, s.history ++ call ++ effects.map .did⟩
  | .shutdown =>
    let (conn, effects) := s.conn.shutdown true
    ⟨conn, s.history ++ [.shutdownCalled] ++ effects.map .did⟩
  | .writable w =>
    let (conn, effects) := s.conn.writeHandler w
    ⟨conn, s.history ++ effects.map .did⟩

def established (connName : String) (sockfd : ℤ) : TcpConnection :=
  { create connName sockfd with
    state := .CONNECTED, channel := (Channel.create sockfd).enableReading }

theorem establishConnection_create (connName : String) (sockfd : ℤ) :
    (create connName sockfd).establishConnection =
      some (established connName sockfd, [.update, .connCallback]) := rfl

/-- Write interest stands for unsent bytes. -/
def FlagOk (c : TcpConnection) : Prop := c.channel.isWriting = true ↔ c.outputBuffer ≠ []

/-- `appendRest` buffers what was not written, and the flag follows. -/
theorem appendRest_spec {c : TcpConnection} {n : ℕ} (hflag : c.FlagOk) (data : List UInt8)
    (hn : n ≤ data.length) : ∃ d effects,
    c.appendRest data n (data.length - n) = (d, effects) ∧ d.state = c.state ∧ d.FlagOk ∧
      d.outputBuffer = c.outputBuffer ++ data.drop n ∧ (effects = [] ∨ effects = [.update]) := by
  have hrest : (data.drop n).take (data.length - n) = data.drop n :=
    List.take_of_length_le (by simp)
  unfold appendRest
  by_cases hlt : n < data.length
  · have hne : data.drop n ≠ [] := by
      rw [Ne, List.drop_eq_nil_iff]
      omega
    rw [if_pos hlt, hrest]
    by_cases hw : c.channel.isWriting = true
    · exact ⟨_, _, if_pos hw, rfl, by simp [FlagOk, hw, hne], rfl, Or.inl rfl⟩
    · exact ⟨_, _, if_neg hw, rfl, by simp [FlagOk, hne], rfl, Or.inr rfl⟩
  · have hnil : data.drop n = [] := List.drop_eq_nil_iff.2 (by omega)
    rw [if_neg hlt]
    exact ⟨c, [], rfl, rfl, hflag, by rw [hnil, List.append_nil], Or.inl rfl⟩

/-- Written bytes and buffered ones together are the old buffer and the message. -/
theorem sendInLoopThread_spec {c : TcpConnection} (hflag : c.FlagOk) (data : List UInt8)
    (w : WriteResult) : ∃ d effects,
    c.sendInLoopThread data w = (d, effects) ∧ d.state = c.state ∧ d.FlagOk ∧
      accepted effects ++ d.outputBuffer = c.outputBuffer ++ data ∧
      .shutdownWrite ∉ effects := by
  unfold sendInLoopThread
  by_cases hdirect : c.channel.isWriting = false ∧ c.outputBuffer.length = 0
  · have hempty : c.outputBuffer = [] := List.length_eq_zero_iff.1 hdirect.2
    rw [if_pos hdirect]
    obtain ⟨d, effects, hd, hstate, hflag', hout, heff⟩ :=
      appendRest_spec hflag data (w.value_le data)
    have hcall : (if w.value data ≥ 0 then
        c.appendRest data (w.value data).toNat (data.length - (w.value data).toNat)
        else c.appendRest data 0 data.length) = (d, effects) := by
      split
      · exact hd
      · have hzero : (w.value data).toNat = 0 := by omega
        rw [← hd, hzero, Nat.sub_zero]
    refine ⟨d, .write data (w.value data) :: effects, ?_, hstate, hflag', ?_, ?_⟩
    · simp only [hcall]
    · rw [hout, hempty]
      rcases heff with rfl | rfl <;> simp [accepted, Effect.accepted]
    · rcases heff with rfl | rfl <;> simp
  · rw [if_neg hdirect]
    obtain ⟨d, effects, hd, hstate, hflag', hout, heff⟩ :=
      appendRest_spec hflag data (Nat.zero_le _)
    refine ⟨d, effects, by rw [← hd, Nat.sub_zero], hstate, hflag', ?_, ?_⟩
    · rw [hout, List.drop_zero]
      rcases heff with rfl | rfl <;> simp [accepted, Effect.accepted]
    · rcases heff with rfl | rfl <;> simp

/-- A writable event writes from the front of the buffer. It shuts the write side, last of
all, exactly when it empties the buffer of a connection that is disconnecting. -/
theorem writeHandler_spec {c : TcpConnection} (hflag : c.FlagOk) (w : WriteResult) :
    ∃ d effects, c.writeHandler w = (d, effects) ∧ d.state = c.state ∧ d.FlagOk ∧
      accepted effects ++ d.outputBuffer = c.outputBuffer ∧
      (c.outputBuffer = [] → effects = []) ∧
      (.shutdownWrite ∉ effects ∨ ∃ before, effects = before ++ [.shutdownWrite] ∧
        .shutdownWrite ∉ before ∧ c.state = .DISCONNECTING ∧ d.outputBuffer = []) := by
  unfold writeHandler
  by_cases hw : c.channel.isWriting = true
  · have hne := hflag.1 hw
    rw [if_pos hw]
    have hle := w.value_le c.outputBuffer
    generalize w.value c.outputBuffer = n at hle ⊢
    by_cases hn : n > 0
    · simp only [hn, if_true]
      by_cases hall : (c.outputBuffer.drop n.toNat).length = 0
      · have hnil := List.length_eq_zero_iff.1 hall
        have hfull : c.outputBuffer.take n.toNat = c.outputBuffer :=
          List.take_of_length_le (List.drop_eq_nil_iff.1 hnil)
        simp only [hall, if_true]
        by_cases hd : c.state = .DISCONNECTING
        · refine ⟨_, _, if_pos hd, ?_⟩
          simp only [shutdownInLoopThread, Channel.disableWriting_isWriting]
          refine ⟨rfl, by simp [FlagOk, hnil], ?_, fun h => absurd h hne, Or.inr ?_⟩
          · simp [accepted, Effect.accepted, hfull, hnil]
          · exact ⟨[.write c.outputBuffer n, .update], rfl, by simp, hd, hnil⟩
        · refine ⟨_, _, if_neg hd, rfl, by simp [FlagOk, hnil], ?_, fun h => absurd h hne,
            Or.inl (by simp)⟩
          simp [accepted, Effect.accepted, hfull, hnil]
      · have hrest : c.outputBuffer.drop n.toNat ≠ [] := fun h => hall (by simp [h])
        simp only [hall, if_false]
        exact ⟨_, _, rfl, rfl, by simp [FlagOk, hw, hrest],
          by simp [accepted, Effect.accepted], fun h => absurd h hne, Or.inl (by simp)⟩
    · have hzero : n.toNat = 0 := by omega
      simp only [hn, if_false]
      exact ⟨_, _, rfl, rfl, hflag, by simp [accepted, Effect.accepted, hzero],
        fun h => absurd h hne, Or.inl (by simp)⟩
  · rw [if_neg hw]
    exact ⟨c, [], rfl, rfl, hflag, rfl, fun _ => rfl, Or.inl (by simp)⟩

/-- What follows the shutting of the write side: no second one and no data. -/
def Quiet (after : List Event) : Prop :=
  ∀ e ∈ after, e ≠ .did .shutdownWrite ∧ ∀ offered n, e ≠ .did (.write offered n)

/-- What precedes it: the call, and a complete transmission of every accepted message. -/
def Drained (before : List Event) : Prop :=
  .shutdownCalled ∈ before ∧ acceptedBytes before = sentBytes before

structure OutputInvariant (s : OutputRun) : Prop where
  flag : s.conn.FlagOk
  fifo : acceptedBytes s.history ++ s.conn.outputBuffer = sentBytes s.history
  alive : s.conn.state = .CONNECTED ∨ s.conn.state = .DISCONNECTING
  asked : s.conn.state = .DISCONNECTING → .shutdownCalled ∈ s.history
  shut : .did .shutdownWrite ∈ s.history →
    s.conn.state = .DISCONNECTING ∧ s.conn.outputBuffer = []
  marked : AtMark (.did .shutdownWrite) Drained Quiet s.history

@[simp] theorem acceptedBytes_append (h k : List Event) :
    acceptedBytes (h ++ k) = acceptedBytes h ++ acceptedBytes k := List.flatMap_append

@[simp] theorem sentBytes_append (h k : List Event) :
    sentBytes (h ++ k) = sentBytes h ++ sentBytes k := List.flatMap_append

@[simp] theorem acceptedBytes_did (effects : List Effect) :
    acceptedBytes (effects.map .did) = accepted effects := by
  simp [acceptedBytes, accepted, List.flatMap_map, Event.accepted]

@[simp] theorem sentBytes_did (effects : List Effect) : sentBytes (effects.map .did) = [] := by
  simp [sentBytes, Event.sentBytes]

theorem not_mem_did {effects : List Effect} (h : .shutdownWrite ∉ effects) :
    Event.did .shutdownWrite ∉ effects.map .did := by
  simpa using h

theorem start_invariant (connName : String) (sockfd : ℤ) :
    OutputInvariant ⟨established connName sockfd, []⟩ where
  flag := by simp [FlagOk, established, create]
  fifo := rfl
  alive := Or.inl rfl
  asked := fun h => nomatch h
  shut := fun h => absurd h List.not_mem_nil
  marked := atMark_nil

theorem send_invariant {s : OutputRun} (h : OutputInvariant s) (msg : List UInt8)
    (w : WriteResult) : OutputInvariant (s.step (.send msg w)) := by
  unfold OutputRun.step
  by_cases hconn : s.conn.state = .CONNECTED
  · obtain ⟨d, effects, hd, hstate, hflag, hfifo, hopen⟩ := sendInLoopThread_spec h.flag msg w
    have hsend : s.conn.send true msg w = (d, effects) := by simp [send, hconn, hd]
    have hnot : .did .shutdownWrite ∉ s.history := by
      intro hmem
      simp [(h.shut hmem).1] at hconn
    have hnew : Event.did .shutdownWrite ∉ s.history ++ [.sent msg] ++ effects.map .did := by
      simp [hnot, hopen]
    simp only [hsend, connected, hconn, decide_true, if_true]
    refine ⟨hflag, ?_, Or.inl (hstate.trans hconn), ?_, fun hmem => absurd hmem hnew,
      atMark_of_not_mem hnew⟩
    · have hsent : sentBytes [.sent msg] = msg := by simp [sentBytes, Event.sentBytes]
      have hnone : acceptedBytes [.sent msg] = [] := by simp [acceptedBytes, Event.accepted]
      simp only [acceptedBytes_append, sentBytes_append, acceptedBytes_did, sentBytes_did, hsent,
        hnone, List.append_nil, List.nil_append, List.append_assoc]
      rw [hfifo, ← List.append_assoc, h.fifo]
    · intro hdis
      simp [hstate, hconn] at hdis
  · have hsend : s.conn.send true msg w = (s.conn, []) := by simp [send, hconn]
    simp only [hsend, connected, hconn, decide_false]
    simpa using h

theorem shutdown_invariant {s : OutputRun} (h : OutputInvariant s) :
    OutputInvariant (s.step .shutdown) := by
  unfold OutputRun.step
  have hcall : acceptedBytes (s.history ++ [.shutdownCalled]) = acceptedBytes s.history ∧
      sentBytes (s.history ++ [.shutdownCalled]) = sentBytes s.history := by
    simp [acceptedBytes, sentBytes, Event.accepted, Event.sentBytes]
  by_cases hconn : s.conn.state = .CONNECTED
  · have hnot : .did .shutdownWrite ∉ s.history ++ [.shutdownCalled] := by
      intro hmem
      simp only [List.mem_append, List.mem_singleton, reduceCtorEq, or_false] at hmem
      simp [(h.shut hmem).1] at hconn
    by_cases hw : s.conn.channel.isWriting = true
    · have hstep : s.conn.shutdown true = (s.conn.setState .DISCONNECTING, []) := by
        simp [shutdown, hconn, shutdownInLoopThread, setState, hw]
      simp only [hstep, List.map_nil, List.append_nil]
      exact ⟨h.flag, by rw [hcall.1, hcall.2]; exact h.fifo, Or.inr rfl, fun _ => by simp,
        fun hmem => absurd hmem hnot, atMark_of_not_mem hnot⟩
    · have hstep : s.conn.shutdown true =
          (s.conn.setState .DISCONNECTING, [.shutdownWrite]) := by
        simp [shutdown, hconn, shutdownInLoopThread, setState, hw]
      have hempty : s.conn.outputBuffer = [] := by
        by_contra hne
        exact hw (h.flag.2 hne)
      have hdrained : acceptedBytes s.history = sentBytes s.history := by
        simpa [hempty] using h.fifo
      simp only [hstep, List.map_cons, List.map_nil]
      refine ⟨h.flag, ?_, Or.inr rfl, fun _ => by simp, fun _ => ⟨rfl, hempty⟩, ?_⟩
      · rw [acceptedBytes_append, sentBytes_append, hcall.1, hcall.2, hdrained]
        simp [setState, hempty, acceptedBytes, sentBytes, Event.accepted, Event.sentBytes,
          Effect.accepted]
      · exact atMark_snoc hnot ⟨by simp, by rw [hcall.1, hcall.2, hdrained]⟩
          fun e he => absurd he List.not_mem_nil
  · have hstep : s.conn.shutdown true = (s.conn, []) := by simp [shutdown, hconn]
    simp only [hstep, List.map_nil, List.append_nil]
    have hquiet : ∀ post : List Event, Quiet post → Quiet (post ++ [.shutdownCalled]) := by
      intro post hpost e he
      rcases List.mem_append.1 he with he | he
      · exact hpost e he
      · rw [List.mem_singleton] at he
        simp [he]
    refine ⟨h.flag, by rw [hcall.1, hcall.2]; exact h.fifo, h.alive, fun _ => by simp, ?_, ?_⟩
    · intro hmem
      exact h.shut (by simpa using hmem)
    · exact h.marked.append (by simp) fun _ => hquiet

theorem writable_invariant {s : OutputRun} (h : OutputInvariant s) (w : WriteResult) :
    OutputInvariant (s.step (.writable w)) := by
  unfold OutputRun.step
  obtain ⟨d, effects, hd, hstate, hflag, hfifo, hidle, hshut⟩ := writeHandler_spec h.flag w
  have htotal : acceptedBytes (s.history ++ effects.map .did) ++ d.outputBuffer =
      sentBytes (s.history ++ effects.map .did) := by
    simp only [acceptedBytes_append, sentBytes_append, acceptedBytes_did, sentBytes_did,
      List.append_nil, List.append_assoc, hfifo]
    exact h.fifo
  simp only [hd]
  refine ⟨hflag, htotal, by rw [hstate]; exact h.alive,
    fun hdis => List.mem_append_left _ (h.asked (hstate.symm.trans hdis)), ?_, ?_⟩
  · intro hmem
    rcases List.mem_append.1 hmem with hold | hnew
    · obtain ⟨hdis, hempty⟩ := h.shut hold
      have hnone := hidle hempty
      subst hnone
      rw [hempty] at hfifo
      exact ⟨hstate.trans hdis, (List.append_eq_nil_iff.1 hfifo).2⟩
    · rcases hshut with hno | ⟨_, _, _, hdis, hempty⟩
      · exact absurd hnew (not_mem_did hno)
      · exact ⟨hstate.trans hdis, hempty⟩
  · rcases hshut with hno | ⟨before, rfl, hbefore, hdis, hempty⟩
    · refine h.marked.append (not_mem_did hno) fun hmem post hpost => ?_
      rw [hidle (h.shut hmem).2]
      simpa using hpost
    · -- the shutting is new: an old one would have left nothing to write
      have hold : .did .shutdownWrite ∉ s.history := by
        intro hmem
        simpa using hidle (h.shut hmem).2
      rw [List.map_append, ← List.append_assoc] at htotal ⊢
      refine atMark_snoc (by simp [hold, hbefore]) ⟨?_, ?_⟩ fun e he => absurd he List.not_mem_nil
      · exact List.mem_append_left _ (h.asked hdis)
      · rw [hempty, List.append_nil, acceptedBytes_append, sentBytes_append] at htotal
        simpa [acceptedBytes, sentBytes, Event.accepted, Event.sentBytes, Effect.accepted]
          using htotal

theorem step_outputInvariant {s : OutputRun} (h : OutputInvariant s) (op : OutputOp) :
    OutputInvariant (s.step op) := by
  cases op with
  | send msg w => exact send_invariant h msg w
  | shutdown => exact shutdown_invariant h
  | writable w => exact writable_invariant h w

theorem run_outputInvariant {s : OutputRun} (h : OutputInvariant s) (ops : List OutputOp) :
    OutputInvariant (ops.foldl OutputRun.step s) := by
  induction ops generalizing s with
  | nil => exact h
  | cons op ops ih => exact ih (step_outputInvariant h op)

/-- After every run: the bytes taken by `::write` and the buffered ones are the messages
in call order, write interest stands for a nonempty buffer, and SHUT_WR comes at most
once, after `shutdown()` and the last byte. -/
theorem output_fifo_and_shut_when_drained (connName : String) (sockfd : ℤ)
    (ops : List OutputOp) :
    let s := ops.foldl OutputRun.step ⟨established connName sockfd, []⟩
    acceptedBytes s.history ++ s.conn.outputBuffer = sentBytes s.history ∧
      (s.conn.channel.isWriting = true ↔ s.conn.outputBuffer ≠ []) ∧
      ∀ before after, s.history = before ++ .did .shutdownWrite :: after →
        .shutdownCalled ∈ before ∧ acceptedBytes before = sentBytes before ∧
          ∀ e ∈ after, e ≠ .did .shutdownWrite ∧ ∀ offered n, e ≠ .did (.write offered n) := by
  intro s
  have h : OutputInvariant s := run_outputInvariant (start_invariant connName sockfd) ops
  refine ⟨h.fifo, h.flag, fun before after heq => ?_⟩
  obtain ⟨⟨hcall, hdrained⟩, hquiet⟩ := h.marked before after heq
  exact ⟨hcall, hdrained, hquiet⟩

end HydrogenWeb.TcpConnection
