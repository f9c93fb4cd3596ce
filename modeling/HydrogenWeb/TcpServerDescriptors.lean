import HydrogenWeb.TcpServerFrame

set_option autoImplicit false

/-!
# The descriptors of the connections

The map, the functors and the copies of the user share a connection, and with the last of them
its socket is closed. `fds` is the descriptor table of the process; the rest of the process has
opened `others`.
-/
namespace HydrogenWeb
open TransitionRuns Lifecycle Poller

structure Socket where
  sockfd : ℤ
deriving DecidableEq

namespace Socket

/-- The move constructor: the new object and what is left of the old one. -/
def move (s : Socket) : Socket × Socket := (s, ⟨-1⟩)

def destructor (s : Socket) : List ℤ := if s.sockfd ≥ 0 then [s.sockfd] else []

/-- From `incomingHandler` through two parameters into the connection: the member, and what the
destructors of the three sockets before it close. -/
def handOver (connfd : ℤ) : Socket × List ℤ :=
  let (socket, incoming) := move ⟨connfd⟩
  let (parameter, socket) := socket.move
  let (member, parameter) := parameter.move
  (member, parameter.destructor ++ socket.destructor ++ incoming.destructor)

theorem handOver_eq (connfd : ℤ) : handOver connfd = (⟨connfd⟩, []) := rfl

theorem destructor_eq {s : Socket} (h : 0 ≤ s.sockfd) : s.destructor = [s.sockfd] := if_pos h

end Socket

namespace TcpServer

def Functor.bound : Functor → Option ℕ
  | .establishConnection id => some id
  | .destroyConnection id => some id
  | .user => none

/-- `spent` are the functors of the batch that have run: the vector keeps them to its end. -/
structure Process where
  server : TcpServer
  socket : ℕ → Socket
  alive : List ℕ
  closed : List ℕ
  spent : List Functor
  copies : List ℕ
  fds : List ℤ
  others : List ℤ

def own (s : TcpServer) : List ℤ := [s.timerChannel.fd, s.wakenChannel.fd, s.acceptorChannel.fd]

namespace Process

inductive Action where
  | loop (a : TcpServer.Action)
  | copy (id : ℕ)
  | drop (id : ℕ)
  | openFd (fd : ℤ)
  | closeFd (fd : ℤ)

def references (p : Process) : List ℕ :=
  p.server.connections.toList.map Prod.snd ++
    (p.server.pending ++ p.spent).filterMap Functor.bound ++ p.copies

def release (p : Process) : Process :=
  let dead := p.alive.filter fun id => id ∉ p.references
  { p with alive := p.alive.filter fun id => id ∈ p.references
           closed := p.closed ++ dead
           fds := p.fds.diff (dead.flatMap fun id => (p.socket id).destructor) }

def accept (p : Process) (connfd : ℤ) : Process :=
  let (member, closes) := Socket.handOver connfd
  { p with socket := Function.update p.socket p.server.newConnId member
           alive := p.alive ++ [p.server.newConnId]
           fds := (connfd :: p.fds).diff closes }

theorem accept_eq (p : Process) (connfd : ℤ) : p.accept connfd =
    { p with socket := Function.update p.socket p.server.newConnId ⟨connfd⟩
             alive := p.alive ++ [p.server.newConnId]
             fds := connfd :: p.fds } := by
  rw [accept, Socket.handOver_eq]
  rfl

def spend (p : Process) : TcpServer.Action → List Functor
  | .functor _ => p.spent ++ p.server.phase.batch.take 1
  | .endFunctors => []
  | _ => p.spent

def step (p : Process) : Action → Option Process
  | .loop a => (TcpServer.step p.server a).map fun server =>
    let accepted := (p.server.accepted a).elim p p.accept
    { accepted with server := server, spent := p.spend a }.release
  | .copy id => some { p with copies := id :: p.copies }
  | .drop id => some { p with copies := p.copies.erase id }.release
  | .openFd fd => some { p with fds := fd :: p.fds, others := fd :: p.others }
  | .closeFd fd => some { p with fds := p.fds.erase fd, others := p.others.erase fd }

/-- The kernel answers with a descriptor that is not open; code outside of the server copies what
it can reach and closes what it has opened. -/
def Allowed (p : Process) : Action → Prop
  | .loop (.handleEvent answers) => p.server.phase.active ≠ [] ∧
      (p.server.phase.active.head? = some .acceptor → answers.accepted ≥ 0 →
        p.server.newConnId + 1 < 2 ^ 31 ∧ answers.accepted ∉ p.fds)
  | .loop a => Possible p.server a
  | .copy id => id ∈ p.references
  | .drop id => id ∈ p.copies
  | .openFd fd => fd ∉ p.fds
  | .closeFd fd => fd ∈ p.others

instance (p : Process) : (u : Action) → Decidable (Allowed p u)
  | .loop (.handleEvent _) => inferInstanceAs (Decidable (_ ∧ _))
  | .loop .construct => inferInstanceAs (Decidable (Possible p.server .construct))
  | .loop (.poll revents n) => inferInstanceAs (Decidable (Possible p.server (.poll revents n)))
  | .loop .processFunctors => inferInstanceAs (Decidable (Possible p.server .processFunctors))
  | .loop (.functor user) => inferInstanceAs (Decidable (Possible p.server (.functor user)))
  | .loop .endFunctors => inferInstanceAs (Decidable (Possible p.server .endFunctors))
  | .loop .addToLoopThread => inferInstanceAs (Decidable (Possible p.server .addToLoopThread))
  | .loop (.call u) => inferInstanceAs (Decidable (Possible p.server (.call u)))
  | .copy id => inferInstanceAs (Decidable (id ∈ p.references))
  | .drop id => inferInstanceAs (Decidable (id ∈ p.copies))
  | .openFd fd => inferInstanceAs (Decidable (fd ∉ p.fds))
  | .closeFd fd => inferInstanceAs (Decidable (fd ∈ p.others))

structure Tally (p : Process) (stage : ℕ → Stage) : Prop where
  inv : Inv p.server stage
  settled : ∀ id, stage id ≠ .destroyed
  objects : (p.closed ++ p.alive).Perm (List.range p.server.newConnId)
  gone : ∀ id ∈ p.closed, stage id = .removed ∧ id ∉ p.references
  member : ∀ id < p.server.newConnId, 0 ≤ (p.socket id).sockfd ∧
    (p.server.conn id).channel.fd = (p.socket id).sockfd
  nodup : p.fds.Nodup
  balance : (↑p.fds : Multiset ℤ) =
    ↑p.server.own + ↑p.others + ↑(p.alive.map fun id => (p.socket id).sockfd)
  spent : (∀ batch, p.server.phase ≠ .functors batch) → p.spent = []

/-- What holds between two steps. -/
structure Accounts (p : Process) : Prop where
  closedOnce : p.closed.Nodup
  afterRemoval : ∀ id ∈ p.closed, .remove ∈ p.server.trace id
  noLeak : ∀ id < p.server.newConnId, id ∈ p.closed ↔ id ∉ p.references
  atPoll : p.server.phase = .polling → p.copies = [] →
    ∀ id, id ∈ p.closed ↔ .remove ∈ p.server.trace id
  nodup : p.fds.Nodup
  balance : p.fds.Perm (p.server.own ++ p.others ++
    ((List.range p.server.newConnId).filter fun id => id ∈ p.references).map
      fun id => (p.server.conn id).channel.fd)
  watched : ∀ (fd : ℤ) a, p.server.poller.channels[fd]? = some a → fd ∈ p.fds
  active : ∀ id, .conn id ∈ p.server.phase.active → id ∉ p.closed

variable {p q : Process} {stage : ℕ → Stage} {id : ℕ}

theorem mem_references : id ∈ p.references ↔
    (∃ name : String, p.server.connections[name]? = some id) ∨
      (∃ f ∈ p.server.pending ++ p.spent, f.bound = some id) ∨ id ∈ p.copies := by
  rw [references, List.mem_append, List.mem_append, List.mem_filterMap, or_assoc, List.mem_map]
  refine or_congr_left ?_
  constructor
  · rintro ⟨⟨name, i⟩, hmem, rfl⟩
    exact ⟨name, Std.ExtTreeMap.mem_toList_iff_getElem?_eq_some.1 hmem⟩
  · rintro ⟨name, hname⟩
    exact ⟨(name, id), Std.ExtTreeMap.mem_toList_iff_getElem?_eq_some.2 hname, rfl⟩

theorem bound_eq_some {f : Functor} : f.bound = some id ↔
    f = .establishConnection id ∨ f = .destroyConnection id := by
  cases f <;> simp [Functor.bound]

/-- The server keeps a connection from its accept until its removal. -/
theorem mem_references_of_stage (h : Inv p.server stage) (hsettled : stage id ≠ .destroyed)
    (hlt : id < p.server.newConnId) (hstage : stage id ≠ .removed) : id ∈ p.references := by
  have hborn : stage id ≠ .unborn := fun hcon => by
    have := (h.ledger.born id).1 hcon
    omega
  have hpending : ∀ f, p.server.pending.count f = 1 → f.bound = some id → id ∈ p.references := by
    intro f hcount hbound
    have hmem : f ∈ p.server.pending := List.count_pos_iff.1 (by omega)
    exact mem_references.2 (Or.inr (Or.inl ⟨f, List.mem_append_left _ hmem, hbound⟩))
  cases hs : stage id with
  | unborn => exact absurd hs hborn
  | accepted => exact hpending _ (by rw [h.ledger.establish, if_pos hs]) rfl
  | established =>
    have hlisted := (h.ledger.listed (p.server.conn id).connName id).2 ⟨by rw [hs]; rfl, rfl⟩
    exact mem_references.2 (Or.inl ⟨_, hlisted⟩)
  | closed => exact hpending _ (by rw [h.ledger.destroy, if_pos hs]) rfl
  | destroyed => exact absurd hs hsettled
  | removed => exact absurd hs hstage

/-- What the server itself still holds is not removed. -/
theorem stage_of_pending (h : Inv p.server stage) {f : Functor} (hf : f ∈ p.server.pending)
    (hbound : f.bound = some id) : stage id ≠ .removed := by
  intro hstage
  have hpos := List.count_pos_iff.2 hf
  rcases bound_eq_some.1 hbound with rfl | rfl
  · rw [h.ledger.establish, hstage, if_neg (by decide)] at hpos
    omega
  · rw [h.ledger.destroy, hstage, if_neg (by decide)] at hpos
    omega

theorem stage_of_listed (h : Inv p.server stage) {name : String}
    (hname : p.server.connections[name]? = some id) : stage id ≠ .removed := by
  intro hstage
  have hlisted := ((h.ledger.listed name id).1 hname).1
  rw [hstage] at hlisted
  cases hlisted

theorem Tally.lt_of_mem (h : Tally p stage) (hid : id ∈ p.closed ++ p.alive) :
    id < p.server.newConnId := List.mem_range.1 (h.objects.mem_iff.1 hid)

theorem Tally.disjoint (h : Tally p stage) : p.closed.Disjoint p.alive :=
  List.disjoint_of_nodup_append (h.objects.nodup_iff.2 List.nodup_range)

/-- The sockets that a release closes are those of the connections that die. -/
theorem closes_eq (h : Tally p stage) {ids : List ℕ} (hids : ∀ id ∈ ids, id ∈ p.alive) :
    (ids.flatMap fun id => (p.socket id).destructor) = ids.map fun id => (p.socket id).sockfd := by
  induction ids with
  | nil => rfl
  | cons id ids ih =>
    obtain ⟨hid, hrest⟩ := List.forall_mem_cons.1 hids
    have hlt := h.lt_of_mem (List.mem_append_right _ hid)
    rw [List.flatMap_cons, List.map_cons, ih hrest, Socket.destructor_eq (h.member id hlt).1]
    rfl

theorem release_tally (h : Tally p stage) :
    Tally p.release stage ∧ ∀ id ∈ p.release.alive, id ∈ p.release.references := by
  have hsplit := List.filter_append_perm (fun id => decide (id ∈ p.references)) p.alive
  have hdead : (p.alive.filter fun id => id ∉ p.references) =
      p.alive.filter fun id => !decide (id ∈ p.references) := by
    simp only [decide_not]
  rw [← hdead] at hsplit
  refine ⟨⟨h.inv, h.settled, ?_, ?_, h.member, ?_, ?_, h.spent⟩, ?_⟩
  · refine List.Perm.trans ?_ h.objects
    change ((p.closed ++ _) ++ _).Perm _
    rw [List.append_assoc]
    exact (List.perm_append_comm.trans hsplit).append_left _
  · intro id hid
    rcases List.mem_append.1 hid with hid | hid
    · exact h.gone id hid
    · rw [List.mem_filter, decide_eq_true_eq] at hid
      refine ⟨?_, hid.2⟩
      by_contra hstage
      have hlt := h.lt_of_mem (List.mem_append_right _ hid.1)
      exact hid.2 (mem_references_of_stage h.inv (h.settled id) hlt hstage)
  · exact h.nodup.sublist (List.diff_sublist _ _)
  · change (↑(p.fds.diff _) : Multiset ℤ) = ↑p.server.own + ↑p.others + ((List.map _ _ : List ℤ) : Multiset ℤ)
    rw [closes_eq h fun id hid => (List.mem_filter.1 hid).1, ← Multiset.coe_sub, h.balance,
      ← Multiset.coe_eq_coe.2 (hsplit.map fun id => (p.socket id).sockfd), List.map_append,
      ← Multiset.coe_add, ← add_assoc, add_tsub_cancel_right]
    rfl
  · intro id hid
    exact of_decide_eq_true (List.mem_filter.1 hid).2

theorem removed_of_prefix {s s' : TcpServer} {x : Stage} (h : Reaches (s.trace id) .removed)
    (hlog : s.log <+: s'.log) (h' : Reaches (s'.trace id) x) : x = .removed := by
  obtain ⟨more, hmore⟩ := hlog
  have htrace : s'.trace id =
      s.trace id ++ (more.filter fun entry => entry.1 = id).map Prod.snd := by
    rw [trace, trace, ← hmore, List.filter_append, List.map_append]
  rw [Reaches, htrace, run_append, h, Option.bind_some] at h'
  -- a removed connection takes no mark
  cases hmarks : (more.filter fun entry => entry.1 = id).map Prod.snd with
  | nil =>
    rw [hmarks] at h'
    exact (Option.some.inj h').symm
  | cons m marks =>
    rw [hmarks, run_cons] at h'
    cases m <;> cases h'

theorem Tally.mem_fds (h : Tally p stage) {fd : ℤ} : fd ∈ p.fds ↔
    fd ∈ p.server.own ∨ fd ∈ p.others ∨ ∃ id ∈ p.alive, (p.socket id).sockfd = fd := by
  rw [← Multiset.mem_coe, h.balance, Multiset.mem_add, Multiset.mem_add, Multiset.mem_coe,
    Multiset.mem_coe, Multiset.mem_coe, List.mem_map, or_assoc]

theorem Tally.mem_alive (h : Tally p stage) (hlt : id < p.server.newConnId) :
    id ∈ p.alive ↔ id ∉ p.closed := by
  have hmem : id ∈ p.closed ++ p.alive := h.objects.mem_iff.2 (List.mem_range.2 hlt)
  constructor
  · exact fun halive hclosed => h.disjoint hclosed halive
  · exact (List.mem_append.1 hmem).resolve_left

/-- A descriptor that is not open is none of an open channel. -/
theorem Tally.fresh (h : Tally p stage) {connfd : ℤ}
    (hkernel : connfd ≥ 0 → p.server.newConnId + 1 < 2 ^ 31 ∧ connfd ∉ p.fds) :
    p.server.Fresh connfd := by
  intro hfd
  obtain ⟨hbound, hnew⟩ := hkernel hfd
  have hown : connfd ∉ p.server.own := fun hcon => hnew (h.mem_fds.2 (Or.inl hcon))
  simp only [own, List.mem_cons, List.not_mem_nil, or_false, not_or] at hown
  refine ⟨hbound, hown.1, hown.2.1, hown.2.2, fun id hlt hstate heq => ?_⟩
  have halive : id ∈ p.alive := by
    rw [h.mem_alive hlt]
    intro hclosed
    have hat := h.inv.ledger.state id
    rw [(h.gone id hclosed).1] at hat
    exact hstate hat
  exact hnew (h.mem_fds.2 (Or.inr (Or.inr ⟨id, halive, by rw [heq, (h.member id hlt).2]⟩)))

theorem Tally.possible (h : Tally p stage) {a : TcpServer.Action} (hallowed : Allowed p (.loop a)) :
    Possible p.server a := by
  cases a with
  | handleEvent answers => exact ⟨hallowed.1, fun hhead => h.fresh (hallowed.2 hhead)⟩
  | _ => exact hallowed

/-- What `accept` gives away in an allowed step is new. -/
theorem accepted_fresh {a : TcpServer.Action} (hallowed : Allowed p (.loop a)) {connfd : ℤ}
    (h : p.server.accepted a = some connfd) : 0 ≤ connfd ∧ connfd ∉ p.fds := by
  cases a with
  | handleEvent answers =>
    cases hphase : p.server.phase with
    | handling active =>
      cases active with
      | nil => simp [accepted, hphase] at h
      | cons b active =>
        cases b with
        | acceptor =>
          simp only [accepted, hphase] at h
          split_ifs at h with hread
          cases h
          exact ⟨hread.2, (hallowed.2 (by rw [hphase]; rfl) hread.2).2⟩
        | _ => simp [accepted, hphase] at h
    | _ => simp [accepted, hphase] at h
  | _ => cases h

theorem spend_subset {a : TcpServer.Action} {f : Functor} (hf : f ∈ p.spend a) :
    f ∈ p.server.pending ++ p.spent := by
  cases a with
  | functor user =>
    rw [spend, List.mem_append] at hf
    rcases hf with hf | hf
    · exact List.mem_append_right _ hf
    · exact List.mem_append_left _ (List.mem_append_left _ (List.mem_of_mem_take hf))
  | endFunctors => cases hf
  | _ => exact List.mem_append_right _ hf

/-- A step does not bring back a connection that is gone. -/
theorem gone_step (h : Tally p stage) {a : TcpServer.Action} {stage' : ℕ → Stage}
    (hinv : Inv q.server stage')
    (hlog : p.server.log <+: q.server.log) (hspent : q.spent = p.spend a)
    (hcopies : q.copies = p.copies) (hid : id ∈ p.closed) :
    stage' id = .removed ∧ id ∉ q.references := by
  obtain ⟨hstage, hout⟩ := h.gone id hid
  have hreaches := h.inv.ledger.trace id
  rw [hstage] at hreaches
  have hstage' := removed_of_prefix hreaches hlog (hinv.ledger.trace id)
  refine ⟨hstage', fun hmem => ?_⟩
  rcases mem_references.1 hmem with ⟨name, hname⟩ | ⟨f, hf, hbound⟩ | hcopy
  · exact stage_of_listed hinv hname hstage'
  · rcases List.mem_append.1 hf with hf | hf
    · exact stage_of_pending hinv hf hbound hstage'
    · rw [hspent] at hf
      exact hout (mem_references.2 (Or.inr (Or.inl ⟨f, spend_subset hf, hbound⟩)))
  · rw [hcopies] at hcopy
    exact hout (mem_references.2 (Or.inr (Or.inr hcopy)))

theorem spend_nil (h : Tally p stage) {a : TcpServer.Action} (hallowed : Allowed p (.loop a))
    {s' : TcpServer} (hs' : TcpServer.step p.server a = some s')
    (hphase : ∀ batch, s'.phase ≠ .functors batch) : p.spend a = [] := by
  have hother : ∀ x, p.server.phase = x → x.batch = [] ∧ x ≠ .functors [] → p.spent = [] := by
    rintro x hx ⟨hbatch, hne⟩
    apply h.spent
    intro batch hcon
    rw [hx] at hcon
    rw [hcon] at hbatch hne
    exact hne (congrArg Phase.functors hbatch)
  cases a with
  | functor user =>
    obtain ⟨batch, hbatch⟩ := functor_phase hs'
    exact absurd hbatch (hphase batch)
  | endFunctors => rfl
  | construct => exact hother _ hallowed (by decide)
  | poll revents numEvents => exact hother _ hallowed.1 (by decide)
  | handleEvent answers =>
    obtain ⟨b, active, hactive⟩ := active_cons hallowed.1
    exact hother _ hactive ⟨rfl, by simp⟩
  | processFunctors => exact hother _ hallowed (by decide)
  | addToLoopThread =>
    cases hs'
    exact h.spent hphase
  | call u => exact hother _ hallowed (by decide)

theorem loop_tally (h : Tally p stage) {a : TcpServer.Action} (hallowed : Allowed p (.loop a)) :
    ∃ s' stage', TcpServer.step p.server a = some s' ∧ LifecycleStep p.server s' ∧
      Tally { (p.server.accepted a).elim p p.accept with server := s', spent := p.spend a } stage' := by
  have hpossible := h.possible hallowed
  obtain ⟨s', stage', hs', hinv', hsettled', hkept, hended⟩ := step_spec h.inv h.settled hpossible
  have hstepped := step_stepped hs'
  have hspend := spend_nil h hallowed hs'
  refine ⟨s', stage', hs', lifecycleStep_of_inv h.inv hinv' hkept hended, ?_⟩
  have hown : s'.own = p.server.own := by
    have htimer := hstepped.fd .timer (by simp)
    have hwaken := hstepped.fd .waken (by simp)
    have hacceptor := hstepped.fd .acceptor (by simp)
    simp only [chan] at htimer hwaken hacceptor
    rw [own, own, htimer, hwaken, hacceptor]
  have hold : ∀ id < p.server.newConnId, 0 ≤ (p.socket id).sockfd ∧
      (s'.conn id).channel.fd = (p.socket id).sockfd := by
    intro id hlt
    have hfd := hstepped.fd (.conn id) (by simp; omega)
    exact ⟨(h.member id hlt).1, hfd.trans (h.member id hlt).2⟩
  have hnew := hstepped.newConnId
  cases haccepted : p.server.accepted a with
  | none =>
    rw [haccepted] at hnew
    have hnew : s'.newConnId = p.server.newConnId := hnew
    refine ⟨hinv', hsettled', ?_, ?_, ?_, h.nodup, ?_, hspend⟩
    · change (p.closed ++ p.alive).Perm (List.range s'.newConnId)
      rw [hnew]
      exact h.objects
    · exact fun id hid => gone_step h hinv' hstepped.log rfl rfl hid
    · intro id hlt
      exact hold id (hnew ▸ hlt)
    · change (↑p.fds : Multiset ℤ) = ↑s'.own + _ + _
      rw [hown]
      exact h.balance
  | some connfd =>
    rw [Option.elim_some, accept_eq]
    obtain ⟨hnonneg, hfresh⟩ := accepted_fresh hallowed haccepted
    have hfd := hstepped.new
    rw [haccepted] at hnew hfd
    have hnew : s'.newConnId = p.server.newConnId + 1 := hnew
    refine ⟨hinv', hsettled', ?_, ?_, ?_, ?_, ?_, hspend⟩
    · change (p.closed ++ (p.alive ++ [p.server.newConnId])).Perm (List.range s'.newConnId)
      rw [hnew, List.range_succ, ← List.append_assoc]
      exact h.objects.append_right _
    · exact fun id hid => gone_step h hinv' hstepped.log rfl rfl hid
    · intro id hlt
      change 0 ≤ (Function.update p.socket _ _ id).sockfd ∧ _ =
        (Function.update p.socket p.server.newConnId ⟨connfd⟩ id).sockfd
      by_cases hid : id = p.server.newConnId
      · rw [hid, Function.update_self]
        exact ⟨hnonneg, hfd connfd rfl⟩
      · rw [Function.update_of_ne hid]
        have hlt : id < s'.newConnId := hlt
        exact hold id (by omega)
    · exact List.nodup_cons.2 ⟨hfresh, h.nodup⟩
    · have hmap : (p.alive.map fun id =>
          (Function.update p.socket p.server.newConnId ⟨connfd⟩ id).sockfd) =
            p.alive.map fun id => (p.socket id).sockfd := by
        apply List.map_congr_left
        intro id hid
        have hlt := h.lt_of_mem (List.mem_append_right _ hid)
        rw [Function.update_of_ne (by omega)]
      change (↑(connfd :: p.fds) : Multiset ℤ) = ↑s'.own + _ + ((List.map (fun id =>
        (Function.update p.socket p.server.newConnId ⟨connfd⟩ id).sockfd)
          (p.alive ++ [p.server.newConnId]) : List ℤ) : Multiset ℤ)
      rw [hown, List.map_append, hmap, ← Multiset.cons_coe, h.balance, ← Multiset.coe_add,
        ← add_assoc, List.map_singleton, Function.update_self, ← Multiset.singleton_add, add_comm]
      rfl

theorem references_copies {copies : List ℕ} (hcopies : ∀ i ∈ copies, i ∈ p.references)
    (h : id ∈ references { p with copies := copies }) : id ∈ p.references := by
  rcases mem_references.1 h with hname | hbound | hcopy
  · exact mem_references.2 (Or.inl hname)
  · exact mem_references.2 (Or.inr (Or.inl hbound))
  · exact hcopies id hcopy

theorem step_tally (h : Tally p stage) (halive : ∀ id ∈ p.alive, id ∈ p.references) {u : Action}
    (hallowed : Allowed p u) :
    ∃ q stage', step p u = some q ∧ Tally q stage' ∧ (∀ id ∈ q.alive, id ∈ q.references) ∧
      ∀ a, u = .loop a → LifecycleStep p.server q.server := by
  cases u with
  | loop a =>
    obtain ⟨s', stage', hs', hlifecycle, htally⟩ := loop_tally h hallowed
    obtain ⟨hreleased, hheld⟩ := release_tally htally
    refine ⟨_, stage', ?_, hreleased, hheld, fun _ _ => hlifecycle⟩
    rw [step, hs']
    rfl
  | copy id =>
    have hcopies : ∀ i ∈ id :: p.copies, i ∈ p.references := by
      intro i hi
      rcases List.mem_cons.1 hi with rfl | hi
      · exact hallowed
      · exact mem_references.2 (Or.inr (Or.inr hi))
    refine ⟨_, stage, rfl, ⟨h.inv, h.settled, h.objects, ?_, h.member, h.nodup, h.balance, h.spent⟩,
      ?_, fun a ha => by cases ha⟩
    · exact fun i hi => ⟨(h.gone i hi).1, fun hcon => (h.gone i hi).2 (references_copies hcopies hcon)⟩
    · intro i hi
      rcases mem_references.1 (halive i hi) with hname | hbound | hcopy
      · exact mem_references.2 (Or.inl hname)
      · exact mem_references.2 (Or.inr (Or.inl hbound))
      · exact mem_references.2 (Or.inr (Or.inr (List.mem_cons_of_mem _ hcopy)))
  | drop id =>
    have hcopies : ∀ i ∈ p.copies.erase id, i ∈ p.references := fun i hi =>
      mem_references.2 (Or.inr (Or.inr (List.mem_of_mem_erase hi)))
    have htally : Tally { p with copies := p.copies.erase id } stage := by
      refine ⟨h.inv, h.settled, h.objects, ?_, h.member, h.nodup, h.balance, h.spent⟩
      exact fun i hi => ⟨(h.gone i hi).1, fun hcon => (h.gone i hi).2 (references_copies hcopies hcon)⟩
    obtain ⟨hreleased, hheld⟩ := release_tally htally
    exact ⟨_, stage, rfl, hreleased, hheld, fun a ha => by cases ha⟩
  | openFd fd =>
    have hnew : fd ∉ p.fds := hallowed
    refine ⟨_, stage, rfl, ⟨h.inv, h.settled, h.objects, h.gone, h.member,
      List.nodup_cons.2 ⟨hnew, h.nodup⟩, ?_, h.spent⟩, halive, fun a ha => by cases ha⟩
    rw [← Multiset.cons_coe, ← Multiset.cons_coe, h.balance, Multiset.add_cons, Multiset.cons_add]
  | closeFd fd =>
    have hmem : fd ∈ p.others := hallowed
    refine ⟨_, stage, rfl, ⟨h.inv, h.settled, h.objects, h.gone, h.member,
      h.nodup.erase _, ?_, h.spent⟩, halive, fun a ha => by cases ha⟩
    rw [← Multiset.coe_erase, ← Multiset.coe_erase, h.balance, add_assoc,
      Multiset.erase_add_right_pos, Multiset.erase_add_left_pos, add_assoc]
    · exact hmem
    · exact Multiset.mem_add.2 (Or.inl hmem)

theorem remove_mem {marks : List Mark} {x : Stage} (h : Reaches marks x) :
    .remove ∈ marks ↔ x = .removed := by
  obtain ⟨events, rfl⟩ := history_of_reaches h
  cases x <;> simp [history]

theorem Tally.alive_perm (h : Tally p stage) (halive : ∀ id ∈ p.alive, id ∈ p.references) :
    p.alive.Perm ((List.range p.server.newConnId).filter fun id => id ∈ p.references) := by
  have hnodup := (List.nodup_append.1 (h.objects.nodup_iff.2 List.nodup_range)).2.1
  rw [List.perm_ext_iff_of_nodup hnodup (List.nodup_range.filter _)]
  intro id
  rw [List.mem_filter, List.mem_range, decide_eq_true_eq]
  constructor
  · exact fun hid => ⟨h.lt_of_mem (List.mem_append_right _ hid), halive id hid⟩
  · rintro ⟨hlt, hheld⟩
    rw [h.mem_alive hlt]
    exact fun hclosed => (h.gone id hclosed).2 hheld

/-- A channel that the poller knows has an open descriptor. -/
theorem Tally.watched (h : Tally p stage) {fd : ℤ} {a : ChannelId}
    (hfd : p.server.poller.channels[fd]? = some a) : fd ∈ p.fds := by
  obtain ⟨order, htable⟩ := h.inv.table
  obtain ⟨hin, rfl⟩ := (htable.watches.owner fd a).1 hfd
  rw [h.mem_fds]
  cases a with
  | conn id =>
    have hregistered := (htable.registered id).1 hin
    have hlt : id < p.server.newConnId := h.inv.ledger.lt_of_stage (by
      intro hcon
      rw [hcon] at hregistered
      cases hregistered)
    have halive : id ∈ p.alive := by
      rw [h.mem_alive hlt]
      intro hclosed
      rw [(h.gone id hclosed).1] at hregistered
      cases hregistered
    exact Or.inr (Or.inr ⟨id, halive, (h.member id hlt).2.symm⟩)
  | _ => simp [own, chan]

theorem accounts_of_tally (h : Tally p stage) (halive : ∀ id ∈ p.alive, id ∈ p.references) :
    Accounts p where
  closedOnce := (List.nodup_append.1 (h.objects.nodup_iff.2 List.nodup_range)).1
  afterRemoval id hid := (remove_mem (h.inv.ledger.trace id)).2 (h.gone id hid).1
  noLeak id hlt := by
    constructor
    · exact fun hclosed => (h.gone id hclosed).2
    · intro hout
      by_contra hopen
      exact hout (halive id ((h.mem_alive hlt).2 hopen))
  atPoll hphase hcopies id := by
    rw [remove_mem (h.inv.ledger.trace id)]
    constructor
    · exact fun hclosed => (h.gone id hclosed).1
    · intro hstage
      have hlt : id < p.server.newConnId := h.inv.ledger.lt_of_stage (by rw [hstage]; simp)
      by_contra hopen
      have hspent := h.spent fun batch hcon => by rw [hphase] at hcon; cases hcon
      rcases mem_references.1 (halive id ((h.mem_alive hlt).2 hopen)) with
        ⟨name, hname⟩ | ⟨f, hf, hbound⟩ | hcopy
      · exact stage_of_listed h.inv hname hstage
      · rw [hspent, List.append_nil] at hf
        exact stage_of_pending h.inv hf hbound hstage
      · rw [hcopies] at hcopy
        cases hcopy
  nodup := h.nodup
  balance := by
    have hmap : (p.alive.map fun id => (p.socket id).sockfd) =
        p.alive.map fun id => (p.server.conn id).channel.fd := by
      apply List.map_congr_left
      intro id hid
      exact (h.member id (h.lt_of_mem (List.mem_append_right _ hid))).2.symm
    have hbalance := h.balance
    rw [hmap, Multiset.coe_add, Multiset.coe_add] at hbalance
    exact (Multiset.coe_eq_coe.1 hbalance).trans (((h.alive_perm halive).map _).append_left _)
  watched _ _ hfd := h.watched hfd
  active id hid hclosed := by
    have hstage := h.inv.active.established id hid
    rw [(h.gone id hclosed).1] at hstage
    cases hstage

def start (serverName : String) (timerfd wakenfd listenfd : ℤ) (others : List ℤ) : Process where
  server := TcpServer.start serverName timerfd wakenfd listenfd
  socket := fun _ => ⟨-1⟩
  alive := []
  closed := []
  spent := []
  copies := []
  fds := [timerfd, wakenfd, listenfd] ++ others
  others := others

theorem start_tally (serverName : String) {timerfd wakenfd listenfd : ℤ} {others : List ℤ}
    (htimer : 0 ≤ timerfd) (hwaken : 0 ≤ wakenfd) (hlisten : 0 ≤ listenfd)
    (hdistinct : ([timerfd, wakenfd, listenfd] ++ others).Nodup) :
    Tally (start serverName timerfd wakenfd listenfd others) fun _ => .unborn where
  inv := start_inv serverName htimer hwaken hlisten (List.nodup_append.1 hdistinct).1
  settled _ := by simp
  objects := List.Perm.refl []
  gone := by simp [start]
  member id hlt := by cases hlt
  nodup := hdistinct
  balance := by
    rw [Multiset.coe_add]
    exact (add_zero _).symm
  spent _ := rfl

/-- In every run where the kernel gives away only descriptors that are not open, the server passes
all of its assertions, closes the descriptor of each connection once, behind its removal from the
poller and as soon as nothing refers to it, and polls open descriptors only. -/
theorem descriptors_of_every_run (serverName : String) {timerfd wakenfd listenfd : ℤ}
    {others : List ℤ} (htimer : 0 ≤ timerfd) (hwaken : 0 ≤ wakenfd) (hlisten : 0 ≤ listenfd)
    (hdistinct : ([timerfd, wakenfd, listenfd] ++ others).Nodup) (actions : List Action)
    (hallowed : Along step (fun p u _ => Allowed p u)
      (start serverName timerfd wakenfd listenfd others) actions) :
    Along step (fun p u o => ∃ q, o = some q ∧ Accounts q ∧
      ∀ a, u = .loop a → LifecycleStep p.server q.server)
      (start serverName timerfd wakenfd listenfd others) actions := by
  have hstart := start_tally serverName htimer hwaken hlisten hdistinct
  refine along_of_invariant
    (fun p => ∃ stage, Tally p stage ∧ ∀ id ∈ p.alive, id ∈ p.references) ?_ ?_ actions
    ⟨_, hstart, fun id hid => by cases hid⟩ hallowed
  · rintro p u ⟨stage, h, halive⟩ hstep
    obtain ⟨q, stage', hq, h', halive', hlifecycle⟩ := step_tally h halive hstep
    exact ⟨q, hq, accounts_of_tally h' halive', hlifecycle⟩
  · rintro p u q ⟨stage, h, halive⟩ hstep hq
    obtain ⟨q', stage', hq', h', halive', -⟩ := step_tally h halive hstep
    rw [hq] at hq'
    cases hq'
    exact ⟨stage', h', halive'⟩

/-- Two clients one after the other: the second gets the descriptor of the first again. -/
def secondClient : List Action :=
  oneClient.map .loop ++ [.loop (.poll (fun fd => if fd = 5 then 1 else 0) 1), .openFd 7,
    .loop (.handleEvent ⟨6, .error, .error, []⟩), .copy 1, .closeFd 7, .drop 1]

theorem descriptors_of_second_client :
    Along step (fun p u o => ∃ q, o = some q ∧ Accounts q ∧
      ∀ a, u = .loop a → LifecycleStep p.server q.server) (start "server" 3 4 5 [0, 1, 2])
      secondClient :=
  descriptors_of_every_run "server" (by decide) (by decide) (by decide) (by decide) secondClient
    (by decide +kernel)

end Process
end TcpServer
end HydrogenWeb
