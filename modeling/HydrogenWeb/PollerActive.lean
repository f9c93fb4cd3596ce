import HydrogenWeb.PollerCalls

set_option autoImplicit false

/-!
# The channels that a poll reports

`::poll` writes `revents` into every entry and returns how many of them are not zero. The
scan counts that number down and stops at zero.
-/
namespace HydrogenWeb.Poller
open TransitionRuns

variable {ι : Type*}

/-- What `::poll` has written, one `revents` for each entry. -/
def written (p : Poller ι) (revents : List (BitVec 16)) : Poller ι :=
  { p with fds := p.fds.zipWith (fun pfd revents => { pfd with revents }) revents }

def poll (p : Poller ι) (chan : ι → Channel) (revents : List (BitVec 16)) (numEvents : ℤ) :
    Option (Poller ι × List (ι × BitVec 16)) :=
  let p := p.written revents
  if numEvents > 0 then (p.fillActiveChannels chan numEvents).map fun active => (p, active)
  else some (p, [])

def isReady (pfd : PollFd) : Bool := pfd.revents ≠ 0

@[mk_iff] structure PollResult (p : Poller ι) (revents : List (BitVec 16)) (numEvents : ℤ) : Prop where
  length : revents.length = p.fds.length
  nonneg : ∀ r ∈ revents, 0 ≤ r.toInt
  ignored : ∀ pfd ∈ (p.written revents).fds, pfd.fd < 0 → pfd.revents = 0
  number : numEvents = (p.written revents).fds.countP isReady

instance (p : Poller ι) (revents : List (BitVec 16)) (numEvents : ℤ) :
    Decidable (PollResult p revents numEvents) :=
  have : Decidable (∀ r ∈ revents, 0 ≤ r.toInt) := List.decidableBAll _ revents
  decidable_of_iff _ (pollResult_iff p revents numEvents).symm

variable [DecidableEq ι]

def storeRevents (chan : ι → Channel) (active : List (ι × BitVec 16)) : ι → Channel :=
  active.foldl
    (fun chan (a, revents) =>
      Function.update chan a ((chan a).set_revents (revents.signExtend 32))) chan

/-- The list holds the channels whose entry is ready, once each and in the order of the
entries, and nothing but their `revents` has changed. -/
structure Reported (p : Poller ι) (chan chan' : ι → Channel) (registered : Finset ι)
    (active : List (ι × BitVec 16)) : Prop where
  ready : ∀ c r, (c, r) ∈ active ↔ c ∈ registered ∧
    ∃ pfd ∈ p.fds[(chan c).index.toNat]?, pfd.revents = r ∧ r ≠ 0
  once : (active.map Prod.fst).Nodup
  ordered : active.Pairwise fun x y => (chan x.1).index < (chan y.1).index
  stored : ∀ x ∈ active, chan' x.1 = (chan x.1).set_revents (x.2.signExtend 32)
  others : ∀ c ∉ active.map Prod.fst, chan' c = chan c

theorem storeRevents_of_not_mem {active : List (ι × BitVec 16)} {c : ι}
    (h : c ∉ active.map Prod.fst) (chan : ι → Channel) : storeRevents chan active c = chan c := by
  induction active generalizing chan with
  | nil => rfl
  | cons x active ih =>
    rw [List.map_cons, List.mem_cons, not_or] at h
    exact (ih h.2 _).trans (Function.update_of_ne h.1 _ _)

theorem storeRevents_of_mem {active : List (ι × BitVec 16)} (h : (active.map Prod.fst).Nodup)
    {x : ι × BitVec 16} (hx : x ∈ active) (chan : ι → Channel) :
    storeRevents chan active x.1 = (chan x.1).set_revents (x.2.signExtend 32) := by
  induction active generalizing chan with
  | nil => cases hx
  | cons y active ih =>
    rw [List.map_cons, List.nodup_cons] at h
    rcases List.mem_cons.1 hx with rfl | hx
    · exact (storeRevents_of_not_mem h.1 _).trans (Function.update_self _ _ _)
    · have hne : x.1 ≠ y.1 := fun heq => h.1 (heq ▸ List.mem_map_of_mem hx)
      refine (ih h.2 hx _).trans ?_
      dsimp only
      rw [Function.update_of_ne hne]

theorem storeRevents_alike (chan : ι → Channel) (active : List (ι × BitVec 16)) (c : ι) :
    (storeRevents chan active c).Alike (chan c) := by
  induction active generalizing chan with
  | nil => exact Channel.Alike.refl _
  | cons x active ih =>
    have hrest := ih (Function.update chan x.1 ((chan x.1).set_revents (x.2.signExtend 32)))
    refine ⟨hrest.fd_eq.trans ?_, hrest.events_eq.trans ?_, hrest.index_eq.trans ?_⟩ <;>
    · by_cases hc : c = x.1
      · rw [hc, Function.update_self]
        rfl
      · rw [Function.update_of_ne hc]

omit [DecidableEq ι] in
def ReadyFor (p : Poller ι) (chan : ι → Channel) (pfd : PollFd) (a : ι) : Prop :=
  0 ≤ pfd.revents.toInt ∧
    (pfd.revents ≠ 0 → p.channels[pfd.fd]? = some a ∧ (chan a).fd = pfd.fd)

def readyOf (fds : List PollFd) (order : List ι) : List (ι × BitVec 16) :=
  (fds.zip order).filterMap fun x => if isReady x.1 then some (x.2, x.1.revents) else none

omit [DecidableEq ι] in
/-- With the number of ready entries to find, the scan finds all of them: it stops early only
where none is left. -/
theorem fillFrom_ready {p : Poller ι} {chan : ι → Channel} {fds : List PollFd} {order : List ι}
    (h : List.Forall₂ (ReadyFor p chan) fds order) :
    p.fillFrom chan fds (fds.countP isReady) = some (readyOf fds order) := by
  induction h with
  | nil => rfl
  | @cons pfd a fds order here _ ih =>
    obtain ⟨hnonneg, howner⟩ := here
    by_cases hready : pfd.revents = 0
    · have hzero : ¬ pfd.revents.toInt > 0 := by
        rw [hready]
        decide
      have hnot : isReady pfd = false := by simp [isReady, hready]
      have hlist : readyOf (pfd :: fds) (a :: order) = readyOf fds order := by
        simp [readyOf, hnot]
      rw [List.countP_cons_of_neg (by simp [hnot]), hlist, fillFrom, if_neg hzero]
      split
      · exact ih
      · rename_i hnone
        have hcount : fds.countP isReady = 0 := by omega
        have hnil : readyOf fds order = [] := by
          rw [readyOf, List.filterMap_eq_nil_iff]
          intro x hx
          have hfree := List.countP_eq_zero.1 hcount x.1 (List.of_mem_zip hx).1
          simp [hfree]
        rw [hnil]
    · obtain ⟨hchannel, hfd⟩ := howner hready
      have hpos : pfd.revents.toInt > 0 := by
        have hne : pfd.revents.toInt ≠ 0 := by
          rwa [Ne, ← BitVec.toInt_zero, BitVec.toInt_inj]
        omega
      have hyes : isReady pfd = true := by simpa [isReady] using hready
      have hlist : readyOf (pfd :: fds) (a :: order) = (a, pfd.revents) :: readyOf fds order := by
        simp [readyOf, hyes]
      have hmore : ((fds.countP isReady + 1 : ℕ) : ℤ) > 0 := by omega
      have hless : ((fds.countP isReady + 1 : ℕ) : ℤ) - 1 = fds.countP isReady := by omega
      rw [List.countP_cons_of_pos hyes, fillFrom, if_pos hmore, if_pos hpos, hchannel]
      simp only [if_pos hfd]
      rw [hless, ih, hlist]
      rfl

omit [DecidableEq ι] in
theorem fillFrom_nothing (p : Poller ι) (chan : ι → Channel) (fds : List PollFd) {numEvents : ℤ}
    (h : ¬ numEvents > 0) : p.fillFrom chan fds numEvents = some [] := by
  cases fds with
  | nil => rfl
  | cons pfd fds => rw [fillFrom, if_neg h]

omit [DecidableEq ι] in
theorem getElem?_written {p : Poller ι} {revents : List (BitVec 16)}
    (hlength : revents.length = p.fds.length) {i : ℕ} {pfd : PollFd} (h : p.fds[i]? = some pfd) :
    ∃ r ∈ revents, (p.written revents).fds[i]? = some { pfd with revents := r } := by
  have hi : i < revents.length := hlength ▸ (List.getElem?_eq_some_iff.1 h).1
  refine ⟨revents[i], List.getElem_mem hi, ?_⟩
  rw [written, List.getElem?_zipWith, h, List.getElem?_eq_getElem hi]

omit [DecidableEq ι] in
theorem Represents.poll {p : Poller ι} {chan : ι → Channel} {order : List ι}
    (h : Represents p chan order) {revents : List (BitVec 16)} {numEvents : ℤ}
    (hresult : PollResult p revents numEvents) :
    Represents (p.written revents) chan order ∧
      p.poll chan revents numEvents =
        some (p.written revents, readyOf (p.written revents).fds order) := by
  have hrep : Represents (p.written revents) chan order := by
    refine h.written ?_ fun i pfd hpfd => ?_
    · rw [List.length_zipWith, hresult.length, Nat.min_self]
    · obtain ⟨r, -, hr⟩ := getElem?_written hresult.length hpfd
      exact ⟨r, hr⟩
  refine ⟨hrep, ?_⟩
  have hfill : (p.written revents).fillFrom chan (p.written revents).fds numEvents =
      some (readyOf (p.written revents).fds order) := by
    rw [hresult.number]
    refine fillFrom_ready (List.forall₂_iff_get.2 ⟨hrep.length, fun i hi ho => ?_⟩)
    have hget : order[i]? = some order[i] := List.getElem?_eq_getElem ho
    obtain ⟨old, hold, hof⟩ := h.entry i _ hget
    obtain ⟨r, hr, hnew⟩ := getElem?_written hresult.length hold
    have hentry : (p.written revents).fds.get ⟨i, hi⟩ = { old with revents := r } :=
      (List.getElem?_eq_some_iff.1 hnew).2
    have hmem := List.getElem_mem ho
    rw [hentry]
    refine ⟨hresult.nonneg r hr, fun hne => ?_⟩
    -- an entry with the negated descriptor is not answered
    have hfd : old.fd = (chan order[i]).fd := by
      rcases hof.1 with hsame | hminus
      · exact hsame
      · have hneg : old.fd < 0 := by
          have := h.descriptor _ hmem
          omega
        exact absurd (hresult.ignored _ (List.mem_of_getElem? hnew) hneg) hne
    rw [List.get_eq_getElem]
    exact ⟨(hrep.owner _ _).2 ⟨hmem, hfd.symm⟩, hfd.symm⟩
  unfold Poller.poll
  dsimp only
  split
  · rw [fillActiveChannels, hfill]
    rfl
  · rename_i hnone
    rw [fillFrom_nothing _ _ _ hnone] at hfill
    rw [← Option.some.inj hfill]

theorem Represents.reported {p : Poller ι} {chan : ι → Channel} {order : List ι}
    (h : Represents p chan order) {registered : Finset ι}
    (hmem : ∀ c, c ∈ order ↔ c ∈ registered) :
    Reported p chan (storeRevents chan (readyOf p.fds order)) registered (readyOf p.fds order) := by
  have hordered : (readyOf p.fds order).Pairwise fun x y => (chan x.1).index < (chan y.1).index := by
    rw [readyOf, List.pairwise_filterMap, List.pairwise_iff_getElem]
    intro i j hi hj hij x hx y hy
    rw [List.length_zip] at hi hj
    have hindex : ∀ (k : ℕ) (hk : k < order.length), (chan order[k]).index = k := fun k hk =>
      h.index k _ (List.getElem?_eq_getElem hk)
    rw [List.getElem_zip] at hx hy
    simp only [Option.ite_none_right_eq_some, Option.some.injEq] at hx hy
    rw [← hx.2, ← hy.2, hindex i (by omega), hindex j (by omega)]
    exact_mod_cast hij
  have honce : ((readyOf p.fds order).map Prod.fst).Nodup := by
    rw [List.Nodup, List.pairwise_map]
    refine hordered.imp fun hlt heq => ?_
    rw [heq] at hlt
    exact lt_irrefl _ hlt
  refine ⟨?_, honce, hordered, fun x hx => storeRevents_of_mem honce hx chan,
    fun c hc => storeRevents_of_not_mem hc chan⟩
  intro c r
  rw [← hmem, readyOf, List.mem_filterMap]
  constructor
  · rintro ⟨⟨pfd, a⟩, hx, hready⟩
    obtain ⟨i, hi⟩ := List.mem_iff_getElem?.1 hx
    rw [List.getElem?_zip_eq_some] at hi
    simp only [Option.ite_none_right_eq_some, Option.some.injEq, Prod.mk.injEq] at hready
    obtain ⟨hne, rfl, rfl⟩ := hready
    refine ⟨List.mem_of_getElem? hi.2, pfd, ?_, rfl, by simpa [isReady] using hne⟩
    rw [h.index i a hi.2, Int.toNat_natCast]
    exact hi.1
  · rintro ⟨hc, pfd, hpfd, rfl, hne⟩
    obtain ⟨-, hget⟩ := h.index_of_mem hc
    refine ⟨(pfd, c), List.mem_of_getElem? (List.getElem?_zip_eq_some.2 ⟨hpfd, hget⟩), if_pos ?_⟩
    simpa [isReady] using hne

namespace Table

inductive Event (ι : Type*) where
  | call (a : Call ι)
  | poll (revents : List (BitVec 16)) (numEvents : ℤ)

def event (t : Table ι) : Event ι → Option (Table ι)
  | .call a => t.call a
  | .poll revents numEvents =>
    (t.poller.poll t.chan revents numEvents).map fun (p, active) =>
      { t with poller := p, chan := storeRevents t.chan active }

def ValidEvent (t : Table ι) (e : Event ι) (_ : Option (Table ι)) : Prop :=
  match e with
  | .call a => t.ValidCall a
  | .poll revents numEvents => PollResult t.poller revents numEvents

instance (t : Table ι) (e : Event ι) (o : Option (Table ι)) : Decidable (t.ValidEvent e o) := by
  cases e <;> unfold ValidEvent <;> infer_instance

/-- A poll passes the assertions of the scan, and reports the ready channels. -/
def ReportsReady (t : Table ι) (e : Event ι) (o : Option (Table ι)) : Prop :=
  match e with
  | .call _ => True
  | .poll revents numEvents => ∃ u active, o = some u ∧
      t.poller.poll t.chan revents numEvents = some (u.poller, active) ∧
      u.poller = t.poller.written revents ∧
      Reported u.poller t.chan u.chan t.registered active

theorem poll_invariant {t : Table ι} (h : Invariant t) {revents : List (BitVec 16)} {numEvents : ℤ}
    (hresult : PollResult t.poller revents numEvents) :
    ∃ u, t.event (.poll revents numEvents) = some u ∧ Invariant u ∧
      ReportsReady t (.poll revents numEvents) (some u) := by
  obtain ⟨order, hrep, hmem⟩ := h.table
  obtain ⟨hwritten, hpoll⟩ := hrep.poll hresult
  have halike := storeRevents_alike t.chan (readyOf (t.poller.written revents).fds order)
  refine ⟨_, by rw [event, hpoll]; rfl, ?_, _, _, rfl, hpoll, rfl, hwritten.reported hmem⟩
  constructor
  · exact ⟨order, hwritten.alike fun a _ => halike a, hmem⟩
  · intro c hc hc'
    rw [(halike c).index_eq]
    exact h.unused c hc hc'
  · intro c
    rw [(halike c).events_eq]
    exact h.known c
  · intro c
    rw [(halike c).fd_eq]
    exact h.descriptor c

/-- In every run of valid calls and of polls, each poll reports exactly the ready channels. -/
theorem reportsReady_of_every_poll (fd : ι → ℤ) (hfd : ∀ c, 0 ≤ fd c) (events : List (Event ι))
    (hvalid : Along event ValidEvent (start fd) events) :
    Along event ReportsReady (start fd) events := by
  refine along_of_invariant Invariant ?_ ?_ events (start_invariant hfd) hvalid
  · intro t e h hstep
    cases e with
    | call a => trivial
    | poll revents numEvents =>
      obtain ⟨u, hu, -, hreports⟩ := poll_invariant h hstep
      rw [hu]
      exact hreports
  · intro t e u h hstep heq
    cases e with
    | call a =>
      obtain ⟨v, hv, hinv⟩ := call_invariant h hstep
      obtain rfl := Option.some.inj (heq.symm.trans hv)
      exact hinv
    | poll revents numEvents =>
      obtain ⟨v, hv, hinv, -⟩ := poll_invariant h hstep
      obtain rfl := Option.some.inj (heq.symm.trans hv)
      exact hinv

/-- One of three channels is silenced; then the last one takes its entry. -/
theorem reportsReady_of_two_polls :
    Along event ReportsReady (start fun c : Fin 3 => 5 + (c : ℤ))
      [.call (.update .enableReading 0), .call (.update .enableReading 1),
        .call (.update .enableWriting 2), .call (.update .disableAll 0), .poll [0, 1, 4] 2,
        .call (.remove 0), .poll [4, 0] 1] :=
  reportsReady_of_every_poll _ (by decide) _ (by decide +kernel)

end Table
end HydrogenWeb.Poller
