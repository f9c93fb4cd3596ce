import HydrogenWeb.TransitionRuns

set_option autoImplicit false

/-!
# EventLoopThreadPool and the loops that TcpServer gives to its connections

Loops are names in `ι`. `threads i` is the loop that `EventLoopThread::start` returns for
the thread number `i`.
-/
namespace HydrogenWeb
open TransitionRuns

structure EventLoopThreadPool (ι : Type*) where
  mainLoop : ι
  numThreads : ℕ
  nextIndex : ℕ
  started : Bool
  loops : List ι

namespace EventLoopThreadPool

variable {ι : Type*}

def create (loop : ι) (numThreads : ℕ) : EventLoopThreadPool ι := ⟨loop, numThreads, 0, false, []⟩

/-- Each `EventLoopThread` is a temporary whose destructor joins its thread before the next
is made, so the call only returns if every thread `ends`. -/
def run (p : EventLoopThreadPool ι) (threads : ℕ → ι) (ends : ℕ → Bool) :
    Option (EventLoopThreadPool ι) :=
  if p.started then none
  else if (List.range p.numThreads).all ends then
    some { p with started := true, loops := p.loops ++ (List.range p.numThreads).map threads }
  else none

/-- `none` is an access outside `_loops`. -/
def nextLoop (p : EventLoopThreadPool ι) : Option (ι × EventLoopThreadPool ι) :=
  if p.loops.isEmpty then some (p.mainLoop, p)
  else
    match p.loops[p.nextIndex]? with
    | none => none
    | some loop =>
      let nextIndex := p.nextIndex + 1
      some (loop, { p with nextIndex := if nextIndex = p.loops.length then 0 else nextIndex })

end EventLoopThreadPool

/-- What `TcpServer` does with its pool; `assigned` records the loop of each connection. -/
structure ConnectionSpread (ι : Type*) where
  loop : ι
  threadPool : EventLoopThreadPool ι
  started : Bool
  listening : Bool
  newConnId : ℕ
  assigned : List ι

namespace ConnectionSpread

variable {ι : Type*}

inductive Action where
  | run
  | newConnectionHandler

def create (loop : ι) (numThreads : ℕ) : ConnectionSpread ι :=
  ⟨loop, .create loop numThreads, false, false, 0, []⟩

def run (s : ConnectionSpread ι) : ConnectionSpread ι := { s with started := true, listening := true }

def newConnectionHandler (s : ConnectionSpread ι) : Option (ConnectionSpread ι) :=
  s.threadPool.nextLoop.map fun (itsLoop, threadPool) =>
    { s with threadPool, newConnId := s.newConnId + 1, assigned := s.assigned ++ [itsLoop] }

/-- The acceptor only calls back after `listen`. -/
def step (s : ConnectionSpread ι) : Action → Option (ConnectionSpread ι)
  | .run => some s.run
  | .newConnectionHandler => if s.listening then s.newConnectionHandler else none

structure Spread [DecidableEq ι] (n : ℕ) (loop : ι) (threads : ℕ → ι) (assigned : List ι) :
    Prop where
  inTurn : ∀ k < assigned.length, assigned[k]? = some (threads (k % n))
  balanced : ∀ i < n, ∀ j < n, assigned.count (threads i) ≤ assigned.count (threads j) + 1
  notMain : loop ∉ assigned

theorem accepted_without_loops {s : ConnectionSpread ι} (hlisten : s.listening = true)
    (hnone : s.threadPool.loops = []) (m : ℕ) : ∃ u,
    TransitionRuns.run step s (List.replicate m .newConnectionHandler) = some u ∧
      u.assigned = s.assigned ++ List.replicate m s.threadPool.mainLoop := by
  induction m generalizing s with
  | zero => exact ⟨s, rfl, (List.append_nil _).symm⟩
  | succ m ih =>
    let next : ConnectionSpread ι := { s with
      newConnId := s.newConnId + 1, assigned := s.assigned ++ [s.threadPool.mainLoop] }
    have hstep : step s .newConnectionHandler = some next := by
      simp [step, hlisten, newConnectionHandler, EventLoopThreadPool.nextLoop, hnone, next]
    obtain ⟨u, hu, hassigned⟩ := ih (s := next) hlisten hnone
    refine ⟨u, ?_, ?_⟩
    · rw [List.replicate_succ, run_cons, hstep]
      exact hu
    · rw [hassigned, List.replicate_succ, ← List.append_cons]

theorem next_mod {n : ℕ} (hn : 1 ≤ n) (j : ℕ) :
    (if j % n + 1 = n then 0 else j % n + 1) = (j + 1) % n := by
  have hlt := Nat.mod_lt j hn
  have hsame : (j + 1) % n = (j % n + 1) % n := (Nat.mod_add_mod j n 1).symm
  split_ifs with hlast
  · rw [hsame, hlast, Nat.mod_self]
  · rw [hsame]
    exact (Nat.mod_eq_of_lt (by omega)).symm

theorem accepted_with_loops {n : ℕ} (hn : 1 ≤ n) {threads : ℕ → ι} {s : ConnectionSpread ι}
    (hlisten : s.listening = true) (hloops : s.threadPool.loops = (List.range n).map threads)
    (j : ℕ) (hindex : s.threadPool.nextIndex = j % n) (m : ℕ) : ∃ u,
    TransitionRuns.run step s (List.replicate m .newConnectionHandler) = some u ∧
      u.assigned = s.assigned ++ (List.range m).map fun k => threads ((j + k) % n) := by
  induction m generalizing s j with
  | zero => exact ⟨s, rfl, (List.append_nil _).symm⟩
  | succ m ih =>
    have hlt := Nat.mod_lt j hn
    have hget : s.threadPool.loops[s.threadPool.nextIndex]? = some (threads (j % n)) := by
      simp [hloops, hindex, hlt]
    have hfull : s.threadPool.loops.isEmpty = false := by
      rw [hloops, List.isEmpty_eq_false_iff, ← List.length_pos_iff, List.length_map,
        List.length_range]
      exact hn
    let next : ConnectionSpread ι := { s with
      threadPool := { s.threadPool with nextIndex := (j + 1) % n }
      newConnId := s.newConnId + 1, assigned := s.assigned ++ [threads (j % n)] }
    have hstep : step s .newConnectionHandler = some next := by
      have hlength : s.threadPool.loops.length = n := by simp [hloops]
      rw [step, if_pos hlisten, newConnectionHandler, EventLoopThreadPool.nextLoop, hfull]
      rw [if_neg (by decide), hget, hlength, hindex]
      simp only [next_mod hn]
      rfl
    obtain ⟨u, hu, hassigned⟩ := ih (s := next) hlisten hloops (j + 1) rfl
    refine ⟨u, ?_, ?_⟩
    · rw [List.replicate_succ, run_cons, hstep]
      exact hu
    · rw [hassigned, List.range_succ_eq_map, List.map_cons, List.map_map, List.append_cons]
      congr 2
      funext k
      change threads ((j + 1 + k) % n) = threads ((j + (k + 1)) % n)
      rw [Nat.add_assoc, Nat.add_comm 1 k]

variable [DecidableEq ι]

theorem count_in_turn {n : ℕ} (hn : 1 ≤ n) {threads : ℕ → ι}
    (hinj : ∀ i < n, ∀ j < n, threads i = threads j → i = j) {i : ℕ} (hi : i < n) (m : ℕ) :
    ((List.range m).map fun k => threads (k % n)).count (threads i) =
      m / n + if i < m % n then 1 else 0 := by
  have hcount : ((List.range m).map fun k => threads (k % n)).count (threads i) =
      m.count (· ≡ i [MOD n]) := by
    induction m with
    | zero => rfl
    | succ m ih =>
      have hsame : threads (m % n) = threads i ↔ m ≡ i [MOD n] := by
        rw [Nat.ModEq, Nat.mod_eq_of_lt hi]
        constructor
        · exact hinj _ (Nat.mod_lt m hn) _ hi
        · exact congrArg threads
      rw [List.range_succ, List.map_append, List.count_append, ih, Nat.count_succ]
      simp [List.count_singleton, hsame]
  rw [hcount, Nat.count_modEq_card _ hn, Nat.mod_eq_of_lt hi]

theorem spread_in_turn {n : ℕ} (hn : 1 ≤ n) {loop : ι} {threads : ℕ → ι}
    (hinj : ∀ i < n, ∀ j < n, threads i = threads j → i = j)
    (hthreads : ∀ i < n, threads i ≠ loop) (m : ℕ) :
    Spread n loop threads ((List.range m).map fun k => threads (k % n)) where
  inTurn := by
    intro k hk
    rw [List.length_map, List.length_range] at hk
    simp [hk]
  balanced := by
    intro i hi j hj
    rw [count_in_turn hn hinj hi, count_in_turn hn hinj hj]
    split_ifs <;> omega
  notMain := by
    intro hmem
    obtain ⟨k, -, hk⟩ := List.mem_map.1 hmem
    exact hthreads _ (Nat.mod_lt k hn) hk

/-- With a pool whose `run` has returned, the connections of every length of run are spread. -/
theorem spread_of_run {n : ℕ} (hn : 1 ≤ n) {loop : ι} {threads : ℕ → ι} {ends : ℕ → Bool}
    (hinj : ∀ i < n, ∀ j < n, threads i = threads j → i = j)
    (hthreads : ∀ i < n, threads i ≠ loop) {pool : EventLoopThreadPool ι}
    (hpool : (EventLoopThreadPool.create loop n).run threads ends = some pool) (m : ℕ) : ∃ s,
    TransitionRuns.run step { create loop n with threadPool := pool }
      (.run :: List.replicate m .newConnectionHandler) = some s ∧
        Spread n loop threads s.assigned := by
  rw [EventLoopThreadPool.run, if_neg (by simp [EventLoopThreadPool.create])] at hpool
  split at hpool
  · cases hpool
    obtain ⟨s, hs, hassigned⟩ := accepted_with_loops hn (s := run { create loop n with
      threadPool := { EventLoopThreadPool.create loop n with
        started := true, loops := [] ++ (List.range n).map threads } }) rfl rfl 0
      (Nat.zero_mod n).symm m
    refine ⟨s, hs, ?_⟩
    have hturn : Spread n loop threads _ := spread_in_turn hn hinj hthreads m
    simpa [hassigned, create, run] using hturn
  · cases hpool

/-- A server with `n` threads that was run gives every connection to the accepting loop, so
it only spreads them if there are none. -/
theorem spread_iff_none_accepted (n : ℕ) (loop : ι) (threads : ℕ → ι) (m : ℕ) : ∃ s,
    TransitionRuns.run step (create loop n) (.run :: List.replicate m .newConnectionHandler) =
      some s ∧ s.assigned = List.replicate m loop ∧
      (Spread n loop threads s.assigned ↔ m = 0) := by
  obtain ⟨s, hs, hassigned⟩ := accepted_without_loops (s := run (create loop n)) rfl rfl m
  change s.assigned = List.replicate m loop at hassigned
  refine ⟨s, hs, hassigned, ?_⟩
  rw [hassigned]
  constructor
  · intro hspread
    by_contra hm
    apply hspread.notMain
    exact List.mem_replicate.2 ⟨hm, rfl⟩
  · rintro rfl
    constructor
    · simp
    · simp
    · simp

/-- One accepted connection goes to the loop of the acceptor. -/
theorem one_connection_not_spread : ∃ s,
    TransitionRuns.run step (create 9 2) [.run, .newConnectionHandler] = some s ∧
      ¬ Spread 2 9 id s.assigned :=
  ⟨_, rfl, fun h => h.notMain List.mem_cons_self⟩

end ConnectionSpread
end HydrogenWeb
