import HydrogenWeb.EchoServer
import HydrogenWeb.TransitionRuns

set_option autoImplicit false

/-!
# The multiplexing echo server

One thread serves all clients: a turn of its loop asks `select` which descriptors are ready, accepts
at most one client and sends each ready one a line. Standard input is the connection `0`.
-/
namespace HydrogenWeb.Echo
open Riob Rio TransitionRuns

def FD_SETSIZE : ℤ := 1024

def STDIN_FILENO : ℤ := 0

structure ClientPool where
  fds : Std.ExtTreeMap ℤ Riob compare
  readSet : Finset ℤ
  maxfd : ℤ

/-- `table` has the numbers of the connections behind the open descriptors, and `reported` says how
often `select` reported a connection. -/
structure EchoServerm where
  pool : ClientPool
  byteCount : ℤ
  usrbuf : UserBuf
  accepted : List ℤ
  table : ℤ → Option ℕ
  output : ℕ → Receiver
  reported : ℕ → ℕ
  closed : List ℕ

/-- The answers of `select` and `Accept` in one turn, and the order of the map. -/
structure Answer where
  readySet : Finset ℤ
  connfd : ℤ
  order : List ℤ

namespace EchoServerm

def create (listenfd : ℤ) (input : ℕ → Descriptor) (output : ℕ → Receiver) (usrbuf : UserBuf) :
    EchoServerm where
  pool := ⟨(∅ : Std.ExtTreeMap ℤ Riob compare).insert STDIN_FILENO (Riob.create (input 0)),
    {listenfd, STDIN_FILENO}, listenfd⟩
  byteCount := 0
  usrbuf := usrbuf
  accepted := [STDIN_FILENO]
  table := Function.update (fun _ => none) STDIN_FILENO (some 0)
  output := output
  reported := fun _ => 0
  closed := []

def accept (s : EchoServerm) (input : ℕ → Descriptor) (connfd : ℤ) : EchoServerm :=
  { s with
    pool := ⟨s.pool.fds.insert connfd (Riob.create (input s.accepted.length)),
      insert connfd s.pool.readSet, max connfd s.pool.maxfd⟩
    accepted := s.accepted ++ [connfd]
    table := Function.update s.table connfd (some s.accepted.length) }

/-- The body of the loop over the map, for a descriptor that is ready. -/
def serve (s : EchoServerm) (fd : ℤ) : Option EchoServerm := do
  let riob ← s.pool.fds[fd]?
  let i ← s.table fd
  let (n, data, riob) ← riob.readlineb MAXLINE
  let s := { s with
    pool := { s.pool with fds := s.pool.fds.insert fd riob }
    reported := Function.update s.reported i (s.reported i + 1) }
  if 0 < n then do
    let usrbuf ← fill s.usrbuf (data ++ [0])
    let (_, out) ← writen (s.output i) usrbuf (sizeOfSsize n)
    some { s with
      usrbuf, byteCount := s.byteCount + n, output := Function.update s.output i out }
  else if n = 0 then
    some { s with
      pool := { s.pool with readSet := s.pool.readSet.erase fd }
      table := Function.update s.table fd none, closed := s.closed ++ [i] }
  else do
    let usrbuf ← fill s.usrbuf data
    some { s with usrbuf }

def serveReady (readySet : Finset ℤ) : List ℤ → EchoServerm → Option EchoServerm
  | [], s => some s
  | fd :: order, s =>
    if fd ∈ readySet then (s.serve fd).bind (serveReady readySet order)
    else serveReady readySet order s

def acceptReady (s : EchoServerm) (listenfd : ℤ) (input : ℕ → Descriptor) (a : Answer) :
    EchoServerm :=
  if listenfd ∈ a.readySet then s.accept input a.connfd else s

/-- `select` reports descriptors of its set below its bound, `Accept` returns a number that is not
open and that fits into an `fd_set`, and the loop visits every entry of the map once. -/
def Possible (s : EchoServerm) (listenfd : ℤ) (input : ℕ → Descriptor) (a : Answer) : Prop :=
  a.readySet ⊆ s.pool.readSet.filter (· < s.pool.maxfd + 1) ∧
    (listenfd ∈ a.readySet → 0 ≤ a.connfd ∧ a.connfd < FD_SETSIZE ∧ a.connfd ≠ listenfd ∧
      s.table a.connfd = none) ∧
    a.order.Perm (s.acceptReady listenfd input a).pool.fds.keys

instance (s : EchoServerm) (listenfd : ℤ) (input : ℕ → Descriptor) (a : Answer) :
    Decidable (s.Possible listenfd input a) :=
  inferInstanceAs (Decidable (_ ∧ _ ∧ _))

/-- A turn of the loop; `none` also where it goes wrong. -/
def turn (listenfd : ℤ) (input : ℕ → Descriptor) (s : EchoServerm) (a : Answer) :
    Option EchoServerm :=
  if s.Possible listenfd input a then
    serveReady a.readySet a.order (s.acceptReady listenfd input a)
  else none

end EchoServerm

def pieces (k : ℕ) : ℕ → List UInt8 → List (List UInt8)
  | 0, _ => []
  | fuel + 1, s =>
    if s = [] then [] else piece k s :: pieces k fuel (s.drop (lineOf k s).length)

def rounds (s : List UInt8) : List (List UInt8) := pieces (MAXLINE - 1) s.length s

theorem pieces_nil (k fuel : ℕ) : pieces k fuel [] = [] := by
  cases fuel <;> rfl

theorem pieces_fuel {k : ℕ} (hk : 0 < k) {m n : ℕ} {s : List UInt8} (hm : s.length ≤ m)
    (hn : s.length ≤ n) : pieces k m s = pieces k n s := by
  induction m generalizing n s with
  | zero =>
    rw [List.length_eq_zero_iff.1 (Nat.le_zero.1 hm), pieces_nil, pieces_nil]
  | succ m ih =>
    by_cases hs : s = []
    · rw [hs, pieces_nil, pieces_nil]
    · have hless := drop_line_lt hk hs
      obtain ⟨l, rfl⟩ : ∃ l, n = l + 1 := ⟨n - 1, by omega⟩
      rw [pieces, pieces, if_neg hs, if_neg hs, ih (n := l) (by omega) (by omega)]

theorem rounds_nil : rounds [] = [] := rfl

theorem rounds_cons {s : List UInt8} (hs : s ≠ []) : rounds s =
    piece (MAXLINE - 1) s :: rounds (s.drop (lineOf (MAXLINE - 1) s).length) := by
  have hless := drop_line_lt (k := MAXLINE - 1) (by decide) hs
  obtain ⟨m, hm⟩ : ∃ m, s.length = m + 1 := ⟨s.length - 1, by omega⟩
  rw [rounds, hm, pieces, if_neg hs, rounds,
    pieces_fuel (n := (s.drop (lineOf (MAXLINE - 1) s).length).length) (by decide) (by omega) le_rfl]

theorem rounds_flatten (s : List UInt8) :
    (rounds s).flatten = echoed (MAXLINE - 1) (MAXLINE - 1) s := by
  induction hlength : s.length using Nat.strong_induction_on generalizing s with
  | _ n ih =>
    by_cases hs : s = []
    · rw [hs]
      rfl
    · have hless := drop_line_lt (k := MAXLINE - 1) (by decide) hs
      rw [rounds_cons hs, List.flatten_cons, ih _ (hlength ▸ hless) _ rfl,
        ← echoed_piece (by decide) hs]

/-- Where the server is with a connection: it has sent one piece for each report. -/
structure Echoing (stream : List UInt8) (reported : ℕ) (received left : List UInt8) : Prop where
  bounded : reported ≤ (rounds stream).length
  sent : received = ((rounds stream).take reported).flatten
  rest : rounds left = (rounds stream).drop reported

theorem Echoing.start (stream : List UInt8) : Echoing stream 0 [] stream :=
  ⟨Nat.zero_le _, rfl, rfl⟩

theorem Echoing.next {stream received left : List UInt8} {reported : ℕ}
    (h : Echoing stream reported received left) (hne : left ≠ []) :
    Echoing stream (reported + 1) (received ++ piece (MAXLINE - 1) left)
      (left.drop (lineOf (MAXLINE - 1) left).length) := by
  have hrest := h.rest
  rw [rounds_cons hne] at hrest
  have hlt : reported < (rounds stream).length := by
    by_contra hcon
    rw [List.drop_eq_nil_of_le (Nat.not_lt.1 hcon)] at hrest
    cases hrest
  rw [List.drop_eq_getElem_cons hlt, List.cons.injEq] at hrest
  refine ⟨hlt, ?_, hrest.2⟩
  rw [List.take_succ_eq_append_getElem hlt, List.flatten_append, ← h.sent, hrest.1]
  simp

theorem Echoing.done {stream received : List UInt8} {reported : ℕ}
    (h : Echoing stream reported received []) : reported = (rounds stream).length ∧
      received = echoed (MAXLINE - 1) (MAXLINE - 1) stream := by
  have hle := List.drop_eq_nil_iff.1 (h.rest.symm.trans rounds_nil)
  refine ⟨le_antisymm h.bounded hle, ?_⟩
  rw [h.sent, List.take_of_length_le hle, rounds_flatten]

namespace EchoServerm

structure Invariant (listenfd : ℤ) (input : ℕ → Descriptor) (s : EchoServerm) : Prop where
  listener : s.pool.fds[listenfd]? = none
  readSet : ∀ fd, fd ∈ s.pool.readSet ↔ fd = listenfd ∨ s.table fd ≠ none
  below : ∀ fd ∈ s.pool.readSet, fd ≤ s.pool.maxfd
  numbered : ∀ fd i, s.table fd = some i → fd ≠ listenfd ∧ s.accepted[i]? = some fd
  served : ∀ fd i, s.table fd = some i → ∃ riob, s.pool.fds[fd]? = some riob ∧ Good riob ∧
    Echoing (input i).rest (s.reported i) (s.output i).received riob.left
  finished : ∀ i fd, s.accepted[i]? = some fd → (i ∈ s.closed ↔ s.table fd ≠ some i)
  silent : ∀ i, s.accepted.length ≤ i → s.reported i = 0 ∧ (s.output i).received = []
  ended : ∀ i ∈ s.closed, s.reported i = (rounds (input i).rest).length + 1 ∧
    (s.output i).received = echoed (MAXLINE - 1) (MAXLINE - 1) (input i).rest
  arrived : ∀ i ∈ s.closed, i < s.accepted.length
  once : s.closed.Nodup
  usrbuf : s.usrbuf.bytes.length = MAXLINE
  healthy : ∀ i, Healthy (s.output i)

variable {listenfd : ℤ} {input : ℕ → Descriptor} {s u : EchoServerm} {fd : ℤ} {i : ℕ}

theorem getElem?_insert (m : Std.ExtTreeMap ℤ Riob compare) (k : ℤ) (v : Riob) (l : ℤ) :
    (m.insert k v)[l]? = if k = l then some v else m[l]? := by
  rw [Std.ExtTreeMap.getElem?_insert]
  simp only [Std.LawfulEqCmp.compare_eq_iff_eq]

/-- No two descriptors have one number. -/
theorem Invariant.same (h : Invariant listenfd input s) {c : ℤ} (hfd : s.table fd = some i)
    (hc : s.table c = some i) : c = fd :=
  Option.some.inj ((h.numbered c i hc).2.symm.trans (h.numbered fd i hfd).2)

theorem Invariant.lt_length (h : Invariant listenfd input s) (hfd : s.table fd = some i) :
    i < s.accepted.length :=
  (List.getElem?_eq_some_iff.1 (h.numbered fd i hfd).2).1

theorem Invariant.notMem_closed (h : Invariant listenfd input s) (hfd : s.table fd = some i) :
    i ∉ s.closed :=
  fun hcon => (h.finished i fd (h.numbered fd i hfd).2).1 hcon hfd

theorem table_of_update_none {table : ℤ → Option ℕ} {c : ℤ}
    (h : Function.update table fd none c = some i) : c ≠ fd ∧ table c = some i := by
  by_cases hc : c = fd
  · rw [hc, Function.update_self] at h
    cases h
  · rw [Function.update_of_ne hc] at h
    exact ⟨hc, h⟩

/-- A client that has sent something gets a piece. -/
theorem Invariant.line (h : Invariant listenfd input s) (hfd : s.table fd = some i) {riob : Riob}
    (hentry : s.pool.fds[fd]? = some riob) (hne : riob.left ≠ []) :
    ∃ u, s.serve fd = some u ∧ Invariant listenfd input u ∧ u.table = s.table ∧
      u.reported = Function.update s.reported i (s.reported i + 1) := by
  obtain ⟨riob₀, hentry₀, hgood, hechoing⟩ := h.served fd i hfd
  cases hentry₀.symm.trans hentry
  obtain ⟨n, data, riob', usrbuf', hcall, hgood', hn, hle, hfill, hlength, hpiece, hleft⟩ :=
    read_turn h.usrbuf hgood hne
  obtain ⟨out, hwriten, hhealthy, hreceived⟩ := write_turn (hlength ▸ hle) (h.healthy i)
  have hpos : (0 : ℤ) < n := Int.natCast_pos.2 hn
  refine ⟨{ s with
    pool := { s.pool with fds := s.pool.fds.insert fd riob' }
    reported := Function.update s.reported i (s.reported i + 1)
    usrbuf := usrbuf', byteCount := s.byteCount + n
    output := Function.update s.output i out }, ?_, ?_, rfl, rfl⟩
  · rw [serve, hentry, hfd]
    simp only [Option.bind_eq_bind, Option.bind_some, hcall, if_pos hpos, hfill,
      sizeOfSsize_of_le hle, hwriten]
  · have hlt := h.lt_length hfd
    have hopen := h.notMem_closed hfd
    refine ⟨?_, h.readSet, h.below, h.numbered, ?_, h.finished, ?_, ?_, h.arrived, h.once, hlength,
      ?_⟩
    · dsimp only
      rw [getElem?_insert, if_neg (h.numbered fd i hfd).1, h.listener]
    · intro c j hc
      dsimp only at hc ⊢
      rw [getElem?_insert]
      by_cases hcfd : fd = c
      · subst hcfd
        cases hfd.symm.trans hc
        refine ⟨riob', if_pos rfl, hgood', ?_⟩
        rw [Function.update_self, Function.update_self, hreceived, hpiece, hleft]
        exact hechoing.next hne
      · have hji : j ≠ i := by
          rintro rfl
          exact hcfd (h.same hc hfd)
        rw [if_neg hcfd, Function.update_of_ne hji, Function.update_of_ne hji]
        exact h.served c j hc
    · intro j hj
      dsimp only at hj ⊢
      rw [Function.update_of_ne (by omega), Function.update_of_ne (by omega)]
      exact h.silent j hj
    · intro j hj
      have hji : j ≠ i := by
        rintro rfl
        exact hopen hj
      dsimp only
      rw [Function.update_of_ne hji, Function.update_of_ne hji]
      exact h.ended j hj
    · intro j
      by_cases hj : j = i
      · subst hj
        exact (congrArg Healthy (Function.update_self ..)).mpr hhealthy
      · exact (congrArg Healthy (Function.update_of_ne hj ..)).mpr (h.healthy j)

/-- A client that has sent all gets its descriptor closed. -/
theorem Invariant.eof (h : Invariant listenfd input s) (hfd : s.table fd = some i) {riob : Riob}
    (hentry : s.pool.fds[fd]? = some riob) (hnil : riob.left = []) :
    ∃ u, s.serve fd = some u ∧ Invariant listenfd input u ∧
      u.table = Function.update s.table fd none ∧
        u.reported = Function.update s.reported i (s.reported i + 1) := by
  obtain ⟨riob₀, hentry₀, hgood, hechoing⟩ := h.served fd i hfd
  cases hentry₀.symm.trans hentry
  obtain ⟨riob', hcall, -, -⟩ := readlineb_end hgood hnil
  rw [hnil] at hechoing
  obtain ⟨hreported, hreceived⟩ := hechoing.done
  obtain ⟨hlisten, harrived⟩ := h.numbered fd i hfd
  refine ⟨{ s with
    pool := { s.pool with
      fds := s.pool.fds.insert fd riob', readSet := s.pool.readSet.erase fd }
    reported := Function.update s.reported i (s.reported i + 1)
    table := Function.update s.table fd none, closed := s.closed ++ [i] }, ?_, ?_, rfl, rfl⟩
  · rw [serve, hentry, hfd]
    simp only [Option.bind_eq_bind, Option.bind_some, hcall, if_neg (lt_irrefl (0 : ℤ)), if_true]
  · have hlt := h.lt_length hfd
    have hopen := h.notMem_closed hfd
    refine ⟨?_, ?_, ?_, ?_, ?_, ?_, ?_, ?_, ?_, ?_, h.usrbuf, h.healthy⟩
    · dsimp only
      rw [getElem?_insert, if_neg hlisten, h.listener]
    · intro c
      dsimp only
      rw [Finset.mem_erase, h.readSet]
      by_cases hcfd : c = fd
      · subst hcfd
        simp [hlisten]
      · simp [hcfd]
    · exact fun c hc => h.below c (Finset.mem_of_mem_erase hc)
    · exact fun c j hc => h.numbered c j (table_of_update_none hc).2
    · intro c j hc
      obtain ⟨hcfd, hold⟩ := table_of_update_none hc
      have hji : j ≠ i := by
        rintro rfl
        exact hcfd (h.same hfd hold)
      dsimp only
      rw [getElem?_insert, if_neg (Ne.symm hcfd), Function.update_of_ne hji]
      exact h.served c j hold
    · intro j c hj
      dsimp only at hj ⊢
      rw [List.mem_append, List.mem_singleton, h.finished j c hj]
      by_cases hcfd : c = fd
      · subst hcfd
        rw [Function.update_self, hfd]
        by_cases hji : j = i
        · simp [hji]
        · simp [hji, Ne.symm hji]
      · have hji : j ≠ i := by
          rintro rfl
          exact hcfd (Option.some.inj (hj.symm.trans harrived))
        rw [Function.update_of_ne hcfd]
        simp [hji]
    · intro j hj
      dsimp only at hj ⊢
      rw [Function.update_of_ne (by omega)]
      exact h.silent j hj
    · intro j hj
      dsimp only
      rcases List.mem_append.1 hj with hold | hnew
      · have hji : j ≠ i := by
          rintro rfl
          exact hopen hold
        rw [Function.update_of_ne hji]
        exact h.ended j hold
      · rw [List.mem_singleton.1 hnew, Function.update_self, hreported]
        exact ⟨rfl, hreceived⟩
    · intro j hj
      rcases List.mem_append.1 hj with hj | hj
      · exact h.arrived j hj
      · rw [List.mem_singleton.1 hj]
        exact hlt
    · refine h.once.append (List.nodup_singleton i) ?_
      rw [List.disjoint_singleton]
      exact hopen

theorem Invariant.serve (h : Invariant listenfd input s) (hfd : s.table fd = some i) :
    ∃ u, s.serve fd = some u ∧ Invariant listenfd input u ∧
      (∀ c, c ≠ fd → u.table c = s.table c) ∧ (∀ c j, u.table c = some j → s.table c = some j) ∧
        u.reported = Function.update s.reported i (s.reported i + 1) := by
  obtain ⟨riob, hentry, -⟩ := h.served fd i hfd
  by_cases hnil : riob.left = []
  · obtain ⟨u, hserve, hu, htable, hreported⟩ := h.eof hfd hentry hnil
    refine ⟨u, hserve, hu, ?_, ?_, hreported⟩
    · intro c hc
      rw [htable, Function.update_of_ne hc]
    · intro c j hc
      rw [htable] at hc
      exact (table_of_update_none hc).2
  · obtain ⟨u, hserve, hu, htable, hreported⟩ := h.line hfd hentry hnil
    exact ⟨u, hserve, hu, fun c _ => htable ▸ rfl, fun c j hc => htable ▸ hc, hreported⟩

def ReportedIn (table : ℤ → Option ℕ) (readySet : Finset ℤ) (order : List ℤ) (i : ℕ) : Prop :=
  ∃ fd ∈ order, fd ∈ readySet ∧ table fd = some i

/-- The loop over the map sends every ready client one piece. -/
theorem Invariant.serveReady {readySet : Finset ℤ} {order : List ℤ}
    (h : Invariant listenfd input s) (hnodup : order.Nodup)
    (hopen : ∀ fd ∈ order, fd ∈ readySet → s.table fd ≠ none) :
    ∃ u, EchoServerm.serveReady readySet order s = some u ∧ Invariant listenfd input u ∧
      ∀ i, (ReportedIn s.table readySet order i → u.reported i = s.reported i + 1) ∧
        (¬ ReportedIn s.table readySet order i → u.reported i = s.reported i) := by
  induction order generalizing s with
  | nil =>
    refine ⟨s, rfl, h, fun i => ⟨?_, fun _ => rfl⟩⟩
    rintro ⟨fd, hfd, -⟩
    cases hfd
  | cons fd order ih =>
    obtain ⟨hnotin, hrest⟩ := List.nodup_cons.1 hnodup
    by_cases hready : fd ∈ readySet
    · obtain ⟨i, hfd⟩ := Option.ne_none_iff_exists'.1 (hopen fd List.mem_cons_self hready)
      obtain ⟨v, hserve, hv, hkeep, hback, hreported⟩ := h.serve hfd
      have hne : ∀ c ∈ order, c ≠ fd := by
        rintro c hc rfl
        exact hnotin hc
      obtain ⟨u, hu, hinv, hcount⟩ := ih hv hrest fun c hc hcready => by
        rw [hkeep c (hne c hc)]
        exact hopen c (List.mem_cons_of_mem fd hc) hcready
      refine ⟨u, ?_, hinv, fun j => ?_⟩
      · rw [EchoServerm.serveReady, if_pos hready, hserve, Option.bind_some, hu]
      · by_cases hji : j = i
        · subst hji
          have hnot : ¬ ReportedIn v.table readySet order j := by
            rintro ⟨c, hc, -, hcj⟩
            exact hne c hc (h.same hfd (hback c j hcj))
          have hyes : ReportedIn s.table readySet (fd :: order) j :=
            ⟨fd, List.mem_cons_self, hready, hfd⟩
          refine ⟨fun _ => ?_, fun hcon => absurd hyes hcon⟩
          rw [(hcount j).2 hnot, hreported, Function.update_self]
        · have hiff : ReportedIn s.table readySet (fd :: order) j ↔
              ReportedIn v.table readySet order j := by
            constructor
            · rintro ⟨c, hc, hcready, hcj⟩
              rcases List.mem_cons.1 hc with rfl | hc
              · exact absurd (Option.some.inj (hcj.symm.trans hfd)) hji
              · exact ⟨c, hc, hcready, (hkeep c (hne c hc)).trans hcj⟩
            · rintro ⟨c, hc, hcready, hcj⟩
              exact ⟨c, List.mem_cons_of_mem fd hc, hcready, hback c j hcj⟩
          rw [hiff]
          have hsame : v.reported j = s.reported j := by
            rw [hreported, Function.update_of_ne hji]
          rw [← hsame]
          exact hcount j
    · obtain ⟨u, hu, hinv, hcount⟩ := ih h hrest fun c hc hcready =>
        hopen c (List.mem_cons_of_mem fd hc) hcready
      refine ⟨u, ?_, hinv, fun j => ?_⟩
      · rw [EchoServerm.serveReady, if_neg hready, hu]
      · have hiff : ReportedIn s.table readySet (fd :: order) j ↔
            ReportedIn s.table readySet order j := by
          constructor
          · rintro ⟨c, hc, hcready, hcj⟩
            rcases List.mem_cons.1 hc with rfl | hc
            · exact absurd hcready hready
            · exact ⟨c, hc, hcready, hcj⟩
          · rintro ⟨c, hc, hcready, hcj⟩
            exact ⟨c, List.mem_cons_of_mem fd hc, hcready, hcj⟩
        rw [hiff]
        exact hcount j

/-- A new client gets the next number. -/
theorem Invariant.accept (h : Invariant listenfd input s) (hinput : ∀ i, .failed ∉ (input i).outcomes)
    {connfd : ℤ} (hlisten : connfd ≠ listenfd) (hfree : s.table connfd = none) :
    Invariant listenfd input (s.accept input connfd) where
  listener := by
    change (s.pool.fds.insert connfd _)[listenfd]? = none
    rw [getElem?_insert, if_neg hlisten, h.listener]
  readSet := by
    intro c
    change c ∈ insert connfd s.pool.readSet ↔ c = listenfd ∨ Function.update s.table connfd _ c ≠ none
    rw [Finset.mem_insert, h.readSet]
    by_cases hc : c = connfd
    · subst hc
      simp
    · simp [hc]
  below := by
    intro c hc
    rcases Finset.mem_insert.1 hc with rfl | hc
    · exact le_max_left _ _
    · exact (h.below c hc).trans (le_max_right _ _)
  numbered := by
    intro c j hc
    change Function.update s.table connfd _ c = some j at hc
    change c ≠ listenfd ∧ (s.accepted ++ [connfd])[j]? = some c
    by_cases hcc : c = connfd
    · subst hcc
      rw [Function.update_self] at hc
      cases hc
      exact ⟨hlisten, List.getElem?_concat_length⟩
    · rw [Function.update_of_ne hcc] at hc
      obtain ⟨hne, hj⟩ := h.numbered c j hc
      exact ⟨hne, (List.getElem?_append_left (List.getElem?_eq_some_iff.1 hj).1).trans hj⟩
  served := by
    intro c j hc
    change Function.update s.table connfd _ c = some j at hc
    change ∃ riob, (s.pool.fds.insert connfd _)[c]? = some riob ∧ Good riob ∧ _
    rw [getElem?_insert]
    by_cases hcc : c = connfd
    · subst hcc
      rw [Function.update_self] at hc
      cases hc
      obtain ⟨hreported, hreceived⟩ := h.silent s.accepted.length le_rfl
      refine ⟨_, if_pos rfl, create_good (hinput _), ?_⟩
      change Echoing _ (s.reported s.accepted.length) (s.output s.accepted.length).received _
      rw [hreported, hreceived]
      exact Echoing.start _
    · rw [Function.update_of_ne hcc] at hc
      rw [if_neg (Ne.symm hcc)]
      exact h.served c j hc
  finished := by
    intro j c hj
    change (s.accepted ++ [connfd])[j]? = some c at hj
    change j ∈ s.closed ↔ Function.update s.table connfd _ c ≠ some j
    by_cases hlt : j < s.accepted.length
    · rw [List.getElem?_append_left hlt] at hj
      rw [h.finished j c hj]
      by_cases hcc : c = connfd
      · subst hcc
        rw [Function.update_self, hfree]
        simp [hlt.ne']
      · rw [Function.update_of_ne hcc]
    · rw [List.getElem?_append_right (by omega)] at hj
      obtain ⟨hzero, hc⟩ := List.getElem?_eq_some_iff.1 hj
      rw [List.length_singleton] at hzero
      have hji : j = s.accepted.length := by omega
      rw [List.getElem_singleton] at hc
      subst hc hji
      rw [Function.update_self]
      exact iff_of_false (fun hcon => lt_irrefl _ (h.arrived _ hcon)) (fun hcon => hcon rfl)
  silent := by
    intro j hj
    change (s.accepted ++ [connfd]).length ≤ j at hj
    rw [List.length_append] at hj
    exact h.silent j (by omega)
  ended := h.ended
  arrived := by
    intro j hj
    change j < (s.accepted ++ [connfd]).length
    rw [List.length_append]
    exact Nat.lt_add_right _ (h.arrived j hj)
  once := h.once
  usrbuf := h.usrbuf
  healthy := h.healthy

theorem create_invariant (hlisten : 0 < listenfd) (hinput : ∀ i, .failed ∉ (input i).outcomes)
    {output : ℕ → Receiver} (houtput : ∀ i, Healthy (output i))
    (hfresh : ∀ i, (output i).received = []) {usrbuf : UserBuf}
    (husrbuf : usrbuf.bytes.length = MAXLINE) :
    Invariant listenfd input (create listenfd input output usrbuf) := by
  have hstdin : STDIN_FILENO ≠ listenfd := hlisten.ne
  have htable : ∀ c j, Function.update (fun _ => none) STDIN_FILENO (some 0) c = some j →
      c = STDIN_FILENO ∧ j = 0 := by
    intro c j hc
    by_cases hcc : c = STDIN_FILENO
    · rw [hcc, Function.update_self] at hc
      exact ⟨hcc, (Option.some.inj hc).symm⟩
    · rw [Function.update_of_ne hcc] at hc
      cases hc
  constructor
  · change ((∅ : Std.ExtTreeMap ℤ Riob compare).insert STDIN_FILENO _)[listenfd]? = none
    rw [getElem?_insert, if_neg hstdin, Std.ExtTreeMap.getElem?_empty]
  · intro c
    change c ∈ ({listenfd, STDIN_FILENO} : Finset ℤ) ↔
      _ ∨ Function.update (fun _ => none) STDIN_FILENO (some 0) c ≠ none
    rw [Finset.mem_insert, Finset.mem_singleton]
    by_cases hc : c = STDIN_FILENO
    · simp [hc]
    · simp [hc]
  · intro c hc
    rcases Finset.mem_insert.1 hc with rfl | hc
    · exact le_rfl
    · rw [Finset.mem_singleton.1 hc]
      exact hlisten.le
  · intro c j hc
    obtain ⟨rfl, rfl⟩ := htable c j hc
    exact ⟨hstdin, rfl⟩
  · intro c j hc
    obtain ⟨rfl, rfl⟩ := htable c j hc
    refine ⟨Riob.create (input 0), ?_, create_good (hinput 0), ?_⟩
    · exact (getElem?_insert _ _ _ _).trans (if_pos rfl)
    · change Echoing _ 0 (output 0).received _
      rw [hfresh]
      exact Echoing.start _
  · intro j c hj
    change [STDIN_FILENO][j]? = some c at hj
    obtain ⟨hlt, rfl⟩ := List.getElem?_eq_some_iff.1 hj
    obtain rfl := Nat.lt_one_iff.1 hlt
    have hopen : (create listenfd input output usrbuf).table STDIN_FILENO = some 0 := by
      change Function.update (fun _ => none) STDIN_FILENO (some 0) STDIN_FILENO = some 0
      rw [Function.update_self]
    exact iff_of_false List.not_mem_nil fun hcon => hcon hopen
  · intro j _
    exact ⟨rfl, hfresh j⟩
  · intro j hj
    cases hj
  · intro j hj
    cases hj
  · exact List.nodup_nil
  · exact husrbuf
  · exact houtput

section Turn
variable (h : Invariant listenfd input s) (hinput : ∀ i, .failed ∉ (input i).outcomes) {a : Answer}
  (hpossible : s.Possible listenfd input a)
include h hpossible

theorem Invariant.acceptReady (hinput : ∀ i, .failed ∉ (input i).outcomes) :
    Invariant listenfd input (s.acceptReady listenfd input a) := by
  rw [EchoServerm.acceptReady]
  split_ifs with hready
  · obtain ⟨-, -, hne, hfree⟩ := hpossible.2.1 hready
    exact h.accept hinput hne hfree
  · exact h

/-- The client that has just been accepted is not among the ready ones. -/
theorem Invariant.table_ready {fd : ℤ} (hready : fd ∈ a.readySet) :
    (s.acceptReady listenfd input a).table fd = s.table fd := by
  rw [EchoServerm.acceptReady]
  split_ifs with hlisten
  · obtain ⟨-, -, hne, hfree⟩ := hpossible.2.1 hlisten
    apply Function.update_of_ne
    rintro rfl
    have hset := (Finset.mem_filter.1 (hpossible.1 hready)).1
    exact ((h.readSet _).1 hset).elim hne fun hopen => hopen hfree
  · rfl

end Turn

theorem mem_order {fds : Std.ExtTreeMap ℤ Riob compare} {order : List ℤ} (horder : order.Perm fds.keys)
    {fd : ℤ} : fd ∈ order ↔ fds[fd]? ≠ none := by
  rw [horder.mem_iff, Std.ExtTreeMap.mem_keys, Std.ExtTreeMap.mem_iff_isSome_getElem?,
    Option.isSome_iff_ne_none]

section Turn
variable (h : Invariant listenfd input s) (hinput : ∀ i, .failed ∉ (input i).outcomes) {a : Answer}
  (hpossible : s.Possible listenfd input a)
include h hinput hpossible

/-- The loop over the map reaches exactly the ready clients. -/
theorem Invariant.reportedIn_iff (i : ℕ) :
    ReportedIn (s.acceptReady listenfd input a).table a.readySet a.order i ↔
      ∃ fd ∈ a.readySet, s.table fd = some i := by
  have hnext := h.acceptReady hpossible hinput
  constructor
  · rintro ⟨fd, -, hready, hfd⟩
    exact ⟨fd, hready, (h.table_ready hpossible hready).symm.trans hfd⟩
  · rintro ⟨fd, hready, hfd⟩
    have hopen := (h.table_ready hpossible hready).trans hfd
    obtain ⟨riob, hentry, -⟩ := hnext.served fd i hopen
    refine ⟨fd, (mem_order hpossible.2.2).2 ?_, hready, hopen⟩
    rw [hentry]
    exact Option.some_ne_none riob

/-- A turn that is possible is done, and sends each ready client one piece. -/
theorem Invariant.turn : ∃ u, turn listenfd input s a = some u ∧ Invariant listenfd input u ∧
    ∀ i, ((∃ fd ∈ a.readySet, s.table fd = some i) → u.reported i = s.reported i + 1) ∧
      ((¬ ∃ fd ∈ a.readySet, s.table fd = some i) → u.reported i = s.reported i) := by
  have hnext := h.acceptReady hpossible hinput
  have hreported : (s.acceptReady listenfd input a).reported = s.reported := by
    rw [EchoServerm.acceptReady]
    split_ifs <;> rfl
  have hnodup : a.order.Nodup := hpossible.2.2.nodup_iff.2 Std.ExtTreeMap.nodup_keys
  have hdue : ∀ fd ∈ a.order, fd ∈ a.readySet →
      (s.acceptReady listenfd input a).table fd ≠ none := by
    intro fd hfd hready
    rw [h.table_ready hpossible hready]
    have hset := (Finset.mem_filter.1 (hpossible.1 hready)).1
    refine ((h.readSet fd).1 hset).resolve_left ?_
    rintro rfl
    exact (mem_order hpossible.2.2).1 hfd hnext.listener
  obtain ⟨u, hserve, hu, hcount⟩ := hnext.serveReady hnodup hdue
  refine ⟨u, (if_pos hpossible).trans hserve, hu, fun i => ?_⟩
  rw [← hreported, ← h.reportedIn_iff hinput hpossible i]
  exact hcount i

end Turn

structure Multiplexed (listenfd : ℤ) (input : ℕ → Descriptor) (s : EchoServerm) : Prop where
  selected : ∀ fd, fd ∈ s.pool.readSet ↔ fd = listenfd ∨ s.table fd ≠ none
  below : ∀ fd ∈ s.pool.readSet, fd < s.pool.maxfd + 1
  received : ∀ i fd, s.accepted[i]? = some fd →
    (s.output i).received = ((rounds (input i).rest).take (s.reported i)).flatten
  bounded : ∀ i fd, s.accepted[i]? = some fd → s.reported i ≤ (rounds (input i).rest).length + 1
  closed : ∀ i fd, s.accepted[i]? = some fd →
    (i ∈ s.closed ↔ (rounds (input i).rest).length < s.reported i) ∧
      (i ∈ s.closed ↔ s.table fd ≠ some i)
  echoed : ∀ i ∈ s.closed,
    (s.output i).received = echoed (MAXLINE - 1) (MAXLINE - 1) (input i).rest
  once : s.closed.Nodup

theorem Invariant.multiplexed (h : Invariant listenfd input s) : Multiplexed listenfd input s where
  selected := h.readSet
  below fd hfd := Int.lt_add_one_of_le (h.below fd hfd)
  received i fd hi := by
    by_cases hopen : s.table fd = some i
    · obtain ⟨riob, -, -, hechoing⟩ := h.served fd i hopen
      exact hechoing.sent
    · obtain ⟨hreported, hsent⟩ := h.ended i ((h.finished i fd hi).2 hopen)
      rw [hsent, hreported, List.take_of_length_le (Nat.le_succ _), rounds_flatten]
  bounded i fd hi := by
    by_cases hopen : s.table fd = some i
    · obtain ⟨riob, -, -, hechoing⟩ := h.served fd i hopen
      exact Nat.le_succ_of_le hechoing.bounded
    · exact (h.ended i ((h.finished i fd hi).2 hopen)).1.le
  closed i fd hi := by
    refine ⟨?_, h.finished i fd hi⟩
    by_cases hopen : s.table fd = some i
    · obtain ⟨riob, -, -, hechoing⟩ := h.served fd i hopen
      refine iff_of_false (fun hcon => (h.finished i fd hi).1 hcon hopen) ?_
      exact Nat.not_lt.2 hechoing.bounded
    · have hclosed := (h.finished i fd hi).2 hopen
      refine iff_of_true hclosed ?_
      rw [(h.ended i hclosed).1]
      exact Nat.lt_succ_self _
  echoed i hi := (h.ended i hi).2
  once := h.once

/-- In every run of the loop each client has received a piece of its own lines for each time that
`select` reported it, and no turn that is possible goes wrong. -/
theorem clients_are_multiplexed (hlisten : 0 < listenfd)
    (hinput : ∀ i, .failed ∉ (input i).outcomes) (output : ℕ → Receiver)
    (houtput : ∀ i, Healthy (output i)) (hfresh : ∀ i, (output i).received = []) (usrbuf : UserBuf)
    (husrbuf : usrbuf.bytes.length = MAXLINE) (answers : List Answer) (s : EchoServerm)
    (hrun : run (EchoServerm.turn listenfd input) (create listenfd input output usrbuf) answers =
      some s) :
    Multiplexed listenfd input s ∧ ∀ a, s.Possible listenfd input a →
      ∃ u, s.turn listenfd input a = some u ∧
        ∀ i, ((∃ fd ∈ a.readySet, s.table fd = some i) → u.reported i = s.reported i + 1) ∧
          ((¬ ∃ fd ∈ a.readySet, s.table fd = some i) → u.reported i = s.reported i) := by
  have hs : Invariant listenfd input s := by
    apply run_invariant (Invariant listenfd input) _ _ hrun
    · intro s a u h hstep
      have hpossible : s.Possible listenfd input a := by
        by_contra hno
        rw [EchoServerm.turn, if_neg hno] at hstep
        cases hstep
      obtain ⟨v, hv, hinv, -⟩ := h.turn hinput hpossible
      cases hv.symm.trans hstep
      exact hinv
    · exact create_invariant hlisten hinput houtput hfresh husrbuf
  refine ⟨hs.multiplexed, fun a hpossible => ?_⟩
  obtain ⟨u, hu, -, hcount⟩ := hs.turn hinput hpossible
  exact ⟨u, hu, hcount⟩

def someLines (i : ℕ) : Descriptor :=
  if i = 0 then ⟨bytes "hi\n", []⟩ else ⟨bytes "one\ntwo", [.short 1]⟩

def silentClients (_ : ℕ) : Receiver := ⟨[], [.short 2], false, []⟩

def twoClients : List Answer :=
  [⟨{3}, 4, [4, 0]⟩, ⟨{0, 4}, 0, [0, 4]⟩, ⟨{4}, 0, [4, 0]⟩, ⟨{4}, 0, [0, 4]⟩, ⟨{3}, 4, [0, 4]⟩]

theorem twoClients_run : (run (turn 3 someLines) (create 3 someLines silentClients zeros)
    twoClients).isSome := by
  decide +kernel

theorem clients_are_multiplexed_of_two : ∃ s,
    run (turn 3 someLines) (create 3 someLines silentClients zeros) twoClients = some s ∧
      Multiplexed 3 someLines s := by
  obtain ⟨s, hs⟩ := Option.isSome_iff_exists.1 twoClients_run
  have hinput : ∀ i, .failed ∉ (someLines i).outcomes := by
    intro i
    rw [someLines]
    split_ifs <;> decide
  have houtput : ∀ i, Healthy (silentClients i) := by
    intro i
    rw [silentClients]
    exact ⟨by decide, by decide⟩
  exact ⟨s, hs, (clients_are_multiplexed (by decide) hinput silentClients houtput (fun _ => rfl) zeros
    List.length_replicate twoClients s hs).1⟩

end EchoServerm
end HydrogenWeb.Echo
