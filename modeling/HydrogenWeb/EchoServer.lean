import HydrogenWeb.RobustIoCount
import HydrogenWeb.RobustIoTransfer
import HydrogenWeb.TcpConnectionInput

set_option autoImplicit false

/-!
# The echo servers

All of them serve a client with one loop over `readlineb` and `writen`. The result of the first is
the count of the second, so a line that is not finished is sent with its NUL.
-/
namespace HydrogenWeb.Echo
open Riob Rio HyBuffer

def MAXLINE : ℕ := 8192

theorem begun_fits {buf : UserBuf} {data : List UInt8} (h : data.length ≤ buf.bytes.length) :
    (begun data buf.bytes).length < 2 ^ 63 := by
  have hfits := buf.fits
  rw [begun, List.length_append, List.length_drop]
  omega

/-- A store from the first byte on; `none` is one outside the array. -/
def fill (buf : UserBuf) (data : List UInt8) : Option UserBuf :=
  if h : data.length ≤ buf.bytes.length then some ⟨begun data buf.bytes, begun_fits h⟩ else none

/-- At most `fuel` tests of its condition. -/
def echoLoop : ℕ → UserBuf → Riob → Receiver → Option (Riob × Receiver)
  | 0, _, _, _ => none
  | fuel + 1, buf, riob, connfd => do
    let (ret, data, riob) ← riob.readlineb MAXLINE
    let n := sizeOfSsize ret
    if n = 0 then some (riob, connfd)
    else do
      -- the NUL is not stored where `_read` fails
      let buf ← fill buf (if ret = -1 then data else data ++ [0])
      let (_, connfd) ← writen connfd buf n
      echoLoop fuel buf riob connfd

/-- Both directions of `connfd`, and what the array holds before the first call. -/
def echo (input : Descriptor) (output : Receiver) (buf : UserBuf) : Option (Riob × Receiver) :=
  echoLoop (input.rest.length + 1) buf (create input) output

/-- The stream with a NUL behind every piece that is cut; `room` is left of the `k` bytes of the
piece. -/
def echoed (k : ℕ) : ℕ → List UInt8 → List UInt8
  | room, [] => if room = k then [] else [0]
  | room, c :: s =>
    if c = 10 then c :: echoed k k s
    else if room = 1 then c :: 0 :: echoed k k s
    else c :: echoed k (room - 1) s

/-- The stream ends with a line, and no line is cut. -/
def Lined (k : ℕ) (s : List UInt8) : Prop :=
  s = [] ∨ (s.getLast? = some 10 ∧ ∀ l, l <:+: s → l.length = k → 10 ∈ l)

theorem echoed_filter (k room : ℕ) (s : List UInt8) :
    (echoed k room s).filter (· ≠ 0) = s.filter (· ≠ 0) := by
  induction s generalizing room with
  | nil =>
    rw [echoed]
    split_ifs <;> rfl
  | cons c s ih =>
    rw [echoed]
    split_ifs
    · rw [List.filter_cons, List.filter_cons, ih]
    · rw [List.filter_cons, List.filter_cons, ih]
      simp [List.filter_cons]
    · rw [List.filter_cons, List.filter_cons, ih]

theorem length_le_echoed (k room : ℕ) (s : List UInt8) : s.length ≤ (echoed k room s).length := by
  induction s generalizing room with
  | nil => exact Nat.zero_le _
  | cons c s ih =>
    rw [echoed]
    split_ifs
    · exact Nat.succ_le_succ (ih k)
    · exact Nat.succ_le_succ ((ih k).trans (Nat.le_succ _))
    · exact Nat.succ_le_succ (ih _)

theorem lineOf_nil (k : ℕ) : lineOf k [] = [] := by
  cases k <;> rfl

theorem lineOf_length_le (k : ℕ) (s : List UInt8) : (lineOf k s).length ≤ k := by
  induction k generalizing s with
  | zero => exact le_rfl
  | succ k ih =>
    cases s with
    | nil => exact Nat.zero_le _
    | cons c s =>
      rw [lineOf]
      split_ifs
      · exact Nat.succ_le_succ (Nat.zero_le k)
      · exact Nat.succ_le_succ (ih s)

theorem lineOf_ne_nil {k : ℕ} (hk : 0 < k) {s : List UInt8} (hs : s ≠ []) : lineOf k s ≠ [] := by
  obtain ⟨c, s, rfl⟩ := List.exists_cons_of_ne_nil hs
  obtain ⟨k, rfl⟩ := Nat.exists_eq_succ_of_ne_zero hk.ne'
  rw [lineOf]
  split_ifs <;> exact List.cons_ne_nil _ _

/-- What one round of the loop sends: a line, with a NUL where it is cut. -/
def piece (k : ℕ) (s : List UInt8) : List UInt8 :=
  lineOf k s ++ if NewlineWithin k s then [] else [0]

/-- One round of the loop: a line, a NUL where it is cut, and the rest. -/
theorem echoed_line {k room : ℕ} (hroom : 0 < room) (hle : room ≤ k) {s : List UInt8}
    (hs : s ≠ [] ∨ room ≠ k) : echoed k room s =
      lineOf room s ++ (if NewlineWithin room s then [] else [0]) ++
        echoed k k (s.drop (lineOf room s).length) := by
  induction s generalizing room with
  | nil =>
    have hcut := hs.resolve_left (fun h => h rfl)
    rw [lineOf_nil, if_neg (not_newlineWithin_nil room), echoed, if_neg hcut, List.drop_nil, echoed,
      if_pos rfl]
    rfl
  | cons c s ih =>
    obtain ⟨r, rfl⟩ := Nat.exists_eq_succ_of_ne_zero hroom.ne'
    rw [echoed, lineOf]
    by_cases hc : c = 10
    · have hnew : NewlineWithin (r + 1) (c :: s) := by simp [NewlineWithin, hc]
      rw [if_pos hc, if_pos hc, if_pos hnew]
      rfl
    · simp only [if_neg hc, newlineWithin_cons hc, Nat.succ_eq_add_one]
      by_cases hlast : r = 0
      · subst hlast
        have hnew : ¬ NewlineWithin 0 s := by simp [NewlineWithin]
        rw [if_pos (Nat.zero_add 1), if_neg hnew]
        rfl
      · rw [if_neg (by omega), Nat.add_sub_cancel, ih (by omega) (by omega) (Or.inr (by omega))]
        rfl

theorem newlineWithin_of_windows {k : ℕ} {s : List UInt8} (hlast : s.getLast? = some 10)
    (hwindow : ∀ l, l <:+: s → l.length = k → 10 ∈ l) : NewlineWithin k s := by
  rw [NewlineWithin]
  by_cases hlen : k ≤ s.length
  · apply hwindow
    · exact (List.take_prefix k s).isInfix
    · rw [List.length_take, Nat.min_eq_left hlen]
  · rw [List.take_of_length_le (by omega)]
    exact List.mem_of_getLast? hlast

/-- With `room` left the rest comes back unchanged exactly if its lines end in time. -/
theorem echoed_eq_iff {k room : ℕ} (hroom : 0 < room) (hle : room ≤ k) (s : List UInt8) :
    echoed k room s = s ↔ (s = [] ∧ room = k) ∨
      (s.getLast? = some 10 ∧ NewlineWithin room s ∧ ∀ l, l <:+: s → l.length = k → 10 ∈ l) := by
  induction s generalizing room with
  | nil =>
    rw [echoed]
    split_ifs with hfull
    · simp [hfull]
    · simp [hfull]
  | cons c s ih =>
    have hwindows : (∀ l, l <:+: c :: s → l.length = k → 10 ∈ l) ↔
        (∀ l, l <+: c :: s → l.length = k → 10 ∈ l) ∧ ∀ l, l <:+: s → l.length = k → 10 ∈ l := by
      simp only [List.infix_cons_iff, or_imp, forall_and]
    rw [echoed, hwindows]
    by_cases hc : c = 10
    · subst hc
      have hfirst : ∀ l, l <+: 10 :: s → l.length = k → (10 : UInt8) ∈ l := by
        intro l hl hlen
        cases l with
        | nil =>
          rw [List.length_nil] at hlen
          omega
        | cons d l =>
          rw [(List.cons_prefix_cons.1 hl).1]
          exact List.mem_cons_self
      have hnew : NewlineWithin room (10 :: s) := by
        obtain ⟨r, rfl⟩ := Nat.exists_eq_succ_of_ne_zero hroom.ne'
        simp [NewlineWithin]
      rw [if_pos rfl, List.cons.injEq, ih (by omega) le_rfl]
      cases s with
      | nil => simp_all
      | cons d s =>
        rw [List.getLast?_cons_cons]
        constructor
        · rintro ⟨-, ⟨hcon, -⟩ | ⟨hlast, -, hrest⟩⟩
          · cases hcon
          · exact Or.inr ⟨hlast, hnew, hfirst, hrest⟩
        · rintro (⟨hcon, -⟩ | ⟨hlast, -, -, hrest⟩)
          · cases hcon
          · exact ⟨rfl, Or.inr ⟨hlast, newlineWithin_of_windows hlast hrest, hrest⟩⟩
    · rw [if_neg hc]
      by_cases hlast : room = 1
      · rw [if_pos hlast]
        apply iff_of_false
        · intro hcon
          have hlen := congrArg List.length hcon
          have hle := length_le_echoed k k s
          simp only [List.length_cons] at hlen
          omega
        · rintro (⟨hcon, -⟩ | ⟨-, hnew, -⟩)
          · cases hcon
          · rw [hlast, newlineWithin_cons hc] at hnew
            simp [NewlineWithin] at hnew
      · obtain ⟨r, rfl⟩ : ∃ r, room = r + 1 := ⟨room - 1, by omega⟩
        rw [if_neg hlast, List.cons.injEq, Nat.add_sub_cancel, ih (by omega) (by omega),
          newlineWithin_cons hc]
        have hend : s ≠ [] → (c :: s).getLast? = s.getLast? := by
          intro hs
          obtain ⟨d, t, rfl⟩ := List.exists_cons_of_ne_nil hs
          exact List.getLast?_cons_cons
        constructor
        · rintro ⟨-, ⟨-, hcon⟩ | ⟨hend', hnew, hrest⟩⟩
          · omega
          · have hs : s ≠ [] := by
              rintro rfl
              cases hend'
            refine Or.inr ⟨(hend hs).trans hend', hnew, fun l hl hlen => ?_, hrest⟩
            -- the window begins with what is left of the line
            obtain ⟨m, rfl⟩ : ∃ m, k = m + 1 := ⟨k - 1, by omega⟩
            rw [List.prefix_iff_eq_take.1 hl, hlen, List.take_succ_cons]
            exact List.mem_cons_of_mem _ (List.take_subset_take_left s (by omega) hnew)
        · rintro (⟨hcon, -⟩ | ⟨hend', hnew, -, hrest⟩)
          · cases hcon
          · have hs : s ≠ [] := by
              rintro rfl
              exact not_newlineWithin_nil r hnew
            exact ⟨rfl, Or.inr ⟨(hend hs).symm.trans hend', hnew, hrest⟩⟩

theorem echoed_eq_self_iff {k : ℕ} (hk : 0 < k) (s : List UInt8) :
    echoed k k s = s ↔ Lined k s := by
  rw [echoed_eq_iff hk le_rfl, Lined]
  constructor
  · rintro (⟨hnil, -⟩ | ⟨hlast, -, hwindow⟩)
    · exact Or.inl hnil
    · exact Or.inr ⟨hlast, hwindow⟩
  · rintro (hnil | ⟨hlast, hwindow⟩)
    · exact Or.inl ⟨hnil, rfl⟩
    · exact Or.inr ⟨hlast, newlineWithin_of_windows hlast hwindow, hwindow⟩

/-- The result is the number of data bytes or one more. -/
theorem readlinebLoop_ret {left n : ℕ} {b b' : Riob} (h : Good b) {acc data : List UInt8} {ret : ℤ}
    (hn : acc.length + 1 = n) (hloop : readlinebLoop left n acc b = some (ret, data, b')) :
    ret = data.length ∨ ret = data.length + 1 := by
  induction left generalizing n b acc with
  | zero =>
    cases hloop
    exact Or.inr (by omega)
  | succ left ih =>
    obtain ⟨u, hsound, hsuffix, ⟨hread, -⟩ | ⟨c, hread, -⟩ | ⟨-, hmem⟩⟩ := read_one_cases h.sound
    · rw [readlinebLoop, hread] at hloop
      dsimp only at hloop
      split_ifs at hloop with hfirst
      · cases hloop
        exact Or.inl (by omega)
      · cases hloop
        exact Or.inr (by omega)
    · rw [readlinebLoop, hread] at hloop
      dsimp only at hloop
      have hnext : (acc ++ [c]).length = n := by
        rw [List.length_append, List.length_singleton, hn]
      split_ifs at hloop with hc hmax
      · cases hloop
        exact Or.inl (by omega)
      · exact ih (h.of_suffix hsound hsuffix) (by omega) hloop
    · exact absurd hmem h.quiet

/-- A round of `readlineb`: at the end of the stream it returns zero, and before it the length of
the line, with its NUL where it is cut. -/
theorem readlineb_line {b : Riob} (h : Good b) : ∃ ret b',
    b.readlineb MAXLINE = some (ret, lineOf (MAXLINE - 1) b.left, b') ∧ Good b' ∧
      b.left = lineOf (MAXLINE - 1) b.left ++ b'.left ∧
      ((b.left = [] ∧ ret = 0) ∨ (b.left ≠ [] ∧ ret = (lineOf (MAXLINE - 1) b.left ++
        if NewlineWithin (MAXLINE - 1) b.left then [] else [0]).length)) := by
  have hfits : ¬ Overflows 1 (MAXLINE - 1) b.left := by
    rw [MAXLINE]
    exact fun hcon => absurd hcon.1 (by decide)
  obtain ⟨ret, b', hcall, hgood, hleft⟩ :=
    (readlinebLoop_spec h Nat.one_pos (by decide) []).2 hfits
  refine ⟨ret, b', hcall, hgood, hleft, ?_⟩
  have hzero : ([] : List UInt8).length + 1 = 1 := rfl
  have hret := readlinebLoop_ret h hzero hcall
  rw [List.nil_append] at hret
  have hcount : ret = (lineOf (MAXLINE - 1) b.left).length ↔
      NewlineWithin (MAXLINE - 1) b.left ∨ b.left = [] := by
    rcases readlineb_cases h.sound MAXLINE with ⟨data, u, hfail, -⟩ | ⟨hnone, -⟩ | ⟨r, u, hsome, -, hiff⟩
    · have hsame := hcall.symm.trans hfail
      rw [Option.some.injEq, Prod.mk.injEq] at hsame
      rw [hsame.1] at hret
      omega
    · cases hcall.symm.trans hnone
    · have hsame := hcall.symm.trans hsome
      rw [Option.some.injEq, Prod.mk.injEq] at hsame
      rw [hsame.1, hiff]
      have hbound : min (MAXLINE - 1) (2 ^ 31 - 1) = MAXLINE - 1 := by decide
      have hwide : 2 ≤ MAXLINE := by decide
      simp only [hbound, hwide, and_true]
  by_cases hnil : b.left = []
  · refine Or.inl ⟨hnil, ?_⟩
    rw [hcount.2 (Or.inr hnil), hnil, lineOf_nil]
    rfl
  · refine Or.inr ⟨hnil, ?_⟩
    by_cases hnew : NewlineWithin (MAXLINE - 1) b.left
    · rw [if_pos hnew, List.append_nil]
      exact hcount.2 (Or.inl hnew)
    · have hne : ret ≠ (lineOf (MAXLINE - 1) b.left).length := fun hcon =>
        (hcount.1 hcon).elim hnew hnil
      rw [if_neg hnew, List.length_append, List.length_singleton]
      push_cast
      exact hret.resolve_left hne

/-- The bytes that `writen` is asked for do not depend on what the array held before. -/
theorem fill_spec {buf : UserBuf} (hbuf : buf.bytes.length = MAXLINE) {data : List UInt8}
    (hdata : data.length ≤ MAXLINE) : ∃ buf', fill buf data = some buf' ∧
      buf'.bytes.length = MAXLINE ∧ buf'.bytes = data ++ buf.bytes.drop data.length := by
  refine ⟨_, dif_pos (hbuf ▸ hdata), ?_, rfl⟩
  change (data ++ buf.bytes.drop data.length).length = MAXLINE
  rw [List.length_append, List.length_drop]
  omega

theorem echoed_piece {k : ℕ} (hk : 0 < k) {s : List UInt8} (hs : s ≠ []) : echoed k k s =
    piece k s ++ echoed k k (s.drop (lineOf k s).length) :=
  echoed_line hk le_rfl (Or.inl hs)

theorem drop_line_lt {k : ℕ} (hk : 0 < k) {s : List UInt8} (hs : s ≠ []) :
    (s.drop (lineOf k s).length).length < s.length := by
  have hpos : 0 < (lineOf k s).length := List.length_pos_iff.2 (lineOf_ne_nil hk hs)
  have hlength := List.length_pos_iff.2 hs
  rw [List.length_drop]
  omega

/-- The first half of a round that is not the last: the array begins with the piece, and `n` is the
length of that. -/
theorem read_turn {buf : UserBuf} (hbuf : buf.bytes.length = MAXLINE) {b : Riob} (h : Good b)
    (hne : b.left ≠ []) : ∃ (n : ℕ) (data : List UInt8) (u : Riob) (buf' : UserBuf),
      b.readlineb MAXLINE = some ((n : ℤ), data, u) ∧ Good u ∧ 0 < n ∧ n ≤ MAXLINE ∧
        fill buf (data ++ [0]) = some buf' ∧ buf'.bytes.length = MAXLINE ∧
          buf'.bytes.take n = piece (MAXLINE - 1) b.left ∧
            u.left = b.left.drop (lineOf (MAXLINE - 1) b.left).length := by
  obtain ⟨ret, u, hcall, hgood, hleft, ⟨hnil, -⟩ | ⟨-, hret⟩⟩ := readlineb_line h
  · exact absurd hnil hne
  · let line := lineOf (MAXLINE - 1) b.left
    let nul : List UInt8 := if NewlineWithin (MAXLINE - 1) b.left then [] else [0]
    have hline : line.length ≤ MAXLINE - 1 := lineOf_length_le _ _
    have hpos : 0 < line.length := List.length_pos_iff.2 (lineOf_ne_nil (by decide) hne)
    have hnul : nul.length ≤ 1 := by
      change (if _ then _ else _ : List UInt8).length ≤ 1
      split_ifs <;> simp
    have hmax : MAXLINE = 8192 := rfl
    have hstored : (line ++ [0]).length ≤ MAXLINE := by
      rw [List.length_append, List.length_singleton]
      omega
    obtain ⟨buf', hfill, hbuf', hbytes⟩ := fill_spec hbuf hstored
    have hprefix : line ++ nul <+: buf'.bytes := by
      rw [hbytes]
      change line ++ (if _ then _ else _) <+: _
      split_ifs
      · rw [List.append_nil, List.append_assoc]
        exact List.prefix_append _ _
      · exact List.prefix_append _ _
    refine ⟨(line ++ nul).length, line, u, buf', ?_, hgood, ?_, ?_, hfill, hbuf', ?_, ?_⟩
    · rw [hcall, hret]
    · rw [List.length_append]
      omega
    · rw [List.length_append]
      omega
    · exact (List.prefix_iff_eq_take.1 hprefix).symm
    · have hdrop := congrArg (List.drop line.length) hleft
      exact (hdrop.trans List.drop_left).symm

/-- The counts of the rounds are the same as `size_t`. -/
theorem sizeOfSsize_of_le {n : ℕ} (h : n ≤ MAXLINE) : sizeOfSsize n = n :=
  TcpConnection.sizeOfSsize_of_count (h.trans_lt (by decide))

/-- `Rio::writen` can only be interrupted, or accept less than it is offered. -/
def Healthy (connfd : Receiver) : Prop :=
  .failed ∉ connfd.outcomes ∧ .nothing ∉ connfd.outcomes

/-- The second half: the client receives the first `n` bytes of the array. -/
theorem write_turn {buf : UserBuf} {n : ℕ} (hn : n ≤ buf.bytes.length) {connfd : Receiver}
    (h : Healthy connfd) : ∃ connfd', writen connfd buf n = some ((n : ℤ), connfd') ∧
      Healthy connfd' ∧ connfd'.received = connfd.received ++ buf.bytes.take n := by
  obtain ⟨connfd', hwriten, hsent⟩ := writen_complete buf hn connfd h.1 h.2
  refine ⟨connfd', hwriten, ⟨?_, ?_⟩, ?_⟩
  · exact fun hcon => h.1 (hsent.outcomes.subset hcon)
  · exact fun hcon => h.2 (hsent.outcomes.subset hcon)
  · rw [hsent.received, List.take_take, Nat.min_self]

theorem readlineb_end {b : Riob} (h : Good b) (hnil : b.left = []) :
    ∃ u, b.readlineb MAXLINE = some (0, [], u) ∧ Good u ∧ u.left = [] := by
  obtain ⟨ret, u, hcall, hgood, hleft, ⟨-, rfl⟩ | ⟨hne, -⟩⟩ := readlineb_line h
  · rw [hnil, lineOf_nil] at hcall hleft
    exact ⟨u, hcall, hgood, hleft.symm⟩
  · exact absurd hnil hne

theorem echoLoop_spec {fuel : ℕ} {buf : UserBuf} {b : Riob} {connfd : Receiver}
    (hfuel : b.left.length < fuel) (hbuf : buf.bytes.length = MAXLINE) (h : Good b)
    (hhealthy : Healthy connfd) :
    ∃ b' connfd', echoLoop fuel buf b connfd = some (b', connfd') ∧ b'.left = [] ∧
      connfd'.received = connfd.received ++ echoed (MAXLINE - 1) (MAXLINE - 1) b.left := by
  induction fuel generalizing buf b connfd with
  | zero => omega
  | succ fuel ih =>
    by_cases hnil : b.left = []
    · obtain ⟨u, hcall, -, hend⟩ := readlineb_end h hnil
      refine ⟨u, connfd, ?_, hend, ?_⟩
      · rw [echoLoop, hcall]
        rfl
      · rw [hnil, echoed, if_pos rfl, List.append_nil]
    · obtain ⟨n, data, u, buf', hcall, hgood, hn, hle, hfill, hbuf', hpiece, hleft⟩ :=
        read_turn hbuf h hnil
      obtain ⟨connfd', hwriten, hhealthy', hreceived⟩ := write_turn (hbuf' ▸ hle) hhealthy
      have hless := drop_line_lt (k := MAXLINE - 1) (by decide) hnil
      rw [← hleft] at hless
      have hret : (n : ℤ) ≠ -1 := by omega
      obtain ⟨b', out, hloop, hend, hout⟩ := ih (by omega) hbuf' hgood hhealthy'
      refine ⟨b', out, ?_, hend, ?_⟩
      · rw [echoLoop, hcall]
        simp only [Option.bind_eq_bind, Option.bind_some]
        rw [sizeOfSsize_of_le hle, if_neg hn.ne', if_neg hret, hfill, Option.bind_some, hwriten,
          Option.bind_some]
        exact hloop
      · rw [hout, hreceived, hpiece, echoed_piece (by decide) hnil, hleft, List.append_assoc]

/-- Whatever pieces `::read` and `::write` use, a client gets back its stream with a NUL behind
each piece that is cut; so it is the stream itself exactly if every line ends in time, and the
stream but for NULs always. -/
theorem echo_spec (stream : List UInt8) (outcomes : List ReadOutcome) (output : Receiver)
    (buf : UserBuf) (hquiet : .failed ∉ outcomes) (hfailed : .failed ∉ output.outcomes)
    (hnothing : .nothing ∉ output.outcomes) (hbuf : buf.bytes.length = MAXLINE) :
    ∃ riob output' sent, echo ⟨stream, outcomes⟩ output buf = some (riob, output') ∧
      riob.left = [] ∧ output'.received = output.received ++ sent ∧
      sent = echoed (MAXLINE - 1) (MAXLINE - 1) stream ∧
      sent.filter (· ≠ 0) = stream.filter (· ≠ 0) ∧
      (sent = stream ↔ Lined (MAXLINE - 1) stream) := by
  have hgood : Good (create ⟨stream, outcomes⟩) := create_good hquiet
  obtain ⟨riob, output', hecho, hend, hsent⟩ := echoLoop_spec (b := create ⟨stream, outcomes⟩)
    (Nat.lt_succ_self stream.length) hbuf hgood ⟨hfailed, hnothing⟩
  exact ⟨riob, output', _, hecho, hend, hsent, rfl, echoed_filter _ _ _,
    echoed_eq_self_iff (by decide) stream⟩

theorem zeros_fit : (List.replicate MAXLINE (0 : UInt8)).length < 2 ^ 63 := by
  rw [List.length_replicate]
  decide

def zeros : UserBuf := ⟨List.replicate MAXLINE 0, zeros_fit⟩

/-- A line in pieces, and a last one that is not finished. -/
theorem echo_spec_of_unfinished : ∃ riob output' sent,
    echo ⟨bytes "one\ntwo", [.short 1, .interrupted]⟩ ⟨[], [.short 2, .interrupted], false, []⟩
        zeros = some (riob, output') ∧
      output'.received = sent ∧ sent = bytes "one\ntwo" ++ [0] := by
  obtain ⟨riob, output', sent, hecho, -, hreceived, hsent, -⟩ :=
    echo_spec (bytes "one\ntwo") [.short 1, .interrupted] ⟨[], [.short 2, .interrupted], false, []⟩
      zeros (by decide) (by decide) (by decide) List.length_replicate
  exact ⟨riob, output', sent, hecho, hreceived, hsent.trans (by decide)⟩

end HydrogenWeb.Echo
