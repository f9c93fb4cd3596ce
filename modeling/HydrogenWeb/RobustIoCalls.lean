import HydrogenWeb.RobustIo
import HydrogenWeb.TransitionRuns

set_option autoImplicit false

/-!
# Any sequence of calls on one Riob

`readlineb` counts in an `int` and is asked for a `size_t`. Unless the counter overflows,
both calls hand out the stream unchanged, however `::read` cuts it.
-/
namespace HydrogenWeb.Riob
open TransitionRuns ByteSource

/-- The bytes up to and with the first newline, at most `k` of them. -/
def lineOf : ℕ → List UInt8 → List UInt8
  | 0, _ => []
  | _ + 1, [] => []
  | k + 1, c :: s => if c = 10 then [c] else c :: lineOf k s

/-- From `n` on the counter passes the largest `int`. -/
def Overflows (n left : ℕ) (s : List UInt8) : Prop :=
  2 ^ 31 ≤ n + left ∧ 2 ^ 31 ≤ n + s.length ∧ 10 ∉ s.take (2 ^ 31 - n)

theorem overflows_cons {n left : ℕ} {c : UInt8} {s : List UInt8} (hc : c ≠ 10)
    (hn : n + 1 < 2 ^ 31) : Overflows n (left + 1) (c :: s) ↔ Overflows (n + 1) left s := by
  have hcount : 2 ^ 31 - n = (2 ^ 31 - (n + 1)) + 1 := by omega
  have hc' : ¬ (10 : UInt8) = c := fun heq => hc heq.symm
  rw [Overflows, Overflows, hcount, List.take_succ_cons, List.mem_cons, not_or, List.length_cons]
  constructor
  · rintro ⟨hleft, hlen, -, hrest⟩
    exact ⟨by omega, by omega, hrest⟩
  · rintro ⟨hleft, hlen, hrest⟩
    exact ⟨by omega, by omega, hc', hrest⟩

theorem readlinebLoop_spec {left n : ℕ} {b : Riob} (h : Good b) (hn : 0 < n) (hlt : n < 2 ^ 31)
    (acc : List UInt8) :
    (Overflows n left b.left → readlinebLoop left n acc b = none) ∧
    (¬ Overflows n left b.left → ∃ ret b',
      readlinebLoop left n acc b = some (ret, acc ++ lineOf left b.left, b') ∧ Good b' ∧
        b.left = lineOf left b.left ++ b'.left) := by
  induction left generalizing n b acc with
  | zero =>
    constructor
    · rintro ⟨hleft, -⟩
      omega
    · intro _
      exact ⟨n, b, by simp [readlinebLoop, lineOf], h, rfl⟩
  | succ left ih =>
    obtain ⟨b', hsound, hsuffix, ⟨hread, hnil, hend⟩ | ⟨c, hread, hleft⟩ | ⟨-, hmem⟩⟩ :=
      read_one_cases h.sound
    · have hgood := h.of_suffix hsound hsuffix
      have hleft : [] = lineOf (left + 1) [] ++ b'.left := hend.symm
      constructor
      · rintro ⟨-, hlength, -⟩
        rw [hnil, List.length_nil] at hlength
        omega
      · intro _
        rw [hnil, readlinebLoop, hread]
        by_cases hfirst : n = 1
        · exact ⟨0, b', by simp [hfirst, lineOf], hgood, hleft⟩
        · exact ⟨n, b', by simp [hfirst, lineOf], hgood, hleft⟩
    · have hgood := h.of_suffix hsound hsuffix
      rw [hleft, readlinebLoop, hread]
      by_cases hc : c = 10
      · -- a newline ends the loop before the counter moves
        constructor
        · rintro ⟨-, -, hfree⟩
          have hcount : 2 ^ 31 - n = (2 ^ 31 - n - 1) + 1 := by omega
          rw [hcount, List.take_succ_cons, hc] at hfree
          exact absurd List.mem_cons_self hfree
        · intro _
          refine ⟨n, b', ?_, hgood, ?_⟩
          · simp [hc, lineOf]
          · simp [hc, lineOf]
      · by_cases hmax : 2 ^ 31 ≤ n + 1
        · have hover : Overflows n (left + 1) (c :: b'.left) := by
            have hcount : 2 ^ 31 - n = 1 := by omega
            refine ⟨by omega, by rw [List.length_cons]; omega, ?_⟩
            rw [hcount, List.take_succ_cons, List.take_zero, List.mem_singleton]
            exact fun heq => hc heq.symm
          simp only [if_neg hc, if_pos hmax]
          exact ⟨fun _ => trivial, fun hcon => absurd hover hcon⟩
        · simp only [if_neg hc, if_neg hmax]
          rw [overflows_cons hc (by omega)]
          obtain ⟨hnone, hsome⟩ := ih hgood (Nat.succ_pos n) (by omega) (acc ++ [c])
          refine ⟨hnone, fun hfits => ?_⟩
          obtain ⟨ret, u, hloop, hugood, huleft⟩ := hsome hfits
          refine ⟨ret, u, ?_, hugood, ?_⟩
          · rw [hloop, lineOf, if_neg hc, List.append_assoc, List.singleton_append]
          · rw [lineOf, if_neg hc, List.cons_append, ← huleft]
    · exact absurd hmem h.quiet

inductive Call where
  | readlineb (maxlen : ℕ)
  | readnb (n : ℕ)

structure Session where
  riob : Riob
  stored : List UInt8

namespace Session

def start (fd : Descriptor) : Session := ⟨create fd, []⟩

def step (s : Session) : Call → Option Session
  | .readlineb maxlen => (s.riob.readlineb maxlen).map fun (_, data, b) => ⟨b, s.stored ++ data⟩
  | .readnb n => (s.riob.readnb n).map fun (_, data, b) => ⟨b, s.stored ++ data⟩

/-- The call stores what it has to, and nothing of the stream is lost or changed. For
`readnb` that is what `readn` returns at the same position. -/
def Delivers (stream : List UInt8) (s : Session) (c : Call) (o : Option Session) : Prop :=
  ∃ u, o = some u ∧ u.stored ++ u.riob.unread ++ u.riob.fd.rest = stream ∧
    match c with
    | .readlineb maxlen => ∃ ret,
        s.riob.readlineb maxlen = some (ret, lineOf (maxlen - 1) s.riob.left, u.riob)
    | .readnb n =>
        s.riob.readnb n =
          some (((min n s.riob.left.length : ℕ) : ℤ), s.riob.left.take n, u.riob) ∧
        ∀ outcomes, .failed ∉ outcomes → ∃ d,
          Rio.readn ⟨s.riob.left, outcomes⟩ n =
            some (((min n s.riob.left.length : ℕ) : ℤ), s.riob.left.take n, d)

/-- `readlineb` is not asked for a line that its counter cannot count. -/
def Fits (s : Session) : Call → Prop
  | .readlineb maxlen => maxlen < 2 ^ 31 ∨ s.riob.left.length < 2 ^ 31 - 1 ∨
      10 ∈ s.riob.left.take (2 ^ 31 - 1)
  | .readnb _ => True

theorem fits_iff (s : Session) (maxlen : ℕ) :
    s.Fits (.readlineb maxlen) ↔ ¬ Overflows 1 (maxlen - 1) s.riob.left := by
  rw [Fits, Overflows, not_and_or, not_and_or, not_not]
  apply or_congr
  · omega
  · apply or_congr
    · omega
    · exact Iff.rfl

structure Invariant (stream : List UInt8) (s : Session) : Prop where
  good : Good s.riob
  whole : s.stored ++ s.riob.left = stream

theorem readlineb_delivers_iff {stream : List UInt8} {s : Session} (h : Invariant stream s)
    (maxlen : ℕ) :
    (Delivers stream s (.readlineb maxlen) (s.step (.readlineb maxlen)) ↔
        s.Fits (.readlineb maxlen)) ∧
      ∀ u, s.step (.readlineb maxlen) = some u → Invariant stream u := by
  obtain ⟨hnone, hsome⟩ := readlinebLoop_spec h.good Nat.one_pos
    (by decide) []
  rw [fits_iff]
  by_cases hover : Overflows 1 (maxlen - 1) s.riob.left
  · have hcall : s.riob.readlineb maxlen = none := hnone hover
    rw [step, hcall]
    constructor
    · apply iff_of_false
      · rintro ⟨u, hu, -⟩
        cases hu
      · exact fun hcon => hcon hover
    · intro u hu
      cases hu
  · obtain ⟨ret, b, hcall, hgood, hleft⟩ := hsome hover
    change s.riob.readlineb maxlen = _ at hcall
    have hwhole : s.stored ++ lineOf (maxlen - 1) s.riob.left ++ b.left = stream := by
      rw [List.append_assoc, ← hleft]
      exact h.whole
    rw [step, hcall]
    constructor
    · apply iff_of_true _ hover
      refine ⟨_, rfl, ?_, ret, hcall⟩
      rw [List.append_assoc]
      exact hwhole
    · intro u hu
      cases hu
      exact ⟨hgood, hwhole⟩

theorem readnb_delivers {stream : List UInt8} {s : Session} (h : Invariant stream s) (n : ℕ) :
    Delivers stream s (.readnb n) (s.step (.readnb n)) ∧
      ∀ u, s.step (.readnb n) = some u → Invariant stream u := by
  obtain ⟨b, hcall, hgood, hleft⟩ := readnb_spec h.good n
  have hwhole : s.stored ++ s.riob.left.take n ++ b.left = stream := by
    rw [List.append_assoc, hleft, List.take_append_drop]
    exact h.whole
  rw [step, hcall]
  constructor
  · refine ⟨_, rfl, ?_, ?_, ?_⟩
    · rw [List.append_assoc]
      exact hwhole
    · rw [hcall, List.length_take]
    · intro outcomes hquiet
      obtain ⟨d, hd⟩ := Rio.readn_spec (d := ⟨s.riob.left, outcomes⟩) hquiet n
      rw [List.length_take] at hd
      exact ⟨d, hd⟩
  · intro u hu
    cases hu
    exact ⟨hgood, hwhole⟩

/-- Every call of a sequence delivers the stream, exactly if no line is too long for the
counter of `readlineb`. -/
theorem delivers_iff_fits (stream : List UInt8) (outcomes : List ReadOutcome)
    (hquiet : .failed ∉ outcomes) (calls : List Call) :
    Along step (Delivers stream) (start ⟨stream, outcomes⟩) calls ↔
      Along step (fun s c _ => s.Fits c) (start ⟨stream, outcomes⟩) calls := by
  have hstart : Invariant stream (start ⟨stream, outcomes⟩) := ⟨create_good hquiet, rfl⟩
  refine along_iff (Invariant stream) ?_ ?_ calls hstart (along_true _ _ _)
  · intro s c h _
    cases c with
    | readlineb maxlen => exact (readlineb_delivers_iff h maxlen).1
    | readnb n => exact iff_of_true (readnb_delivers h n).1 trivial
  · intro s c u h _ _ hstep
    cases c with
    | readlineb maxlen => exact (readlineb_delivers_iff h maxlen).2 u hstep
    | readnb n => exact (readnb_delivers h n).2 u hstep

/-- Two lines that arrive in pieces, with an interruption between them. -/
theorem delivers_iff_fits_of_two_lines :
    Along step (Delivers [97, 98, 10, 99, 10]) (start ⟨[97, 98, 10, 99, 10],
        [.short 0, .interrupted, .short 1]⟩) [.readlineb 10, .readnb 3] ↔
      Along step (fun s c _ => s.Fits c) (start ⟨[97, 98, 10, 99, 10],
        [.short 0, .interrupted, .short 1]⟩) [.readlineb 10, .readnb 3] :=
  delivers_iff_fits _ _ (by decide) _

/-- A line of `2 ^ 31` bytes without a newline, read into a buffer that has room for it. -/
theorem long_line_not_delivered :
    ¬ Along step (Delivers (List.replicate (2 ^ 31) 97))
      (start ⟨List.replicate (2 ^ 31) 97, []⟩) [.readlineb (2 ^ 31 + 1)] := by
  have hgood : Good (create ⟨List.replicate (2 ^ 31) 97, []⟩) := create_good List.not_mem_nil
  have hover : Overflows 1 (2 ^ 31) (create ⟨List.replicate (2 ^ 31) 97, []⟩).left := by
    have hleft : (create ⟨List.replicate (2 ^ 31) 97, []⟩).left = List.replicate (2 ^ 31) 97 := rfl
    rw [hleft, Overflows, List.length_replicate, List.take_replicate]
    refine ⟨by omega, by omega, ?_⟩
    intro hmem
    exact absurd (List.eq_of_mem_replicate hmem) (by decide)
  rintro ⟨⟨u, hu, -⟩, -⟩
  have hnone : (create ⟨List.replicate (2 ^ 31) 97, []⟩).readlineb (2 ^ 31 + 1) = none :=
    (readlinebLoop_spec hgood Nat.one_pos (by decide) []).1 hover
  rw [step, start, hnone] at hu
  cases hu

end Session
end HydrogenWeb.Riob
