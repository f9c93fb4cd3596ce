import HydrogenWeb.RobustIoCalls

set_option autoImplicit false

/-!
# The return value of readlineb

The loop counter starts at one and is the result. It is the number of stored bytes only
where the loop is left by a newline, or at once by the end of the stream.
-/
namespace HydrogenWeb.Riob
open TransitionRuns ByteSource

def NewlineWithin (k : ℕ) (s : List UInt8) : Prop := 10 ∈ s.take k

instance (k : ℕ) (s : List UInt8) : Decidable (NewlineWithin k s) :=
  inferInstanceAs (Decidable (_ ∈ _))

theorem newlineWithin_cons {k : ℕ} {c : UInt8} {s : List UInt8} (hc : c ≠ 10) :
    NewlineWithin (k + 1) (c :: s) ↔ NewlineWithin k s := by
  rw [NewlineWithin, NewlineWithin, List.take_succ_cons, List.mem_cons]
  exact or_iff_right fun heq => hc heq.symm

theorem not_newlineWithin_nil (k : ℕ) : ¬ NewlineWithin k [] := by
  simp [NewlineWithin]

/-- The iterations before the counter passes `maxlen` or the largest `int`. -/
theorem readlinebLoop_cases (left n : ℕ) {b : Riob} (h : Sound b) (acc : List UInt8)
    (hn : acc.length + 1 = n) (hlt : n < 2 ^ 31) :
    (∃ acc' b', readlinebLoop left n acc b = some (-1, acc', b') ∧ Sound b') ∨
    (readlinebLoop left n acc b = none ∧ b.left ≠ [] ∧
      ¬ NewlineWithin (min left (2 ^ 31 - n)) b.left) ∨
    ∃ (ret : ℤ) (b' : Riob),
      readlinebLoop left n acc b = some (ret, acc ++ lineOf left b.left, b') ∧ Sound b' ∧
        (ret = (acc ++ lineOf left b.left).length ↔
          NewlineWithin (min left (2 ^ 31 - n)) b.left ∨ (b.left = [] ∧ n = 1 ∧ 0 < left)) := by
  induction left generalizing n b acc with
  | zero =>
    refine Or.inr (Or.inr ⟨n, b, by simp [readlinebLoop, lineOf], h, ?_⟩)
    simp only [lineOf, List.append_nil, Nat.zero_min, NewlineWithin, List.take_zero,
      List.not_mem_nil, lt_irrefl, and_false, or_false, iff_false]
    omega
  | succ left ih =>
    obtain ⟨b', hsound, -, ⟨hread, hnil, -⟩ | ⟨c, hread, hleft⟩ | ⟨hread, -⟩⟩ := read_one_cases h
    · rw [hnil, readlinebLoop, hread]
      refine Or.inr (Or.inr ?_)
      by_cases hfirst : n = 1
      · have hacc : acc = [] := List.length_eq_zero_iff.1 (by omega)
        exact ⟨0, b', by simp [hfirst, lineOf], hsound, by simp [hacc, lineOf, hfirst]⟩
      · refine ⟨n, b', by simp [hfirst, lineOf], hsound, iff_of_false ?_ ?_⟩
        · simp only [lineOf, List.append_nil]
          omega
        · rintro (hnew | ⟨-, hone, -⟩)
          · exact not_newlineWithin_nil _ hnew
          · exact hfirst hone
    · have hpos : min (left + 1) (2 ^ 31 - n) = min left (2 ^ 31 - (n + 1)) + 1 := by omega
      rw [hleft, readlinebLoop, hread, hpos]
      by_cases hc : c = 10
      · -- the counter counts the byte it stands at
        refine Or.inr (Or.inr ⟨n, b', by simp [hc, lineOf], hsound, iff_of_true ?_ (Or.inl ?_)⟩)
        · simp only [lineOf, hc, if_true, List.length_append, List.length_singleton]
          omega
        · simp [NewlineWithin, hc]
      · rw [newlineWithin_cons hc]
        by_cases hmax : 2 ^ 31 ≤ n + 1
        · have hzero : min left (2 ^ 31 - (n + 1)) = 0 := by omega
          rw [hzero]
          refine Or.inr (Or.inl ⟨?_, List.cons_ne_nil _ _, by simp [NewlineWithin]⟩)
          simp only [if_neg hc, if_pos hmax]
        · have hacc : (acc ++ [c]).length + 1 = n + 1 := by
            rw [List.length_append, List.length_singleton]
            omega
          simp only [if_neg hc, if_neg hmax]
          rcases ih (n + 1) hsound (acc ++ [c]) hacc (by omega) with
            hfail | ⟨hnone, -, hnew⟩ | ⟨ret, u, hloop, husound, hiff⟩
          · exact Or.inl hfail
          · exact Or.inr (Or.inl ⟨hnone, List.cons_ne_nil _ _, hnew⟩)
          · have hline : acc ++ [c] ++ lineOf left b'.left =
                acc ++ lineOf (left + 1) (c :: b'.left) := by
              rw [lineOf, if_neg hc, List.append_assoc, List.singleton_append]
            rw [hline] at hloop hiff
            refine Or.inr (Or.inr ⟨ret, u, hloop, husound, hiff.trans (or_congr Iff.rfl ?_)⟩)
            apply iff_of_false
            · rintro ⟨-, hone, -⟩
              omega
            · rintro ⟨hnil, -⟩
              cases hnil
    · exact Or.inl ⟨acc, b', by rw [readlinebLoop, hread], hsound⟩

theorem readlineb_cases {b : Riob} (h : Sound b) (maxlen : ℕ) :
    (∃ data b', b.readlineb maxlen = some (-1, data, b') ∧ Sound b') ∨
    (b.readlineb maxlen = none ∧ b.left ≠ [] ∧
      ¬ NewlineWithin (min (maxlen - 1) (2 ^ 31 - 1)) b.left) ∨
    ∃ (ret : ℤ) (b' : Riob),
      b.readlineb maxlen = some (ret, lineOf (maxlen - 1) b.left, b') ∧ Sound b' ∧
        (ret = (lineOf (maxlen - 1) b.left).length ↔
          NewlineWithin (min (maxlen - 1) (2 ^ 31 - 1)) b.left ∨ (b.left = [] ∧ 2 ≤ maxlen)) := by
  have hwide : 0 < maxlen - 1 ↔ 2 ≤ maxlen := by omega
  have hloop := readlinebLoop_cases (maxlen - 1) 1 h [] rfl (by decide)
  simpa only [readlineb, List.nil_append, true_and, hwide] using hloop

theorem readlineb_sound {b b' : Riob} {maxlen : ℕ} {ret : ℤ} {data : List UInt8} (h : Sound b)
    (hcall : b.readlineb maxlen = some (ret, data, b')) : Sound b' := by
  rcases readlineb_cases h maxlen with ⟨got, u, hret, hu⟩ | ⟨hnone, -, -⟩ | ⟨r, u, hret, hu, -⟩
  · rw [hret] at hcall
    cases hcall
    exact hu
  · rw [hnone] at hcall
    cases hcall
  · rw [hret] at hcall
    cases hcall
    exact hu

theorem readnb_sound {b b' : Riob} {n : ℕ} {ret : ℤ} {data : List UInt8} (h : Sound b)
    (hcall : b.readnb n = some (ret, data, b')) : Sound b' := by
  refine readFully_invariant Sound ?_ h hcall
  intro b k a b' hb hk hread
  obtain ⟨u, hu, -, ⟨data, hdata, -⟩ | ⟨hfail, -⟩⟩ := read_cases hb hk
  · rw [hread] at hdata
    cases hdata
    exact hu
  · rw [hread] at hfail
    cases hfail
    exact hu

/-- The bytes that `writen(connfd, buf, n)` gets of a line and the NUL behind it. -/
def forwarded (ret : ℤ) (data : List UInt8) : List UInt8 := (data ++ [0]).take ret.toNat

/-- The call returns the number of data bytes it stored, and its result sends the line. -/
def Counted (b : Riob) (maxlen : ℕ) : Prop :=
  ∃ ret data b', b.readlineb maxlen = some (ret, data, b') ∧ ret = data.length ∧
    forwarded ret data = data

namespace Session

theorem run_sound {fd : Descriptor} {calls : List Call} {s : Session}
    (hrun : run step (start fd) calls = some s) : Sound s.riob := by
  refine run_invariant (fun s : Session => Sound s.riob) ?_ (create_sound fd) hrun
  intro s c u hs hstep
  cases c with
  | readlineb maxlen =>
    obtain ⟨⟨ret, data, b⟩, hcall, rfl⟩ := Option.map_eq_some_iff.1 hstep
    exact readlineb_sound hs hcall
  | readnb n =>
    obtain ⟨⟨ret, data, b⟩, hcall, rfl⟩ := Option.map_eq_some_iff.1 hstep
    exact readnb_sound hs hcall

/-- After any calls before it, a `readlineb` that does not fail counts right exactly if it
stops at a newline that the counter can reach, or at the end of the stream at once. -/
theorem counted_iff_newlineWithin {stream : List UInt8} {outcomes : List ReadOutcome}
    {calls : List Call} {s : Session} (hrun : run step (start ⟨stream, outcomes⟩) calls = some s)
    (maxlen : ℕ) (hfail : ∀ data b, s.riob.readlineb maxlen ≠ some (-1, data, b)) :
    Counted s.riob maxlen ↔
      NewlineWithin (min (maxlen - 1) (2 ^ 31 - 1)) s.riob.left ∨
        (s.riob.left = [] ∧ 2 ≤ maxlen) := by
  rcases readlineb_cases (run_sound hrun) maxlen with
    ⟨got, u, hret, -⟩ | ⟨hnone, hleft, hnew⟩ | ⟨r, u, hret, -, hiff⟩
  · exact absurd hret (hfail got u)
  · apply iff_of_false
    · rintro ⟨ret, data, b, hcall, -⟩
      rw [hnone] at hcall
      cases hcall
    · rintro (hcon | ⟨hcon, -⟩)
      · exact hnew hcon
      · exact hleft hcon
  · rw [← hiff]
    constructor
    · rintro ⟨ret, data, b, hcall, hcount, -⟩
      rw [hret] at hcall
      cases hcall
      exact hcount
    · intro hcount
      refine ⟨r, _, u, hret, hcount, ?_⟩
      rw [forwarded, hcount, Int.toNat_natCast, List.take_left]

/-- The second line, read after the first one and an interruption. -/
theorem counted_iff_newlineWithin_of_second_line : ∃ s,
    run step (start ⟨[97, 10, 98, 10], [.short 0, .interrupted]⟩) [.readlineb 10] = some s ∧
      (Counted s.riob 10 ↔
        NewlineWithin (min (10 - 1) (2 ^ 31 - 1)) s.riob.left ∨ (s.riob.left = [] ∧ 2 ≤ 10)) := by
  have hcall : (run step (start ⟨[97, 10, 98, 10], [.short 0, .interrupted]⟩) [.readlineb 10]).map
      (fun s => (s.riob.readlineb 10).map Prod.fst) = some (some 2) := by
    decide +kernel
  obtain ⟨s, hrun, hret⟩ := Option.map_eq_some_iff.1 hcall
  refine ⟨s, hrun, counted_iff_newlineWithin hrun 10 fun data b hfail => ?_⟩
  rw [hfail] at hret
  cases hret

/-- The stream ends in the middle of a line: the NUL is counted too. -/
theorem unfinished_line_not_counted : ¬ Counted (create ⟨[97, 98], []⟩) 10 := by
  have hcall : ((create ⟨[97, 98], []⟩).readlineb 10).map (fun r => (r.1, r.2.1)) =
      some (3, [97, 98]) := by
    decide +kernel
  rintro ⟨ret, data, b, hret, hcount, -⟩
  rw [hret, Option.map_some, Option.some.injEq, Prod.mk.injEq] at hcall
  obtain ⟨rfl, rfl⟩ := hcall
  exact absurd hcount (by decide)

end Session
end HydrogenWeb.Riob
