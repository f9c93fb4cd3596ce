import Mathlib

set_option autoImplicit false

/-!
# Reading a stream to a given length

A source answers a read with some of the bytes that are left, with none at the end, or
with an interruption that may be tried again. `readFully` is the usual loop around it.
-/
namespace HydrogenWeb

inductive Attempt where
  | interrupted
  | failed
  | bytes (data : List UInt8)
deriving DecidableEq

namespace ByteSource

variable {σ : Type*}

/-- `nleft` of `n` bytes are still to read, `acc` are stored; `none` is the end of the fuel. -/
def readFully (read : σ → ℕ → Option (Attempt × σ)) (n : ℕ) :
    ℕ → ℕ → List UInt8 → σ → Option (ℤ × List UInt8 × σ)
  | _, 0, acc, s => some (n, acc, s)
  | 0, _ + 1, _, _ => none
  | fuel + 1, nleft, acc, s =>
    match read s nleft with
    | none => none
    | some (.interrupted, s) => readFully read n fuel nleft acc s
    | some (.failed, s) => some (-1, acc, s)
    | some (.bytes data, s) =>
      if data = [] then some ((n : ℤ) - nleft, acc, s)
      else readFully read n fuel (nleft - data.length) (acc ++ data) s

/-- What a good source promises, with a bound on the interruptions to come. -/
structure Lawful (read : σ → ℕ → Option (Attempt × σ)) (Good : σ → Prop)
    (left : σ → List UInt8) (retries : σ → ℕ) : Prop where
  attempt : ∀ s k, Good s → 0 < k →
    (∃ data s', read s k = some (.bytes data, s') ∧ Good s' ∧ left s = data ++ left s' ∧
      data.length ≤ k ∧ (data = [] → left s = []) ∧ retries s' ≤ retries s) ∨
    ∃ s', read s k = some (.interrupted, s') ∧ Good s' ∧ left s' = left s ∧
      retries s' < retries s

variable {read : σ → ℕ → Option (Attempt × σ)} {Good : σ → Prop} {left : σ → List UInt8}
  {retries : σ → ℕ}

theorem readFully_succ (n fuel nleft : ℕ) (acc : List UInt8) (s : σ) :
    readFully read n (fuel + 1) (nleft + 1) acc s =
      match read s (nleft + 1) with
      | none => none
      | some (.interrupted, s) => readFully read n fuel (nleft + 1) acc s
      | some (.failed, s) => some (-1, acc, s)
      | some (.bytes data, s) =>
        if data = [] then some ((n : ℤ) - (nleft + 1 : ℕ), acc, s)
        else readFully read n fuel (nleft + 1 - data.length) (acc ++ data) s := rfl

theorem readFully_invariant (I : σ → Prop)
    (keep : ∀ s k a s', I s → 0 < k → read s k = some (a, s') → I s') {n fuel nleft : ℕ}
    {acc data : List UInt8} {s s' : σ} {ret : ℤ} (hs : I s)
    (h : readFully read n fuel nleft acc s = some (ret, data, s')) : I s' := by
  induction fuel generalizing s nleft acc with
  | zero =>
    cases nleft with
    | zero =>
      cases h
      exact hs
    | succ nleft => cases h
  | succ fuel ih =>
    cases nleft with
    | zero =>
      cases h
      exact hs
    | succ nleft =>
      rw [readFully_succ] at h
      cases hread : read s (nleft + 1) with
      | none =>
        rw [hread] at h
        cases h
      | some r =>
        obtain ⟨a, u⟩ := r
        have hu := keep s (nleft + 1) a u hs (Nat.succ_pos _) hread
        rw [hread] at h
        cases a with
        | interrupted => exact ih hu h
        | failed =>
          cases h
          exact hu
        | bytes got =>
          simp only at h
          split at h
          · cases h
            exact hu
          · exact ih hu h

theorem Lawful.readFully_spec (h : Lawful read Good left retries) {s : σ} (hs : Good s)
    (n fuel nleft : ℕ) (acc : List UInt8) (hfuel : nleft + retries s ≤ fuel) : ∃ s',
    readFully read n fuel nleft acc s =
      some ((n : ℤ) - nleft + ((left s).take nleft).length, acc ++ (left s).take nleft, s') ∧
    Good s' ∧ left s' = (left s).drop nleft := by
  induction fuel generalizing s nleft acc with
  | zero =>
    obtain rfl : nleft = 0 := by omega
    exact ⟨s, by simp [readFully], hs, rfl⟩
  | succ fuel ih =>
    cases nleft with
    | zero => exact ⟨s, by simp [readFully], hs, rfl⟩
    | succ nleft =>
      rw [readFully_succ]
      rcases h.attempt s (nleft + 1) hs (Nat.succ_pos _) with
        ⟨data, s', hread, hgood, hleft, hlen, hend, hretries⟩ | ⟨s', hread, hgood, hleft, hretries⟩
      · by_cases hdata : data = []
        · have hnil := hend hdata
          rw [hdata, List.nil_append] at hleft
          refine ⟨s', ?_, hgood, ?_⟩
          · simp [hread, hdata, hnil]
          · rw [← hleft, hnil, List.drop_nil]
        · have hpos := List.length_pos_iff.2 hdata
          obtain ⟨u, hu, hugood, huleft⟩ := ih hgood (nleft + 1 - data.length) (acc ++ data)
            (by omega)
          have htake : (left s).take (nleft + 1) =
              data ++ (left s').take (nleft + 1 - data.length) := by
            rw [hleft, List.take_append, List.take_of_length_le hlen]
          refine ⟨u, ?_, hugood, ?_⟩
          · simp only [hread, if_neg hdata, hu, htake, List.append_assoc]
            congr 2
            rw [List.length_append]
            push_cast [hlen]
            ring
          · rw [huleft, hleft, List.drop_append, List.drop_of_length_le hlen, List.nil_append]
      · obtain ⟨u, hu, hugood, huleft⟩ := ih hgood (nleft + 1) acc (by omega)
        rw [hleft] at hu huleft
        exact ⟨u, by simp only [hread, hu], hugood, huleft⟩

end ByteSource
end HydrogenWeb
