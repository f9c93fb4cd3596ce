import HydrogenWeb.HyBuffer
import HydrogenWeb.RobustIo

set_option autoImplicit false

/-!
# Whole transfers with readn and writen

Both loops on the words of the code: the counts are `size_t`, what a call transfers and
the results are `ssize_t`, and `bufp` is an index of `usrbuf`.
-/
namespace HydrogenWeb
open HyBuffer ByteSource

/-- No object is larger than the largest `ssize_t`. -/
structure UserBuf where
  bytes : List UInt8
  fits : bytes.length < 2 ^ 63

def toSsize (n : ℕ) : ℤ := Int.bmod n (2 ^ 64)

theorem toSsize_of_lt {n : ℕ} (h : n < 2 ^ 63) : toSsize n = n :=
  Int.bmod_eq_of_le (by omega) (by omega)

inductive WriteOutcome where
  | interrupted
  | failed
  /-- No byte and no error: `errno` is left from an earlier call. -/
  | nothing
  /-- The call accepts at most `k + 1` bytes. -/
  | short (k : ℕ)
deriving DecidableEq

structure Offer where
  received : List UInt8
  data : List UInt8
deriving DecidableEq

/-- A descriptor to write to. When `outcomes` is used up, every call accepts all it is
offered. `eintr` is `errno == EINTR`. -/
structure Receiver where
  received : List UInt8
  outcomes : List WriteOutcome
  eintr : Bool
  offers : List Offer
deriving DecidableEq

namespace Receiver

def accept (d : Receiver) (k : ℕ) (data : List UInt8) (outcomes : List WriteOutcome) :
    ℤ × Receiver :=
  ((data.take k).length, { d with
    received := d.received ++ data.take k, outcomes, offers := d.offers ++ [⟨d.received, data⟩] })

def refuse (d : Receiver) (data : List UInt8) (outcomes : List WriteOutcome) (eintr : Bool) :
    Receiver :=
  { d with outcomes, eintr, offers := d.offers ++ [⟨d.received, data⟩] }

def write (d : Receiver) (data : List UInt8) : ℤ × Receiver :=
  match d.outcomes with
  | [] => d.accept data.length data []
  | .interrupted :: os => (-1, d.refuse data os true)
  | .failed :: os => (-1, d.refuse data os false)
  | .nothing :: os => (0, d.refuse data os d.eintr)
  | .short k :: os => d.accept (k + 1) data os

end Receiver

namespace Rio

/-- `size` bytes from `bufp` on; `none` is a read outside the array. -/
def slice (v : List UInt8) (bufp size : ℕ) : Option (List UInt8) :=
  if bufp + size ≤ v.length then some ((v.drop bufp).take size) else none

def writenLoop (usrbuf : List UInt8) (n : ℕ) : ℕ → ℕ → ℕ → Receiver → Option (ℤ × Receiver)
  | 0, _, _, _ => none
  | fuel + 1, nleft, bufp, d =>
    if 0 < nleft then do
      let data ← slice usrbuf bufp nleft
      let (nwritten, d) := d.write data
      if nwritten ≤ 0 then
        if d.eintr then writenLoop usrbuf n fuel nleft bufp d else some (-1, d)
      else writenLoop usrbuf n fuel (sizeSub nleft nwritten.toNat) (bufp + nwritten.toNat) d
    else some (toSsize n, d)

/-- Every iteration but the last test uses up an outcome or a byte. -/
def writen (d : Receiver) (usrbuf : UserBuf) (n : ℕ) : Option (ℤ × Receiver) :=
  writenLoop usrbuf.bytes n (n + d.outcomes.length + 1) n 0 d

def readnLoop (n : ℕ) : ℕ → ℕ → ℕ → List UInt8 → Descriptor → Option (ℤ × List UInt8 × Descriptor)
  | 0, _, _, _, _ => none
  | fuel + 1, nleft, bufp, usrbuf, d =>
    if 0 < nleft then
      match d.read nleft with
      | (.interrupted, d) => readnLoop n fuel nleft bufp usrbuf d
      | (.failed, d) => some (-1, usrbuf, d)
      | (.bytes data, d) =>
        if data = [] then some (toSsize (sizeSub n nleft), usrbuf, d)
        else do
          let usrbuf ← store usrbuf bufp data
          readnLoop n fuel (sizeSub nleft data.length) (bufp + data.length) usrbuf d
    else some (toSsize (sizeSub n nleft), usrbuf, d)

/-- `readn` with its array: the result, what the array holds then and the descriptor. -/
def readnInto (d : Descriptor) (usrbuf : UserBuf) (n : ℕ) : Option (ℤ × List UInt8 × Descriptor) :=
  readnLoop n (n + d.outcomes.length + 1) n 0 usrbuf.bytes d

end Rio

namespace Receiver

theorem accept_spec (d : Receiver) {m : ℕ} (hm : 0 < m) {data : List UInt8} (hdata : data ≠ [])
    (os : List WriteOutcome) : ∃ k, 0 < k ∧ k ≤ data.length ∧
      d.accept m data os = ((k : ℤ), { d with
        received := d.received ++ data.take k, outcomes := os
        offers := d.offers ++ [⟨d.received, data⟩] }) := by
  have hpos := List.length_pos_iff.2 hdata
  refine ⟨min m data.length, by omega, Nat.min_le_right _ _, ?_⟩
  rw [accept, List.length_take, ← List.take_eq_take_min]

/-- A call accepts the first bytes it is offered, or none. -/
theorem write_cases (d : Receiver) {data : List UInt8} (hdata : data ≠ []) : ∃ d',
    d'.offers = d.offers ++ [⟨d.received, data⟩] ∧ d'.outcomes <:+ d.outcomes ∧
      ((∃ k : ℕ, d.write data = ((k : ℤ), d') ∧ 0 < k ∧ k ≤ data.length ∧
          d'.received = d.received ++ data.take k) ∨
        ∃ ret : ℤ, d.write data = (ret, d') ∧ ret ≤ 0 ∧ d'.received = d.received ∧
          d'.outcomes.length < d.outcomes.length ∧
          (d'.eintr = false → .failed ∈ d.outcomes ∨ .nothing ∈ d.outcomes)) := by
  have hpos := List.length_pos_iff.2 hdata
  cases hos : d.outcomes with
  | nil =>
    obtain ⟨k, hk, hlen, haccept⟩ := d.accept_spec hpos hdata []
    exact ⟨_, rfl, List.suffix_refl _, Or.inl ⟨k, by rw [write, hos]; exact haccept, hk, hlen, rfl⟩⟩
  | cons o os =>
    have hsuffix : os <:+ o :: os := List.suffix_cons o os
    have hless : os.length < (o :: os).length := Nat.lt_succ_self _
    cases o with
    | interrupted =>
      refine ⟨d.refuse data os true, rfl, hsuffix,
        Or.inr ⟨-1, by rw [write, hos], by decide, rfl, hless, ?_⟩⟩
      intro hcon
      cases hcon
    | failed =>
      exact ⟨d.refuse data os false, rfl, hsuffix,
        Or.inr ⟨-1, by rw [write, hos], by decide, rfl, hless, fun _ => Or.inl List.mem_cons_self⟩⟩
    | nothing =>
      exact ⟨d.refuse data os d.eintr, rfl, hsuffix,
        Or.inr ⟨0, by rw [write, hos], le_rfl, rfl, hless, fun _ => Or.inr List.mem_cons_self⟩⟩
    | short m =>
      obtain ⟨k, hk, hlen, haccept⟩ := d.accept_spec (Nat.succ_pos m) hdata os
      exact ⟨_, rfl, hsuffix, Or.inl ⟨k, by rw [write, hos]; exact haccept, hk, hlen, rfl⟩⟩

end Receiver

namespace Rio

/-- Where `writen` is with the string `s`: the first `bufp` bytes are received, and every call
was offered the bytes that were missing then. -/
structure Sending (s : List UInt8) (start : Receiver) (nleft bufp : ℕ) (d : Receiver) : Prop where
  count : bufp + nleft = s.length
  received : d.received = start.received ++ s.take bufp
  offers : ∃ made, d.offers = start.offers ++ made ∧
    ∀ o ∈ made, o.received ++ o.data = start.received ++ s
  outcomes : d.outcomes <:+ start.outcomes

theorem sending_start (s : List UInt8) (d : Receiver) : Sending s d s.length 0 d where
  count := Nat.zero_add _
  received := by simp
  offers := ⟨[], by simp⟩
  outcomes := List.suffix_refl _

/-- A call that accepts `k` of the bytes left. -/
theorem Sending.call {s : List UInt8} {start d d' : Receiver} {nleft bufp k : ℕ}
    (h : Sending s start nleft bufp d) (hk : k ≤ nleft)
    (hoffers : d'.offers = d.offers ++ [⟨d.received, s.drop bufp⟩])
    (houtcomes : d'.outcomes <:+ d.outcomes)
    (hreceived : d'.received = d.received ++ (s.drop bufp).take k) :
    Sending s start (nleft - k) (bufp + k) d' where
  count := by
    have hcount := h.count
    omega
  received := by rw [hreceived, h.received, List.append_assoc, ← List.take_add]
  offers := by
    obtain ⟨made, hmade, hall⟩ := h.offers
    refine ⟨made ++ [⟨d.received, s.drop bufp⟩], ?_, ?_⟩
    · rw [hoffers, hmade, List.append_assoc]
    · intro o ho
      rcases List.mem_append.1 ho with hold | hnew
      · exact hall o hold
      · rw [List.mem_singleton.1 hnew, h.received, List.append_assoc, List.take_append_drop]
  outcomes := houtcomes.trans h.outcomes

theorem slice_spec {v : List UInt8} {n bufp nleft : ℕ} (hn : n ≤ v.length) (h : bufp + nleft = n) :
    slice v bufp nleft = some ((v.take n).drop bufp) := by
  rw [slice, if_pos (h ▸ hn), ← h, List.drop_take, Nat.add_sub_cancel_left]

/-- The loop sends the rest, or it stops at an error it does not retry. -/
theorem writenLoop_cases {v : List UInt8} (hv : v.length < 2 ^ 63) {n : ℕ} (hn : n ≤ v.length)
    {start : Receiver} {fuel nleft bufp : ℕ} {d : Receiver}
    (h : Sending (v.take n) start nleft bufp d) (hfuel : nleft + d.outcomes.length < fuel) :
    ∃ ret d', writenLoop v n fuel nleft bufp d = some (ret, d') ∧
      ((ret = n ∧ Sending (v.take n) start 0 n d') ∨
        (ret = -1 ∧ (∃ sent < n, Sending (v.take n) start (n - sent) sent d') ∧
          (.failed ∈ start.outcomes ∨ .nothing ∈ start.outcomes))) := by
  have hcount := h.count
  rw [List.length_take, Nat.min_eq_left hn] at hcount
  induction fuel generalizing nleft bufp d with
  | zero => omega
  | succ fuel ih =>
    rw [writenLoop]
    by_cases hpos : 0 < nleft
    · have hdata : (v.take n).drop bufp ≠ [] := by
        rw [← List.length_pos_iff, List.length_drop, List.length_take]
        omega
      have hlen : ((v.take n).drop bufp).length = nleft := by
        rw [List.length_drop, List.length_take]
        omega
      obtain ⟨d', hoffers, houtcomes, hcases⟩ := d.write_cases hdata
      have hshort := houtcomes.length_le
      rw [if_pos hpos, slice_spec hn hcount, Option.bind_eq_bind, Option.bind_some]
      rcases hcases with
        ⟨k, hwrite, hk, hless, hreceived⟩ | ⟨ret, hwrite, hret, hreceived, hused, heintr⟩
      · have hnext := h.call (by omega) hoffers houtcomes hreceived
        rw [hwrite]
        dsimp only
        rw [if_neg (by omega), Int.toNat_natCast, sizeSub_of_le (by omega)]
        exact ih hnext (by omega) (by omega)
      · have hsame := h.call (Nat.zero_le _) hoffers houtcomes (by rw [hreceived]; simp)
        rw [hwrite]
        dsimp only
        rw [if_pos hret]
        cases hcase : d'.eintr with
        | true =>
          rw [if_pos rfl]
          exact ih hsame (by omega) hcount
        | false =>
          rw [if_neg Bool.false_ne_true]
          have hbad := (heintr hcase).imp (h.outcomes.subset ·) (h.outcomes.subset ·)
          obtain rfl : nleft = n - bufp := by omega
          exact ⟨-1, d', rfl, Or.inr ⟨rfl, ⟨bufp, by omega, hsame⟩, hbad⟩⟩
    · obtain rfl : nleft = 0 := by omega
      obtain rfl : bufp = n := hcount
      rw [if_neg hpos, toSsize_of_lt (by omega)]
      exact ⟨bufp, d, rfl, Or.inl ⟨rfl, h⟩⟩

/-- `writen` sends the string and returns its length where no call fails. -/
theorem writen_complete (usrbuf : UserBuf) {n : ℕ} (hn : n ≤ usrbuf.bytes.length) (d : Receiver)
    (hfailed : .failed ∉ d.outcomes) (hnothing : .nothing ∉ d.outcomes) :
    ∃ d', writen d usrbuf n = some ((n : ℤ), d') ∧ Sending (usrbuf.bytes.take n) d 0 n d' := by
  have hstart := sending_start (usrbuf.bytes.take n) d
  have hlen : (usrbuf.bytes.take n).length = n := List.length_take_of_le hn
  rw [hlen] at hstart
  obtain ⟨ret, d', hwriten, ⟨rfl, hsent⟩ | ⟨-, -, hbad | hbad⟩⟩ :=
    writenLoop_cases usrbuf.fits hn hstart (Nat.lt_succ_self _)
  · exact ⟨d', hwriten, hsent⟩
  · exact absurd hbad hfailed
  · exact absurd hbad hnothing

theorem readnLoop_zero {n : ℕ} (hn : n < 2 ^ 63) (fuel bufp : ℕ) (v : List UInt8) (d : Descriptor) :
    readnLoop n (fuel + 1) 0 bufp v d = some ((n : ℤ), v, d) := by
  rw [readnLoop, if_neg (lt_irrefl 0), sizeSub_of_le (Nat.zero_le n), Nat.sub_zero,
    toSsize_of_lt hn]

/-- The loop on the array does what `readFully` does, whatever the calls return. -/
theorem readnLoop_refines {n fuel nleft : ℕ} {acc data v : List UInt8} {d d' : Descriptor} {ret : ℤ}
    (hv : v.length < 2 ^ 63) (hn : n ≤ v.length) (hcount : acc.length + nleft = n)
    (h : readFully (fun d k => some (Descriptor.read d k)) n fuel nleft acc d =
      some (ret, data, d')) :
    readnLoop n (fuel + 1) nleft acc.length (begun acc v) d = some (ret, begun data v, d') := by
  induction fuel generalizing nleft acc d with
  | zero =>
    cases nleft with
    | zero =>
      cases h
      exact readnLoop_zero (by omega) _ _ _ _
    | succ nleft => cases h
  | succ fuel ih =>
    cases nleft with
    | zero =>
      cases h
      exact readnLoop_zero (by omega) _ _ _ _
    | succ nleft =>
      rw [readFully_succ] at h
      rw [readnLoop, if_pos (Nat.succ_pos nleft)]
      rcases d.read_cases (Nat.succ_pos nleft) with
        ⟨got, u, hread, -, hlen, -, -⟩ | ⟨u, hread, -, -, -⟩ | ⟨u, hread, -, -, -⟩
      · rw [hread] at h ⊢
        dsimp only at h ⊢
        by_cases hgot : got = []
        · rw [if_pos hgot] at h ⊢
          cases h
          rw [sizeSub_of_le (by omega), toSsize_of_lt (by omega), Nat.cast_sub (by omega)]
        · rw [if_neg hgot] at h
          have hrest := ih (by rw [List.length_append]; omega) h
          rw [if_neg hgot, store_begun (by omega), Option.bind_eq_bind, Option.bind_some,
            sizeSub_of_le hlen, ← List.length_append]
          exact hrest
      · rw [hread] at h ⊢
        exact ih hcount h
      · rw [hread] at h ⊢
        cases h
        rfl

/-- `readn` stores what the abstract loop collects, and nothing behind it. -/
theorem readnInto_refines (usrbuf : UserBuf) {n : ℕ} (hn : n ≤ usrbuf.bytes.length)
    {d d' : Descriptor} {ret : ℤ} {data : List UInt8} (h : readn d n = some (ret, data, d')) :
    readnInto d usrbuf n = some (ret, begun data usrbuf.bytes, d') :=
  readnLoop_refines usrbuf.fits hn (Nat.zero_add n) h

theorem readnInto_complete (usrbuf : UserBuf) {n : ℕ} (hn : n ≤ usrbuf.bytes.length)
    (d : Descriptor) (hfailed : .failed ∉ d.outcomes) : ∃ d',
    readnInto d usrbuf n = some (((min n d.rest.length : ℕ) : ℤ),
        d.rest.take n ++ usrbuf.bytes.drop (min n d.rest.length), d') ∧
      d'.rest = d.rest.drop n := by
  obtain ⟨d', hread, -, hrest⟩ :=
    Descriptor.lawful.readFully_spec hfailed n (n + d.outcomes.length) n [] le_rfl
  have hinto := readnInto_refines usrbuf hn hread
  rw [Int.sub_self, Int.zero_add, List.nil_append, begun, List.length_take] at hinto
  exact ⟨d', hinto, hrest⟩

/-- Transfers are complete under short counts, each and one behind the other. -/
theorem transfers_complete :
    (∀ (usrbuf : UserBuf) (n : ℕ) (d : Receiver), n ≤ usrbuf.bytes.length →
      .failed ∉ d.outcomes → .nothing ∉ d.outcomes →
      ∃ d' made, writen d usrbuf n = some ((n : ℤ), d') ∧
        d'.received = d.received ++ usrbuf.bytes.take n ∧ d'.offers = d.offers ++ made ∧
        (∀ o ∈ made, o.received ++ o.data = d.received ++ usrbuf.bytes.take n) ∧
        ∀ (target : UserBuf) (outcomes : List ReadOutcome) (later : List UInt8),
          n ≤ target.bytes.length → .failed ∉ outcomes →
          ∃ src, readnInto ⟨d'.received.drop d.received.length ++ later, outcomes⟩ target n =
              some ((n : ℤ), usrbuf.bytes.take n ++ target.bytes.drop n, src) ∧
            src.rest = later) ∧
    ∀ (usrbuf : UserBuf) (n : ℕ) (d : Descriptor), n ≤ usrbuf.bytes.length → .failed ∉ d.outcomes →
      ∃ d', readnInto d usrbuf n = some (((min n d.rest.length : ℕ) : ℤ),
          d.rest.take n ++ usrbuf.bytes.drop (min n d.rest.length), d') ∧
        d'.rest = d.rest.drop n := by
  refine ⟨?_, fun usrbuf n d hn hfailed => readnInto_complete usrbuf hn d hfailed⟩
  intro usrbuf n d hn hfailed hnothing
  obtain ⟨d', hwriten, hsent⟩ := writen_complete usrbuf hn d hfailed hnothing
  obtain ⟨made, hmade, hall⟩ := hsent.offers
  have hreceived : d'.received = d.received ++ usrbuf.bytes.take n := by
    rw [hsent.received, List.take_take, Nat.min_self]
  refine ⟨d', made, hwriten, hreceived, hmade, hall, ?_⟩
  intro target outcomes later htarget hquiet
  have hlen : (usrbuf.bytes.take n).length = n := List.length_take_of_le hn
  obtain ⟨src, hread, hrest⟩ :=
    readnInto_complete target htarget ⟨usrbuf.bytes.take n ++ later, outcomes⟩ hquiet
  rw [hreceived, List.drop_left]
  refine ⟨src, ?_, ?_⟩
  · rw [hread]
    simp [hlen]
  · rw [hrest]
    simp [hlen]

theorem transfers_complete_hello :
    (∃ d' src, writen ⟨bytes "old ", [.short 1, .interrupted, .short 0], false, []⟩
          ⟨bytes "hello world", by decide⟩ 5 = some (5, d') ∧
        d'.received = bytes "old hello" ∧
        readnInto ⟨d'.received.drop 4 ++ bytes "more", [.interrupted, .short 2]⟩
            ⟨bytes "--------", by decide⟩ 5 = some (5, bytes "hello---", src) ∧
        src.rest = bytes "more") ∧
    ∃ d', readnInto ⟨bytes "abc", [.short 0]⟩ ⟨bytes "--------", by decide⟩ 5 =
        some (3, bytes "abc-----", d') ∧ d'.rest = [] := by
  obtain ⟨hsend, hread⟩ := transfers_complete
  constructor
  · obtain ⟨d', made, hwriten, hreceived, -, -, hback⟩ :=
      hsend ⟨bytes "hello world", by decide⟩ 5
        ⟨bytes "old ", [.short 1, .interrupted, .short 0], false, []⟩ (by decide) (by decide)
        (by decide)
    obtain ⟨src, hsrc, hrest⟩ := hback ⟨bytes "--------", by decide⟩ [.interrupted, .short 2]
      (bytes "more") (by decide) (by decide)
    exact ⟨d', src, hwriten, hreceived, hsrc, hrest⟩
  · exact hread ⟨bytes "--------", by decide⟩ 5 ⟨bytes "abc", [.short 0]⟩ (by decide) (by decide)

end Rio
end HydrogenWeb
