import HydrogenWeb.ByteSource

set_option autoImplicit false

/-!
# Rio and Riob

A descriptor is the stream behind it and the outcomes of the next calls of `::read`. The
buffer of a Riob is kept as the code keeps it, with `_bufptr` as an index.
-/
namespace HydrogenWeb
open ByteSource

inductive ReadOutcome where
  | interrupted
  | failed
  /-- The call transfers at most `k + 1` bytes. -/
  | short (k : ℕ)
deriving DecidableEq

/-- When `outcomes` is used up, every call transfers all it can. -/
structure Descriptor where
  rest : List UInt8
  outcomes : List ReadOutcome
deriving DecidableEq

/-- `::read`, which returns no byte only at the end of the stream. -/
def Descriptor.read (d : Descriptor) (count : ℕ) : Attempt × Descriptor :=
  match d.outcomes with
  | [] => (.bytes (d.rest.take count), ⟨d.rest.drop count, []⟩)
  | .interrupted :: os => (.interrupted, ⟨d.rest, os⟩)
  | .failed :: os => (.failed, ⟨d.rest, os⟩)
  | .short k :: os =>
    (.bytes (d.rest.take (min (k + 1) count)), ⟨d.rest.drop (min (k + 1) count), os⟩)

namespace Rio

/-- The interruptions to come and the bytes to read bound the iterations. -/
def readn (d : Descriptor) (n : ℕ) : Option (ℤ × List UInt8 × Descriptor) :=
  readFully (fun d k => some (d.read k)) n (n + d.outcomes.length) n [] d

end Rio

def RIO_BUFSIZE : ℕ := 8192

structure Riob where
  fd : Descriptor
  cnt : ℤ
  bufptr : ℕ
  buf : List UInt8

namespace Riob

def create (fd : Descriptor) : Riob := ⟨fd, 0, 0, List.replicate RIO_BUFSIZE 0⟩

inductive Refilled where
  | ready
  | eof
  | failed
deriving DecidableEq

def refill : ℕ → Riob → Option (Refilled × Riob)
  | 0, _ => none
  | fuel + 1, b =>
    if 0 < b.cnt then some (.ready, b)
    else
      match b.fd.read RIO_BUFSIZE with
      | (.interrupted, fd) => refill fuel { b with fd, cnt := -1 }
      | (.failed, fd) => some (.failed, { b with fd, cnt := -1 })
      | (.bytes [], fd) => some (.eof, { b with fd, cnt := 0 })
      | (.bytes (c :: l), fd) =>
        refill fuel { b with fd, cnt := (c :: l).length, bufptr := 0
                             buf := (c :: l) ++ b.buf.drop (c :: l).length }

/-- `_read`: the bytes it copies; an error it reports is not EINTR. -/
def read (b : Riob) (n : ℕ) : Option (Attempt × Riob) :=
  match refill (b.fd.outcomes.length + 2) b with
  | none => none
  | some (.eof, b) => some (.bytes [], b)
  | some (.failed, b) => some (.failed, b)
  | some (.ready, b) =>
    let cnt := min n b.cnt.toNat
    some (.bytes ((b.buf.drop b.bufptr).take cnt),
      { b with bufptr := b.bufptr + cnt, cnt := b.cnt - cnt })

def readnb (b : Riob) (n : ℕ) : Option (ℤ × List UInt8 × Riob) := readFully read n n n [] b

/-- The loop of `readlineb` with `left` iterations before `n` reaches `maxlen`. The counter
is an `int`: `none` is its overflow. -/
def readlinebLoop : ℕ → ℕ → List UInt8 → Riob → Option (ℤ × List UInt8 × Riob)
  | 0, n, acc, b => some (n, acc, b)
  | left + 1, n, acc, b =>
    match b.read 1 with
    | none => none
    | some (.bytes [c], b) =>
      if c = 10 then some (n, acc ++ [c], b)
      else if 2 ^ 31 ≤ n + 1 then none
      else readlinebLoop left (n + 1) (acc ++ [c]) b
    | some (.bytes _, b) => if n = 1 then some (0, acc, b) else some (n, acc, b)
    | some (_, b) => some (-1, acc, b)

/-- The return value and the data bytes, without the NUL behind them. -/
def readlineb (b : Riob) (maxlen : ℕ) : Option (ℤ × List UInt8 × Riob) :=
  readlinebLoop (maxlen - 1) 1 [] b

def unread (b : Riob) : List UInt8 := (b.buf.drop b.bufptr).take b.cnt.toNat

def left (b : Riob) : List UInt8 := b.unread ++ b.fd.rest

structure Good (b : Riob) : Prop where
  size : b.buf.length = RIO_BUFSIZE
  inside : 0 < b.cnt → b.bufptr + b.cnt ≤ RIO_BUFSIZE
  quiet : .failed ∉ b.fd.outcomes

/-- What also holds behind a call that failed. -/
structure Sound (b : Riob) : Prop where
  size : b.buf.length = RIO_BUFSIZE
  inside : 0 < b.cnt → b.bufptr + b.cnt ≤ RIO_BUFSIZE

theorem Good.sound {b : Riob} (h : Good b) : Sound b := ⟨h.size, h.inside⟩

theorem create_sound (fd : Descriptor) : Sound (create fd) where
  size := List.length_replicate
  inside := fun hpos => absurd hpos (by simp [create])

theorem create_good {fd : Descriptor} (h : .failed ∉ fd.outcomes) : Good (create fd) where
  size := (create_sound fd).size
  inside := (create_sound fd).inside
  quiet := h

theorem unread_of_nonpos {b : Riob} (h : ¬ 0 < b.cnt) : b.unread = [] := by
  rw [unread, Int.toNat_of_nonpos (by omega), List.take_zero]

end Riob

/-- A call of `::read` takes the next bytes, is interrupted or fails. -/
theorem Descriptor.read_cases (d : Descriptor) {count : ℕ} (hcount : 0 < count) :
    (∃ data d', d.read count = (.bytes data, d') ∧ d.rest = data ++ d'.rest ∧
      data.length ≤ count ∧ (data = [] → d.rest = []) ∧ d'.outcomes <:+ d.outcomes) ∨
    (∃ d', d.read count = (.interrupted, d') ∧ d'.rest = d.rest ∧ d'.outcomes <:+ d.outcomes ∧
      d'.outcomes.length < d.outcomes.length) ∨
    ∃ d', d.read count = (.failed, d') ∧ d'.rest = d.rest ∧ d'.outcomes <:+ d.outcomes ∧
      .failed ∈ d.outcomes := by
  obtain ⟨rest, outcomes⟩ := d
  have htaken : ∀ m, 0 < m → (rest.take m = [] → rest = []) := by
    intro m hm hnil
    rcases List.take_eq_nil_iff.1 hnil with hzero | hnil
    · omega
    · exact hnil
  cases outcomes with
  | nil =>
    refine Or.inl ⟨_, _, rfl, (List.take_append_drop _ _).symm, ?_, htaken count hcount,
      List.suffix_refl _⟩
    exact List.length_take_le _ _
  | cons o os =>
    have hos : os <:+ o :: os := List.suffix_cons o os
    cases o with
    | interrupted => exact Or.inr (Or.inl ⟨_, rfl, rfl, hos, Nat.lt_succ_self _⟩)
    | failed => exact Or.inr (Or.inr ⟨_, rfl, rfl, hos, List.mem_cons_self⟩)
    | short k =>
      refine Or.inl ⟨_, _, rfl, (List.take_append_drop _ _).symm, ?_, htaken _ (by omega), hos⟩
      exact (List.length_take_le _ _).trans (Nat.min_le_right _ _)

theorem Descriptor.lawful : Lawful (fun (d : Descriptor) k => some (d.read k))
    (fun d => .failed ∉ d.outcomes) Descriptor.rest fun d => d.outcomes.length where
  attempt := by
    intro d k hquiet hk
    rcases Descriptor.read_cases d hk with
      ⟨data, d', hread, hrest, hlen, hend, hsuffix⟩ | ⟨d', hread, hrest, hsuffix, hless⟩ |
      ⟨d', -, -, -, hfailed⟩
    · exact Or.inl ⟨data, d', congrArg some hread, mt (fun hmem => hsuffix.subset hmem) hquiet,
        hrest, hlen, hend, hsuffix.length_le⟩
    · exact Or.inr ⟨d', congrArg some hread, mt (fun hmem => hsuffix.subset hmem) hquiet, hrest,
        hless⟩
    · exact absurd hfailed hquiet

theorem Rio.readn_spec {d : Descriptor} (h : .failed ∉ d.outcomes) (n : ℕ) : ∃ d',
    Rio.readn d n = some (((d.rest.take n).length : ℤ), d.rest.take n, d') := by
  obtain ⟨d', hread, -, -⟩ := Descriptor.lawful.readFully_spec h n _ n [] le_rfl
  refine ⟨d', hread.trans ?_⟩
  simp

namespace Riob

theorem loaded {b : Riob} (h : Sound b) {data : List UInt8} {fd : Descriptor}
    (hne : data ≠ []) (hlen : data.length ≤ RIO_BUFSIZE)
    {b' : Riob} (hb' : b' = { b with fd, cnt := data.length, bufptr := 0
                                     buf := data ++ b.buf.drop data.length }) :
    Sound b' ∧ 0 < b'.cnt ∧ b'.left = data ++ fd.rest := by
  subst hb'
  have hpos := List.length_pos_iff.2 hne
  refine ⟨⟨?_, ?_⟩, ?_, ?_⟩
  · rw [List.length_append, List.length_drop, h.size]
    omega
  · intro _
    change ((0 : ℕ) : ℤ) + data.length ≤ RIO_BUFSIZE
    omega
  · exact Int.natCast_pos.2 hpos
  · change (data ++ b.buf.drop data.length).take data.length ++ fd.rest = _
    rw [List.take_left]

/-- Without unread bytes in the buffer, only the stream counts. -/
theorem emptied {b : Riob} (h : Sound b) (hpos : ¬ 0 < b.cnt) {fd : Descriptor} (cnt : ℤ)
    (hcnt : ¬ 0 < cnt) (hrest : fd.rest = b.fd.rest) :
    Sound { b with fd, cnt } ∧ left { b with fd, cnt } = b.left := by
  refine ⟨⟨h.size, fun hcon => absurd hcon hcnt⟩, ?_⟩
  rw [left, left, unread_of_nonpos hpos, unread_of_nonpos hcnt]
  exact congrArg _ hrest

theorem refill_cases {fuel : ℕ} {b : Riob} (h : Sound b)
    (hfuel : b.fd.outcomes.length + 2 ≤ fuel ∨ (0 < b.cnt ∧ 1 ≤ fuel)) :
    ∃ b', Sound b' ∧ b'.left = b.left ∧ b'.fd.outcomes <:+ b.fd.outcomes ∧
      ((refill fuel b = some (.ready, b') ∧ 0 < b'.cnt) ∨
        (refill fuel b = some (.eof, b') ∧ b.left = []) ∨
        (refill fuel b = some (.failed, b') ∧ .failed ∈ b.fd.outcomes)) := by
  induction fuel generalizing b with
  | zero => omega
  | succ fuel ih =>
    by_cases hpos : 0 < b.cnt
    · exact ⟨b, h, rfl, List.suffix_refl _, Or.inl ⟨by rw [refill, if_pos hpos], hpos⟩⟩
    · have hleft : b.left = b.fd.rest := by rw [left, unread_of_nonpos hpos, List.nil_append]
      have hroom : b.fd.outcomes.length + 2 ≤ fuel + 1 := hfuel.resolve_right fun hcon => hpos hcon.1
      rcases Descriptor.read_cases b.fd (show 0 < RIO_BUFSIZE by decide) with
        ⟨data, fd, hread, hrest, hlen, hend, hsuffix⟩ | ⟨fd, hread, hrest, hsuffix, hless⟩ |
        ⟨fd, hread, hrest, hsuffix, hfailed⟩
      · cases data with
        | nil =>
          obtain ⟨hsound, hsame⟩ := emptied h hpos 0 (lt_irrefl _) hrest.symm
          refine ⟨{ b with fd, cnt := 0 }, hsound, hsame, hsuffix,
            Or.inr (Or.inl ⟨?_, hleft.trans (hend rfl)⟩)⟩
          rw [refill, if_neg hpos, hread]
        | cons c l =>
          obtain ⟨hsound, hcnt, hleft'⟩ := loaded h (List.cons_ne_nil c l) hlen rfl
          obtain ⟨b', hsound', hsame, hless, hcases⟩ := ih hsound (Or.inr ⟨hcnt, by omega⟩)
          rw [hleft', ← hrest, ← hleft] at hsame hcases
          refine ⟨b', hsound', hsame, hless.trans hsuffix, ?_⟩
          rw [refill, if_neg hpos, hread]
          exact hcases.imp_right (Or.imp_right (And.imp_right fun hmem => hsuffix.subset hmem))
      · obtain ⟨hsound, hleft'⟩ := emptied h hpos (-1) (by decide) hrest
        obtain ⟨b', hsound', hsame, hless', hcases⟩ := ih hsound (Or.inl (by
          change fd.outcomes.length + 2 ≤ fuel
          omega))
        rw [hleft'] at hsame hcases
        refine ⟨b', hsound', hsame, hless'.trans hsuffix, ?_⟩
        rw [refill, if_neg hpos, hread]
        exact hcases.imp_right (Or.imp_right (And.imp_right fun hmem => hsuffix.subset hmem))
      · obtain ⟨hsound, hsame⟩ := emptied h hpos (-1) (by decide) hrest
        refine ⟨{ b with fd, cnt := -1 }, hsound, hsame, hsuffix, Or.inr (Or.inr ⟨?_, hfailed⟩)⟩
        rw [refill, if_neg hpos, hread]

/-- `_read` hands out the next bytes, and none only at the end, or it fails. -/
theorem read_cases {b : Riob} (h : Sound b) {n : ℕ} (hn : 0 < n) :
    ∃ b', Sound b' ∧ b'.fd.outcomes <:+ b.fd.outcomes ∧
      ((∃ data, b.read n = some (.bytes data, b') ∧ b.left = data ++ b'.left ∧
          data.length ≤ n ∧ (data = [] → b.left = [])) ∨
        (b.read n = some (.failed, b') ∧ .failed ∈ b.fd.outcomes)) := by
  obtain ⟨b', hsound, hleft, hsuffix, hcases⟩ := refill_cases h (Or.inl le_rfl)
  rcases hcases with ⟨hready, hpos⟩ | ⟨heof, hnil⟩ | ⟨hfail, hmem⟩
  · have hinside := hsound.inside hpos
    have hsize := hsound.size
    have hlen : ((b'.buf.drop b'.bufptr).take (min n b'.cnt.toNat)).length = min n b'.cnt.toNat := by
      rw [List.length_take, List.length_drop]
      omega
    refine ⟨{ b' with
      bufptr := b'.bufptr + min n b'.cnt.toNat, cnt := b'.cnt - (min n b'.cnt.toNat : ℕ) },
      ⟨hsize, ?_⟩, hsuffix, Or.inl ⟨_, by rw [read, hready], ?_, ?_, ?_⟩⟩
    · intro _
      change ((b'.bufptr + min n b'.cnt.toNat : ℕ) : ℤ) + (b'.cnt - (min n b'.cnt.toNat : ℕ)) ≤ _
      omega
    · have hrest : (b'.cnt - (min n b'.cnt.toNat : ℕ)).toNat =
          b'.cnt.toNat - min n b'.cnt.toNat := by omega
      rw [← hleft, left, left, unread, unread, hrest, ← List.append_assoc, ← List.drop_drop,
        ← List.take_add]
      congr 2
      omega
    · rw [hlen]
      exact Nat.min_le_left _ _
    · intro hcon
      rw [hcon, List.length_nil] at hlen
      omega
  · exact ⟨b', hsound, hsuffix, Or.inl ⟨[], by rw [read, heof], hleft.symm, Nat.zero_le _,
      fun _ => hnil⟩⟩
  · exact ⟨b', hsound, hsuffix, Or.inr ⟨by rw [read, hfail], hmem⟩⟩

/-- What `_read` does with a request for one byte. -/
theorem read_one_cases {b : Riob} (h : Sound b) :
    ∃ b', Sound b' ∧ b'.fd.outcomes <:+ b.fd.outcomes ∧
      ((b.read 1 = some (.bytes [], b') ∧ b.left = [] ∧ b'.left = []) ∨
        (∃ c, b.read 1 = some (.bytes [c], b') ∧ b.left = c :: b'.left) ∨
        (b.read 1 = some (.failed, b') ∧ .failed ∈ b.fd.outcomes)) := by
  obtain ⟨b', hsound, hsuffix, ⟨data, hread, hleft, hlen, hend⟩ | hfail⟩ := read_cases h Nat.one_pos
  · refine ⟨b', hsound, hsuffix, ?_⟩
    cases data with
    | nil =>
      have hnil := hend rfl
      rw [hnil, List.nil_append] at hleft
      exact Or.inl ⟨hread, hnil, hleft.symm⟩
    | cons c data =>
      obtain rfl : data = [] := by
        rw [← List.length_eq_zero_iff]
        rw [List.length_cons] at hlen
        omega
      exact Or.inr (Or.inl ⟨c, hread, hleft⟩)
  · exact ⟨b', hsound, hsuffix, Or.inr (Or.inr hfail)⟩

theorem Good.of_suffix {b b' : Riob} (h : Good b) (hsound : Sound b')
    (hsuffix : b'.fd.outcomes <:+ b.fd.outcomes) : Good b' :=
  ⟨hsound.size, hsound.inside, fun hmem => h.quiet (hsuffix.subset hmem)⟩

theorem read_spec {b : Riob} (h : Good b) {n : ℕ} (hn : 0 < n) :
    ∃ data b', b.read n = some (.bytes data, b') ∧ Good b' ∧ b.left = data ++ b'.left ∧
      data.length ≤ n ∧ (data = [] → b.left = []) := by
  obtain ⟨b', hsound, hsuffix, ⟨data, hread, hleft, hlen, hend⟩ | ⟨-, hmem⟩⟩ :=
    read_cases h.sound hn
  · exact ⟨data, b', hread, h.of_suffix hsound hsuffix, hleft, hlen, hend⟩
  · exact absurd hmem h.quiet

theorem lawful : Lawful read Good left fun _ => 0 where
  attempt := by
    intro b k hgood hk
    obtain ⟨data, b', hread, hgood', hleft, hlen, hend⟩ := read_spec hgood hk
    exact Or.inl ⟨data, b', hread, hgood', hleft, hlen, hend, le_rfl⟩

theorem readnb_spec {b : Riob} (h : Good b) (n : ℕ) : ∃ b',
    b.readnb n = some (((b.left.take n).length : ℤ), b.left.take n, b') ∧ Good b' ∧
      b'.left = b.left.drop n := by
  obtain ⟨b', hread, hgood, hleft⟩ := lawful.readFully_spec h n n n [] le_rfl
  refine ⟨b', hread.trans ?_, hgood, hleft⟩
  simp

end Riob
end HydrogenWeb
