import HydrogenWeb.HyBuffer
import HydrogenWeb.Numerals

set_option autoImplicit false

/-!
# sio

The number formatting of the signal safe output. The `char` array behind a pointer is a
list of bytes; `none` is an access outside it, undefined arithmetic or a loop without end.
-/
namespace HydrogenWeb.Sio
open Numerals HyBuffer

def minus : UInt8 := 45

def digitChars : List UInt8 := bytes "0123456789abcdefghijklmnopqrstuvwxyz"

def ascii : Alphabet UInt8 where
  minus := minus
  digit := fun d => digitChars.getD d 0
  value := fun c => digitChars.idxOf? c
  size := 36
  value_digit := by decide
  value_minus := by decide

def strlenLoop : ℕ → List UInt8 → Option ℕ
  | _, [] => none
  | n, c :: p => if c ≠ 0 then strlenLoop (n + 1) p else some n

def strlen (s : List UInt8) : Option ℕ := strlenLoop 0 s

def reverseLoop : ℕ → ℤ → ℤ → List UInt8 → Option (List UInt8)
  | 0, _, _, _ => none
  | fuel + 1, i, j, s =>
    if i < j then do
      let c ← s[i.toNat]?
      let s ← store s i.toNat [← s[j.toNat]?]
      let s ← store s j.toNat [c]
      reverseLoop fuel (i + 1) (j - 1) s
    else some s

/-- `j` is an `int`, its first value a `size_t`. -/
def reverse (s : List UInt8) : Option (List UInt8) := do
  let n ← strlen s
  reverseLoop (n + 1) 0 (Int.bmod (sizeSub n 1) (2 ^ 32)) s

def digitChar (c : Int32) : UInt8 := (if c < 10 then c + 48 else c - 10 + 97).toInt8.toUInt8

/-- At most `fuel` iterations: the value of `i` behind the last one, and `s`. -/
def digitsLoop : ℕ → Int64 → Int32 → ℕ → List UInt8 → Option (ℕ × List UInt8)
  | 0, _, _, _, _ => none
  | fuel + 1, v, b, i, s =>
    if b = 0 then none else do
      let c := (v % b.toInt64).toInt32
      let s ← store s i [digitChar c]
      let v := v / b.toInt64
      if 0 < v then digitsLoop fuel v b (i + 1) s else some (i + 1, s)

def storeSign (sign : Bool) (i : ℕ) (s : List UInt8) : Option (ℕ × List UInt8) :=
  if sign then (store s i [minus]).map fun s => (i + 1, s) else some (i, s)

/-- The smallest `long` has no negation. From base 2 on, 63 iterations are enough. -/
def ltoa (v : Int64) (s : List UInt8) (b : Int32) : Option (List UInt8) :=
  if v = Int64.minValue then none else do
    let sign := decide (v < 0)
    let v := if sign then -v else v
    let (i, s) ← digitsLoop 63 v b 0 s
    let (i, s) ← storeSign sign i s
    let s ← store s i [0]
    reverse s

def text (s : List UInt8) : List UInt8 := s.takeWhile fun c => c ≠ 0

theorem store_cons (l r : List UInt8) (x c : UInt8) :
    store (l ++ x :: r) l.length [c] = some (l ++ c :: r) := by
  have hstore := store_append l r (show [x].length = [c].length from rfl)
  rwa [List.append_assoc, List.append_assoc] at hstore

theorem store_next {l s : List UInt8} (h : l.length < s.length) (c : UInt8) :
    store (begun l s) l.length [c] = some (begun (l ++ [c]) s) := store_begun h

theorem getElem?_append_cons (l r : List UInt8) (x : UInt8) : (l ++ x :: r)[l.length]? = some x := by
  rw [List.getElem?_append_right le_rfl, Nat.sub_self, List.getElem?_cons_zero]

theorem strlenLoop_append {t : List UInt8} (h : 0 ∉ t) (n : ℕ) (r : List UInt8) :
    strlenLoop n (t ++ 0 :: r) = some (n + t.length) := by
  induction t generalizing n with
  | nil => rfl
  | cons c t ih =>
    rw [List.mem_cons, not_or] at h
    rw [List.cons_append, strlenLoop, if_pos (Ne.symm h.1), ih h.2, List.length_cons]
    congr 1
    omega

theorem text_append {t : List UInt8} (h : 0 ∉ t) (r : List UInt8) : text (t ++ 0 :: r) = t := by
  have hall : ∀ c ∈ t, decide (c ≠ 0) = true := by
    intro c hc
    exact decide_eq_true (ne_of_mem_of_not_mem hc h)
  rw [text, List.takeWhile_append_of_pos hall, List.takeWhile_cons_of_neg (by decide),
    List.append_nil]

/-- One exchange puts the ends of `x :: m ++ [y]` in place. -/
theorem reverseLoop_exchange (fuel : ℕ) (l m r : List UInt8) (x y : UInt8) {i j : ℤ}
    (hi : i = l.length) (hj : j = l.length + m.length + 1) :
    reverseLoop (fuel + 1) i j (l ++ x :: (m ++ y :: r)) =
      reverseLoop fuel (i + 1) (j - 1) (l ++ y :: (m ++ x :: r)) := by
  have hless : i < j := by omega
  have hi' : i.toNat = l.length := by omega
  have hj' (z : UInt8) : j.toNat = (l ++ z :: m).length := by
    rw [List.length_append, List.length_cons]
    omega
  have hsplit (z w : UInt8) : l ++ z :: (m ++ w :: r) = (l ++ z :: m) ++ w :: r := by
    rw [List.append_assoc, List.cons_append]
  have hlast : (l ++ x :: (m ++ y :: r))[j.toNat]? = some y := by
    rw [hsplit, hj' x, getElem?_append_cons]
  have hstore : store (l ++ y :: (m ++ y :: r)) j.toNat [x] = some (l ++ y :: (m ++ x :: r)) := by
    rw [hsplit, hsplit, hj' y, store_cons]
  rw [reverseLoop, if_pos hless, hlast, hi', getElem?_append_cons]
  simp only [Option.bind_eq_bind, Option.bind_some]
  rw [store_cons, Option.bind_some, hstore, Option.bind_some]

/-- The bytes between the two indices are reversed, the others stay. -/
theorem reverseLoop_spec (fuel : ℕ) (l m r : List UInt8) {i j : ℤ} (hfuel : m.length < 2 * fuel)
    (hi : i = l.length) (hj : j = l.length + m.length - 1) :
    reverseLoop fuel i j (l ++ m ++ r) = some (l ++ m.reverse ++ r) := by
  induction fuel generalizing l m r i j with
  | zero => omega
  | succ fuel ih =>
    cases m with
    | nil =>
      have hend : ¬ i < j := by
        rw [hi, hj, List.length_nil]
        omega
      rw [reverseLoop, if_neg hend, List.reverse_nil]
    | cons x m =>
      rcases List.eq_nil_or_concat m with rfl | ⟨m, y, rfl⟩
      · -- one byte in the middle
        have hend : ¬ i < j := by
          rw [hi, hj, List.length_singleton]
          omega
        rw [reverseLoop, if_neg hend, List.reverse_singleton]
      · rw [List.concat_eq_append] at hfuel hj ⊢
        simp only [List.length_cons, List.length_append, List.length_nil] at hfuel hj
        have hrest := ih (l ++ [y]) m (x :: r) (i := i + 1) (j := j - 1) (by omega)
          (by rw [hi, List.length_append]; rfl)
          (by rw [hj, List.length_append, List.length_singleton]; omega)
        have hstart : l ++ x :: (m ++ [y]) ++ r = l ++ x :: (m ++ y :: r) := by simp
        have hend : l ++ [y] ++ m.reverse ++ x :: r = l ++ (x :: (m ++ [y])).reverse ++ r := by simp
        rw [hstart, reverseLoop_exchange fuel l m r x y hi (by omega), ← hend, ← hrest]
        congr 1
        simp

/-- `_reverse` on every string whose length is an `int`. -/
theorem reverse_spec {t : List UInt8} (h : 0 ∉ t) (hlen : t.length < 2 ^ 31) (r : List UInt8) :
    reverse (t ++ 0 :: r) = some (t.reverse ++ 0 :: r) := by
  have hj : Int.bmod (sizeSub t.length 1) (2 ^ 32) = (t.length : ℤ) - 1 := by
    cases t with
    | nil => decide
    | cons c t =>
      rw [sizeSub_of_le (by rw [List.length_cons]; omega), List.length_cons, Nat.add_sub_cancel]
      rw [List.length_cons] at hlen
      rw [Int.bmod_eq_of_le (by omega) (by omega)]
      omega
  rw [reverse, strlen, strlenLoop_append h, Option.bind_eq_bind, Option.bind_some, Nat.zero_add, hj]
  exact reverseLoop_spec (t.length + 1) [] t (0 :: r) (by omega) rfl (by rw [List.length_nil]; omega)

theorem reverse_begun {t : List UInt8} (h : 0 ∉ t) (hlen : t.length < 2 ^ 31) (s : List UInt8) :
    reverse (begun (t ++ [0]) s) = some (begun (t.reverse ++ [0]) s) := by
  have hsame : (t.reverse ++ [0]).length = (t ++ [0]).length := by simp
  rw [begun, begun, hsame, List.append_assoc, List.append_assoc]
  exact reverse_spec h hlen _

theorem digitChar_spec : ∀ d < 36, digitChar (Int32.ofNat d) = ascii.digit d := by
  decide

theorem digit_ne_zero : ∀ d < 36, ascii.digit d ≠ 0 := by
  decide

section
variable {v : Int64} {b : Int32}

/-- What an iteration stores and what it leaves of `v`. -/
theorem digit_step (hv : 0 ≤ v.toInt) (hb : 2 ≤ b.toInt) (hb' : b.toInt ≤ 36) :
    digitChar (v % b.toInt64).toInt32 = ascii.digit (v.toInt.toNat % b.toInt.toNat) ∧
      (v / b.toInt64).toInt = (v.toInt.toNat / b.toInt.toNat : ℕ) := by
  obtain ⟨n, hn⟩ := Int.eq_ofNat_of_zero_le hv
  obtain ⟨k, hk⟩ := Int.eq_ofNat_of_zero_le (show 0 ≤ b.toInt by omega)
  have hmod : n % k < 36 := (Nat.mod_lt n (by omega)).trans_le (by omega)
  have hmin : v ≠ Int64.minValue := by
    rintro rfl
    exact absurd hv (by decide)
  constructor
  · have hc : (v % b.toInt64).toInt32 = Int32.ofNat (n % k) := by
      rw [← Int32.toInt_inj, Int64.toInt_toInt32, Int64.toInt_mod, Int32.toInt_toInt64, hn, hk,
        ← Int.ofNat_tmod, Int32.toInt_ofNat_of_lt (by omega), Int.bmod_eq_of_le (by omega) (by omega)]
    rw [hc, digitChar_spec _ hmod, hn, hk, Int.toNat_natCast, Int.toNat_natCast]
  · rw [Int64.toInt_div_of_ne_left _ _ hmin, Int32.toInt_toInt64, hn, hk, Int.toNat_natCast,
      Int.toNat_natCast]
    rfl

/-- The loop stores the digits of `v` behind `l`, the last one first. -/
theorem digitsLoop_spec {fuel : ℕ} (hv : 0 ≤ v.toInt) (hb : 2 ≤ b.toInt) (hb' : b.toInt ≤ 36)
    {ds : List ℕ} (hds : ds = digitsOf b.toInt.toNat v.toInt.toNat) (hfuel : ds.length ≤ fuel)
    (l : List UInt8) {s : List UInt8} (hs : l.length + ds.length ≤ s.length) :
    digitsLoop fuel v b l.length (begun l s) =
      some ((l ++ ds.map ascii.digit).length, begun (l ++ ds.map ascii.digit) s) := by
  have hpos : 0 < ds.length := by
    rw [hds]
    exact List.length_pos_iff.2 digitsOf_ne_nil
  induction fuel generalizing v l ds with
  | zero => omega
  | succ fuel ih =>
    have hzero : b ≠ 0 := by
      rintro rfl
      exact absurd hb (by decide)
    obtain ⟨hdigit, hdiv⟩ := digit_step hv hb hb'
    rw [digitsLoop, if_neg hzero]
    simp only [Option.bind_eq_bind]
    rw [store_next (by omega), Option.bind_some, hdigit]
    by_cases hless : v.toInt.toNat < b.toInt.toNat
    · -- the last digit
      have hend : ¬ 0 < v / b.toInt64 := by
        rw [Int64.lt_iff_toInt_lt, hdiv, Nat.div_eq_of_lt hless]
        exact lt_irrefl _
      rw [if_neg hend, hds, digitsOf_of_lt hless, Nat.mod_eq_of_lt hless, List.map_singleton,
        List.length_append, List.length_singleton]
    · have hnext : 0 < v / b.toInt64 := by
        have hquot := Nat.div_pos (Nat.le_of_not_lt hless) (by omega)
        rw [Int64.lt_iff_toInt_lt, hdiv]
        exact Int.natCast_pos.2 hquot
      have hvalue : (v / b.toInt64).toInt.toNat = v.toInt.toNat / b.toInt.toNat := by
        rw [hdiv, Int.toNat_natCast]
      rw [digitsOf_of_le (by omega) (by omega), ← hvalue] at hds
      subst hds
      rw [List.length_cons] at hfuel hs
      have hrest := ih (v := v / b.toInt64) (by omega) rfl (by omega)
        (l ++ [ascii.digit (v.toInt.toNat % b.toInt.toNat)])
        (by rw [List.length_append, List.length_singleton]; omega)
        (List.length_pos_iff.2 digitsOf_ne_nil)
      rw [← List.append_cons, List.length_append, List.length_singleton] at hrest
      rw [if_pos hnext, List.map_cons]
      exact hrest

theorem neg_iff : v < 0 ↔ v.toInt < 0 := Int64.lt_iff_toInt_lt

theorem lt_toInt (hv : v ≠ Int64.minValue) : -2 ^ 63 < v.toInt := by
  refine lt_of_le_of_ne (Int64.le_toInt v) ?_
  intro hcon
  exact hv (Int64.toInt_inj.1 hcon.symm)

/-- The negation of a negative `long` does not overflow. -/
theorem toInt_abs (hv : v ≠ Int64.minValue) :
    (if decide (v < 0) then -v else v).toInt = v.toInt.natAbs := by
  have hlow := lt_toInt hv
  have hhigh := Int64.toInt_lt v
  by_cases hsign : v < 0
  · have hneg := neg_iff.1 hsign
    rw [if_pos (decide_eq_true hsign), Int64.toInt_neg, Int.bmod_eq_of_le (by omega) (by omega)]
    omega
  · have hpos := mt neg_iff.2 hsign
    rw [if_neg (by simpa using hsign)]
    omega

theorem storeSign_spec (sign : Bool) {l s : List UInt8} (h : l.length < s.length) :
    storeSign sign l.length (begun l s) = some ((l ++ if sign then [minus] else []).length,
      begun (l ++ if sign then [minus] else []) s) := by
  cases sign with
  | true =>
    rw [storeSign, if_pos rfl, if_pos rfl, store_next h, Option.map_some, List.length_append,
      List.length_singleton]
  | false => rw [storeSign, if_neg Bool.false_ne_true, if_neg Bool.false_ne_true, List.append_nil]

theorem text_ofInt (hb : 2 ≤ b.toInt.toNat) (v : ℤ) :
    (IntNumeral.ofInt hb v).text ascii = ((digitsOf b.toInt.toNat v.natAbs).map ascii.digit ++
      if decide (v < 0) then [minus] else []).reverse := by
  rw [List.reverse_append, ← List.map_reverse]
  cases hsign : decide (v < 0) <;> simp [IntNumeral.text, IntNumeral.ofInt, hsign, ascii]

theorem digits_le (hv : v ≠ Int64.minValue) (hb : 2 ≤ b.toInt.toNat) :
    (digitsOf b.toInt.toNat v.toInt.natAbs).length ≤ 63 := by
  have hpow : 2 ^ 63 ≤ b.toInt.toNat ^ 63 := Nat.pow_le_pow_left hb 63
  have hhigh := Int64.toInt_lt v
  have hlow := lt_toInt hv
  exact length_digitsOf_le hb (by omega) (by omega)

theorem text_ne_zero (hb' : b.toInt ≤ 36) (n : IntNumeral b.toInt.toNat) : 0 ∉ n.text ascii := by
  rw [IntNumeral.text, List.mem_append, not_or]
  constructor
  · split_ifs
    · decide
    · exact List.not_mem_nil
  · intro hmem
    obtain ⟨d, hd, hzero⟩ := List.mem_map.1 hmem
    have hless := n.below d hd
    exact digit_ne_zero d (by omega) hzero

theorem text_length_le (hv : v ≠ Int64.minValue) (hb : 2 ≤ b.toInt.toNat) :
    ((IntNumeral.ofInt hb v.toInt).text ascii).length ≤ 64 := by
  have hlen := digits_le hv hb
  rw [text_ofInt, List.length_reverse, List.length_append, List.length_map]
  split_ifs
  · rw [List.length_singleton]
    omega
  · rw [List.length_nil]
    omega

/-- The sign, the digits and the NUL are stored, what is behind them stays. -/
theorem ltoa_spec (hv : v ≠ Int64.minValue) (hb : 2 ≤ b.toInt.toNat) (hb' : b.toInt ≤ 36)
    {s : List UInt8} (hs : ((IntNumeral.ofInt hb v.toInt).text ascii).length < s.length) :
    ltoa v s b = some (begun ((IntNumeral.ofInt hb v.toInt).text ascii ++ [0]) s) := by
  have habs := toInt_abs hv
  have hsign : decide (v < 0) = decide (v.toInt < 0) := decide_eq_decide.2 neg_iff
  have hnul := text_ne_zero hb' (IntNumeral.ofInt hb v.toInt)
  have hdslen := digits_le hv hb
  have hlen := text_length_le hv hb
  have hds : digitsOf b.toInt.toNat v.toInt.natAbs =
      digitsOf b.toInt.toNat (if decide (v < 0) then -v else v).toInt.toNat := by
    rw [habs, Int.toNat_natCast]
  rw [text_ofInt] at hs hnul hlen ⊢
  rw [List.length_reverse] at hs hlen
  rw [List.mem_reverse] at hnul
  have hroom : (digitsOf b.toInt.toNat v.toInt.natAbs).length < s.length := by
    rw [List.length_append, List.length_map] at hs
    omega
  have hdigits := digitsLoop_spec (by omega) (by omega) hb' hds hdslen [] (s := s)
    (by rw [List.length_nil]; omega)
  have hsigned := storeSign_spec (decide (v.toInt < 0))
    (l := (digitsOf b.toInt.toNat v.toInt.natAbs).map ascii.digit) (s := s)
    (by rw [List.length_map]; omega)
  rw [List.nil_append] at hdigits
  rw [ltoa, if_neg hv]
  simp only [Option.bind_eq_bind]
  rw [show digitsLoop 63 _ b 0 s = _ from hdigits, Option.bind_some, hsign]
  dsimp only
  rw [hsigned, Option.bind_some]
  dsimp only
  rw [store_next hs, Option.bind_some]
  exact reverse_begun hnul (by omega) s

/-- Reading what `_ltoa` leaves gives its argument. -/
theorem read_ltoa (hb : 2 ≤ b.toInt.toNat) (hb' : b.toInt ≤ 36) {s out : List UInt8}
    (hs : 128 ≤ s.length) (h : ltoa v s b = some out) :
    text out = (IntNumeral.ofInt hb v.toInt).text ascii ∧
      ascii.read b.toInt.toNat (text out) = some v.toInt := by
  have hv : v ≠ Int64.minValue := by
    rintro rfl
    rw [ltoa, if_pos rfl] at h
    cases h
  have hlen := text_length_le hv hb
  rw [ltoa_spec hv hb hb' (by omega), Option.some.injEq] at h
  have htext : text out = (IntNumeral.ofInt hb v.toInt).text ascii := by
    rw [← h, begun, List.append_assoc]
    exact text_append (text_ne_zero hb' _) _
  refine ⟨htext, ?_⟩
  rw [htext, ascii.read_text (by change _ ≤ 36; omega), IntNumeral.value_ofInt]

/-- `_ltoa` leaves the one numeral of `v`. -/
theorem ltoa_exact (v : Int64) (hv : v ≠ Int64.minValue) (b : Int32) (hb : 2 ≤ b) (hb' : b ≤ 36)
    (s : List UInt8) (hs : 128 ≤ s.length) :
    ∃ (n : IntNumeral b.toInt.toNat) (out : List UInt8), ltoa v s b = some out ∧
      n.value = v.toInt ∧ (∀ m : IntNumeral b.toInt.toNat, m.value = v.toInt → m = n) ∧
      (n.negative = true ↔ v < 0) ∧
      out = n.text ascii ++ 0 :: s.drop ((n.text ascii).length + 1) ∧
      (n.text ascii).length + 1 ≤ 128 ∧ text out = n.text ascii ∧
      ascii.read b.toInt.toNat (text out) = some v.toInt ∧
      ∀ w s' out', 128 ≤ s'.length → w ≠ v → ltoa w s' b = some out' → text out' ≠ text out := by
  have hlow : 2 ≤ b.toInt := Int32.le_iff_toInt_le.1 hb
  have hhigh : b.toInt ≤ 36 := Int32.le_iff_toInt_le.1 hb'
  have hbase : 2 ≤ b.toInt.toNat := by omega
  have hlen := text_length_le hv hbase
  have hout := ltoa_spec hv hbase hhigh (s := s) (by omega)
  have hvalue := IntNumeral.value_ofInt hbase v.toInt
  obtain ⟨htext, hread⟩ := read_ltoa hbase hhigh hs hout
  refine ⟨IntNumeral.ofInt hbase v.toInt, _, hout, hvalue, ?_, ?_, ?_, by omega, htext, hread, ?_⟩
  · intro m hm
    exact IntNumeral.value_injective hbase (hm.trans hvalue.symm)
  · rw [← IntNumeral.value_neg_iff hbase, hvalue]
    exact neg_iff.symm
  · rw [begun, List.length_append, List.append_assoc]
    rfl
  · intro w s' out' hs' hne hout' heq
    obtain ⟨-, hread'⟩ := read_ltoa hbase hhigh hs' hout'
    rw [heq, hread, Option.some.injEq] at hread'
    exact hne (Int64.toInt_inj.1 hread'.symm)

theorem ltoa_exact_hex :
    ltoa (-255) (List.replicate 128 7) 16 = some (bytes "-ff" ++ 0 :: List.replicate 124 7) ∧
      ∃ (n : IntNumeral 16) (out : List UInt8), ltoa (-255) (List.replicate 128 7) 16 = some out ∧
        n.value = -255 ∧ n.negative = true ∧ text out = n.text ascii ∧
        ascii.read 16 (text out) = some (-255) := by
  refine ⟨by decide +kernel, ?_⟩
  obtain ⟨n, out, hout, hvalue, -, hsign, -, -, htext, hread, -⟩ :=
    ltoa_exact (-255) (by decide) 16 (by decide) (by decide) (List.replicate 128 7)
      (by rw [List.length_replicate])
  exact ⟨n, out, hout, hvalue, hsign.2 (by decide), htext, hread⟩

end

end HydrogenWeb.Sio
