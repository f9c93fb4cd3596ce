import Mathlib

set_option autoImplicit false

/-!
# Canonical numerals

Integers in a base `b`: a sign where one is needed and the digits, the first one first.
Every integer has one numeral, and reading the text of a numeral gives its value.
-/
namespace HydrogenWeb.Numerals

structure Alphabet (α : Type*) where
  minus : α
  digit : ℕ → α
  value : α → Option ℕ
  size : ℕ
  value_digit : ∀ d < size, value (digit d) = some d
  value_minus : value minus = none

/-- Only zero begins with the digit 0, and it has no other digit and no sign. -/
@[ext]
structure IntNumeral (b : ℕ) where
  negative : Bool
  digits : List ℕ
  below : ∀ d ∈ digits, d < b
  nonempty : digits ≠ []
  leading : digits.head? = some 0 → digits = [0] ∧ negative = false

variable {α : Type*} {b n k : ℕ}

/-- The digits of a number, the last one first. -/
def digitsOf (b n : ℕ) : List ℕ := if n = 0 then [0] else Nat.digits b n

theorem digitsOf_of_lt (h : n < b) : digitsOf b n = [n] := by
  by_cases hn : n = 0
  · rw [digitsOf, if_pos hn, hn]
  · rw [digitsOf, if_neg hn, Nat.digits_of_lt b n hn h]

theorem digitsOf_of_le (hb : 2 ≤ b) (h : b ≤ n) : digitsOf b n = n % b :: digitsOf b (n / b) := by
  have hn : n ≠ 0 := by omega
  have hdiv : n / b ≠ 0 := (Nat.div_pos h (by omega)).ne'
  rw [digitsOf, digitsOf, if_neg hn, if_neg hdiv, Nat.digits_eq_cons_digits_div hb hn]

theorem length_digitsOf_le (hb : 2 ≤ b) (hk : 0 < k) (h : n < b ^ k) :
    (digitsOf b n).length ≤ k := by
  by_cases hn : n = 0
  · rw [digitsOf, if_pos hn]
    exact hk
  · rw [digitsOf, if_neg hn]
    exact (Nat.digits_length_le_iff hb n).2 h

theorem digitsOf_lt (hb : 2 ≤ b) {d : ℕ} (h : d ∈ digitsOf b n) : d < b := by
  by_cases hn : n = 0
  · rw [digitsOf, if_pos hn, List.mem_singleton] at h
    omega
  · rw [digitsOf, if_neg hn] at h
    exact Nat.digits_lt_base hb h

theorem digitsOf_ne_nil : digitsOf b n ≠ [] := by
  by_cases hn : n = 0
  · rw [digitsOf, if_pos hn]
    exact List.cons_ne_nil 0 []
  · rw [digitsOf, if_neg hn]
    exact Nat.digits_ne_nil_iff_ne_zero.2 hn

theorem ofDigits_digitsOf (b n : ℕ) : Nat.ofDigits b (digitsOf b n) = n := by
  by_cases hn : n = 0
  · rw [digitsOf, if_pos hn, Nat.ofDigits_singleton, hn]
  · rw [digitsOf, if_neg hn, Nat.ofDigits_digits]

theorem getLast?_digitsOf (h : (digitsOf b n).getLast? = some 0) : n = 0 := by
  by_contra hn
  rw [digitsOf, if_neg hn, List.getLast?_eq_some_getLast (Nat.digits_ne_nil_iff_ne_zero.2 hn),
    Option.some.injEq] at h
  exact Nat.getLast_digit_ne_zero b hn h

namespace IntNumeral

def magnitude (n : IntNumeral b) : ℕ := Nat.ofDigits b n.digits.reverse

def value (n : IntNumeral b) : ℤ := if n.negative then -n.magnitude else n.magnitude

def text (A : Alphabet α) (n : IntNumeral b) : List α :=
  (if n.negative then [A.minus] else []) ++ n.digits.map A.digit

def ofInt (hb : 2 ≤ b) (v : ℤ) : IntNumeral b where
  negative := v < 0
  digits := (digitsOf b v.natAbs).reverse
  below := fun _ hd => digitsOf_lt hb (List.mem_reverse.1 hd)
  nonempty := List.reverse_ne_nil_iff.2 digitsOf_ne_nil
  leading := by
    intro h
    rw [List.head?_reverse] at h
    have hzero := Int.natAbs_eq_zero.1 (getLast?_digitsOf h)
    subst hzero
    exact ⟨rfl, rfl⟩

theorem magnitude_ofInt (hb : 2 ≤ b) (v : ℤ) : (ofInt hb v).magnitude = v.natAbs := by
  rw [magnitude, ofInt, List.reverse_reverse, ofDigits_digitsOf]

theorem value_ofInt (hb : 2 ≤ b) (v : ℤ) : (ofInt hb v).value = v := by
  have hsign : (ofInt hb v).negative = decide (v < 0) := rfl
  rw [value, magnitude_ofInt, hsign]
  by_cases hv : v < 0
  · rw [if_pos (decide_eq_true hv)]
    omega
  · rw [if_neg (by simpa using hv)]
    omega

/-- The digits are those of the magnitude. -/
theorem digits_eq (hb : 2 ≤ b) (n : IntNumeral b) : n.digits = (digitsOf b n.magnitude).reverse := by
  by_cases hzero : n.digits.head? = some 0
  · have hdigits := (n.leading hzero).1
    rw [magnitude, hdigits, List.reverse_singleton, Nat.ofDigits_singleton, digitsOf, if_pos rfl]
    rfl
  · have hlast : ∀ h : n.digits.reverse ≠ [], n.digits.reverse.getLast h ≠ 0 := by
      intro h hcon
      rw [List.getLast_reverse] at hcon
      rw [List.head?_eq_some_head n.nonempty, hcon] at hzero
      exact hzero rfl
    have hback : Nat.digits b n.magnitude = n.digits.reverse :=
      Nat.digits_ofDigits b hb _ (fun d hd => n.below d (List.mem_reverse.1 hd)) hlast
    have hpos : n.magnitude ≠ 0 := by
      rw [← Nat.digits_ne_nil_iff_ne_zero (b := b), hback]
      exact List.reverse_ne_nil_iff.2 n.nonempty
    rw [digitsOf, if_neg hpos, hback, List.reverse_reverse]

theorem natAbs_value (n : IntNumeral b) : n.value.natAbs = n.magnitude := by
  rw [value]
  split_ifs <;> omega

theorem value_neg_iff (hb : 2 ≤ b) (n : IntNumeral b) : n.value < 0 ↔ n.negative = true := by
  constructor
  · intro h
    by_contra hsign
    rw [value, if_neg hsign] at h
    omega
  · intro h
    have hpos : n.magnitude ≠ 0 := by
      intro hzero
      have hdigits := n.digits_eq hb
      rw [hzero, digitsOf, if_pos rfl, List.reverse_singleton] at hdigits
      have hsign := (n.leading (by rw [hdigits]; rfl)).2
      rw [h] at hsign
      cases hsign
    rw [value, if_pos h]
    omega

/-- No integer has a second numeral. -/
theorem value_injective (hb : 2 ≤ b) : Function.Injective (value : IntNumeral b → ℤ) := by
  intro n m h
  ext1
  · rw [Bool.eq_iff_iff, ← value_neg_iff hb, ← value_neg_iff hb, h]
  · rw [n.digits_eq hb, m.digits_eq hb, ← natAbs_value, ← natAbs_value, h]

end IntNumeral

namespace Alphabet

variable (A : Alphabet α)

def readDigits (b : ℕ) : ℕ → List α → Option ℕ
  | n, [] => some n
  | n, c :: s =>
    match A.value c with
    | none => none
    | some d => if d < b then readDigits b (n * b + d) s else none

def readMagnitude (b : ℕ) (s : List α) : Option ℕ :=
  if s.isEmpty then none else A.readDigits b 0 s

def read [DecidableEq α] (b : ℕ) (s : List α) : Option ℤ :=
  if s.head? = some A.minus then (A.readMagnitude b s.tail).map fun n : ℕ => -(n : ℤ)
  else (A.readMagnitude b s).map fun n : ℕ => (n : ℤ)

variable {A} in
theorem readDigits_map (hb : b ≤ A.size) {ds : List ℕ} (h : ∀ d ∈ ds, d < b) (n : ℕ) :
    A.readDigits b n (ds.map A.digit) = some (n * b ^ ds.length + Nat.ofDigits b ds.reverse) := by
  induction ds generalizing n with
  | nil => simp [readDigits]
  | cons d ds ih =>
    rw [List.forall_mem_cons] at h
    rw [List.map_cons, readDigits, A.value_digit d (h.1.trans_le hb)]
    dsimp only
    rw [if_pos h.1, ih h.2, Nat.ofDigits_reverse_cons, List.length_cons]
    congr 1
    ring

theorem readMagnitude_map (hb : b ≤ A.size) (n : IntNumeral b) :
    A.readMagnitude b (n.digits.map A.digit) = some n.magnitude := by
  rw [readMagnitude, if_neg (by simpa using n.nonempty), readDigits_map hb n.below, Nat.zero_mul,
    Nat.zero_add, IntNumeral.magnitude]

theorem digit_ne_minus {d : ℕ} (h : d < A.size) : A.digit d ≠ A.minus := by
  intro heq
  have hvalue := A.value_digit d h
  rw [heq, A.value_minus] at hvalue
  cases hvalue

/-- Reading undoes writing. -/
theorem read_text [DecidableEq α] (hb : b ≤ A.size) (n : IntNumeral b) :
    A.read b (n.text A) = some n.value := by
  cases hsign : n.negative with
  | true =>
    have htext : n.text A = A.minus :: n.digits.map A.digit := by
      rw [IntNumeral.text, if_pos hsign]
      rfl
    rw [htext, read, List.head?_cons, if_pos rfl, List.tail_cons, A.readMagnitude_map hb,
      IntNumeral.value, if_pos hsign]
    rfl
  | false =>
    have htext : n.text A = n.digits.map A.digit := by
      rw [IntNumeral.text, hsign]
      rfl
    have hhead : (n.digits.map A.digit).head? ≠ some A.minus := by
      rw [List.head?_map]
      intro hcon
      obtain ⟨d, hd, heq⟩ := Option.map_eq_some_iff.1 hcon
      exact A.digit_ne_minus ((n.below d (List.mem_of_head? hd)).trans_le hb) heq
    rw [htext, read, if_neg hhead, A.readMagnitude_map hb, IntNumeral.value, hsign]
    rfl

end Alphabet
end HydrogenWeb.Numerals
