import HydrogenWeb.ThreadCensus
import HydrogenWeb.TransitionRuns

set_option autoImplicit false

/-!
# SharedBuf

Any number of threads, named by `τ`, call `insert` and `remove`. A step is one `wait` that
got through, one `post`, or what a call does under the mutex. `inserted` and `removed`
record the steps that changed the deque.
-/
namespace HydrogenWeb
open TransitionRuns ThreadCensus

structure Sem where
  count : ℤ
deriving DecidableEq

namespace Sem

def wait (s : Sem) : Option Sem := if s.count = 0 then none else some ⟨s.count - 1⟩

def post (s : Sem) : Sem := ⟨s.count + 1⟩

end Sem

inductive BufPoint where
  | idle
  /-- In `insert`, after `slots.wait()`. -/
  | hasSlot (item : ℤ)
  /-- In `insert`, after `push_back`. -/
  | pushed
  /-- In `remove`, after `items.wait()`. -/
  | hasItem
  /-- In `remove`, after `pop_front`. -/
  | popped (item : ℤ)
deriving DecidableEq

structure SharedBuf (τ : Type*) where
  buf : List ℤ
  slots : Sem
  items : Sem
  point : τ → BufPoint
  inserted : List ℤ
  removed : List ℤ

namespace SharedBuf

variable {τ : Type*}

inductive Action (τ : Type*) where
  | insert (t : τ) (item : ℤ)
  | push (t : τ)
  | postItem (t : τ)
  | remove (t : τ)
  | pop (t : τ)
  | postSlot (t : τ)

def create (n : ℤ) : SharedBuf τ := ⟨[], ⟨n⟩, ⟨0⟩, fun _ => .idle, [], []⟩

variable [DecidableEq τ]

def moveTo (s : SharedBuf τ) (t : τ) (p : BufPoint) : SharedBuf τ :=
  { s with point := Function.update s.point t p }

/-- `none` also where `front` and `pop_front` would run on an empty deque. -/
def step (s : SharedBuf τ) : Action τ → Option (SharedBuf τ)
  | .insert t item =>
    match s.point t with
    | .idle => s.slots.wait.map fun slots => { s with slots }.moveTo t (.hasSlot item)
    | _ => none
  | .push t =>
    match s.point t with
    | .hasSlot item =>
      some ({ s with buf := s.buf ++ [item], inserted := s.inserted ++ [item] }.moveTo t .pushed)
    | _ => none
  | .postItem t =>
    match s.point t with
    | .pushed => some ({ s with items := s.items.post }.moveTo t .idle)
    | _ => none
  | .remove t =>
    match s.point t with
    | .idle => s.items.wait.map fun items => { s with items }.moveTo t .hasItem
    | _ => none
  | .pop t =>
    match s.point t, s.buf with
    | .hasItem, item :: rest =>
      some ({ s with buf := rest, removed := s.removed ++ [item] }.moveTo t (.popped item))
    | _, _ => none
  | .postSlot t =>
    match s.point t with
    | .popped _ => some ({ s with slots := s.slots.post }.moveTo t .idle)
    | _ => none

def Between (p : BufPoint) : Prop := p ≠ .idle

/-- The deque has an element for the thread that `items` does not count. -/
def Holds (p : BufPoint) : Prop := p = .pushed ∨ p = .hasItem

structure Invariant (n : ℤ) (s : SharedBuf τ) : Prop where
  slots : 0 ≤ s.slots.count
  items : 0 ≤ s.items.count
  total : ∃ b : ℕ, Census s.point Between b ∧ s.slots.count + s.items.count + b = n
  length : ∃ k : ℕ, Census s.point Holds k ∧ s.buf.length = s.items.count + k
  fifo : s.removed ++ s.buf = s.inserted

/-- What holds of the buffer in every state: `pop_front` finds an element. -/
structure BoundedFifo (n : ℤ) (s : SharedBuf τ) : Prop where
  bounded : (s.buf.length : ℤ) ≤ n
  nonempty : ∀ t, s.point t = .hasItem → s.buf ≠ []
  finite : {t | s.point t ≠ .idle}.Finite
  total : s.slots.count + s.items.count + {t | s.point t ≠ .idle}.ncard = n
  fifo : s.removed ++ s.buf = s.inserted

omit [DecidableEq τ] in
theorem create_invariant {n : ℤ} (hn : 0 ≤ n) : Invariant n (create n : SharedBuf τ) where
  slots := hn
  items := le_rfl
  total := ⟨0, Census.zero fun _ h => h rfl, by simp [create]⟩
  length := ⟨0, Census.zero (by simp [create, Holds]), rfl⟩
  fifo := rfl

omit [DecidableEq τ] in
theorem Invariant.boundedFifo {n : ℤ} {s : SharedBuf τ} (h : Invariant n s) : BoundedFifo n s := by
  obtain ⟨b, hb, htotal⟩ := h.total
  obtain ⟨k, hk, hlength⟩ := h.length
  have hslots := h.slots
  have hitems := h.items
  constructor
  · -- whoever holds an element is in a call
    have hle : k ≤ b := by
      apply Census.le _ hk hb
      rintro p (rfl | rfl)
      · exact fun hcon => (nomatch hcon)
      · exact fun hcon => (nomatch hcon)
    omega
  · intro t ht hnil
    have hpos := hk.pos (Or.inr ht)
    rw [hnil, List.length_nil] at hlength
    omega
  · exact hb.finite
  · rw [← htotal, ← hb.card]
    rfl
  · exact h.fifo

theorem insert_invariant {n : ℤ} {s u : SharedBuf τ} (h : Invariant n s) {t : τ} {item : ℤ}
    (hstep : s.step (.insert t item) = some u) : Invariant n u := by
  obtain ⟨b, hb, htotal⟩ := h.total
  obtain ⟨k, hk, hlength⟩ := h.length
  have hslots := h.slots
  rw [step] at hstep
  split at hstep
  · rename_i hidle
    obtain ⟨slots, hwait, rfl⟩ := Option.map_eq_some_iff.1 hstep
    rw [Sem.wait] at hwait
    split_ifs at hwait with hzero
    cases hwait
    refine ⟨?_, h.items, ⟨b + 1, ?_, ?_⟩, ⟨k, ?_, hlength⟩, h.fifo⟩
    · change 0 ≤ s.slots.count - 1
      omega
    · apply hb.enter
      · simp [Between, hidle]
      · simp [Between]
    · change s.slots.count - 1 + s.items.count + ((b + 1 : ℕ) : ℤ) = n
      omega
    · apply hk.stay
      simp [Holds, hidle]
  · cases hstep

theorem push_invariant {n : ℤ} {s u : SharedBuf τ} (h : Invariant n s) {t : τ}
    (hstep : s.step (.push t) = some u) : Invariant n u := by
  obtain ⟨b, hb, htotal⟩ := h.total
  obtain ⟨k, hk, hlength⟩ := h.length
  rw [step] at hstep
  split at hstep
  · rename_i item hpoint
    cases hstep
    refine ⟨h.slots, h.items, ⟨b, ?_, htotal⟩, ⟨k + 1, ?_, ?_⟩, ?_⟩
    · apply hb.stay
      simp [Between, hpoint]
    · apply hk.enter
      · simp [Holds, hpoint]
      · simp [Holds]
    · change ((s.buf ++ [item]).length : ℤ) = s.items.count + ((k + 1 : ℕ) : ℤ)
      rw [List.length_append, List.length_singleton]
      omega
    · change s.removed ++ (s.buf ++ [item]) = s.inserted ++ [item]
      rw [← List.append_assoc, h.fifo]
  · cases hstep

theorem postItem_invariant {n : ℤ} {s u : SharedBuf τ} (h : Invariant n s) {t : τ}
    (hstep : s.step (.postItem t) = some u) : Invariant n u := by
  obtain ⟨b, hb, htotal⟩ := h.total
  obtain ⟨k, hk, hlength⟩ := h.length
  have hitems := h.items
  rw [step] at hstep
  split at hstep
  · rename_i hpoint
    cases hstep
    obtain ⟨b, rfl⟩ := Nat.exists_eq_succ_of_ne_zero (hb.pos (t := t) (by simp [Between, hpoint])).ne'
    obtain ⟨k, rfl⟩ := Nat.exists_eq_succ_of_ne_zero (hk.pos (t := t) (Or.inl hpoint)).ne'
    refine ⟨h.slots, ?_, ⟨b, ?_, ?_⟩, ⟨k, ?_, ?_⟩, h.fifo⟩
    · change 0 ≤ s.items.count + 1
      omega
    · apply hb.leave
      · simp [Between, hpoint]
      · simp [Between]
    · change s.slots.count + (s.items.count + 1) + (b : ℤ) = n
      omega
    · apply hk.leave
      · exact Or.inl hpoint
      · simp [Holds]
    · change (s.buf.length : ℤ) = s.items.count + 1 + (k : ℤ)
      omega
  · cases hstep

theorem remove_invariant {n : ℤ} {s u : SharedBuf τ} (h : Invariant n s) {t : τ}
    (hstep : s.step (.remove t) = some u) : Invariant n u := by
  obtain ⟨b, hb, htotal⟩ := h.total
  obtain ⟨k, hk, hlength⟩ := h.length
  have hitems := h.items
  rw [step] at hstep
  split at hstep
  · rename_i hidle
    obtain ⟨items, hwait, rfl⟩ := Option.map_eq_some_iff.1 hstep
    rw [Sem.wait] at hwait
    split_ifs at hwait with hzero
    cases hwait
    refine ⟨h.slots, ?_, ⟨b + 1, ?_, ?_⟩, ⟨k + 1, ?_, ?_⟩, h.fifo⟩
    · change 0 ≤ s.items.count - 1
      omega
    · apply hb.enter
      · simp [Between, hidle]
      · simp [Between]
    · change s.slots.count + (s.items.count - 1) + ((b + 1 : ℕ) : ℤ) = n
      omega
    · apply hk.enter
      · simp [Holds, hidle]
      · simp [Holds]
    · change (s.buf.length : ℤ) = s.items.count - 1 + ((k + 1 : ℕ) : ℤ)
      omega
  · cases hstep

theorem pop_invariant {n : ℤ} {s u : SharedBuf τ} (h : Invariant n s) {t : τ}
    (hstep : s.step (.pop t) = some u) : Invariant n u := by
  obtain ⟨b, hb, htotal⟩ := h.total
  obtain ⟨k, hk, hlength⟩ := h.length
  rw [step] at hstep
  split at hstep
  · rename_i item rest hpoint hbuf
    cases hstep
    obtain ⟨k, rfl⟩ := Nat.exists_eq_succ_of_ne_zero (hk.pos (t := t) (Or.inr hpoint)).ne'
    refine ⟨h.slots, h.items, ⟨b, ?_, htotal⟩, ⟨k, ?_, ?_⟩, ?_⟩
    · apply hb.stay
      simp [Between, hpoint]
    · apply hk.leave
      · exact Or.inr hpoint
      · simp [Holds]
    · change (rest.length : ℤ) = s.items.count + (k : ℤ)
      rw [hbuf, List.length_cons] at hlength
      omega
    · change s.removed ++ [item] ++ rest = s.inserted
      rw [List.append_assoc, List.singleton_append, ← hbuf, h.fifo]
  · cases hstep

theorem postSlot_invariant {n : ℤ} {s u : SharedBuf τ} (h : Invariant n s) {t : τ}
    (hstep : s.step (.postSlot t) = some u) : Invariant n u := by
  obtain ⟨b, hb, htotal⟩ := h.total
  obtain ⟨k, hk, hlength⟩ := h.length
  have hslots := h.slots
  rw [step] at hstep
  split at hstep
  · rename_i item hpoint
    cases hstep
    obtain ⟨b, rfl⟩ := Nat.exists_eq_succ_of_ne_zero (hb.pos (t := t) (by simp [Between, hpoint])).ne'
    refine ⟨?_, h.items, ⟨b, ?_, ?_⟩, ⟨k, ?_, hlength⟩, h.fifo⟩
    · change 0 ≤ s.slots.count + 1
      omega
    · apply hb.leave
      · simp [Between, hpoint]
      · simp [Between]
    · change s.slots.count + 1 + s.items.count + (b : ℤ) = n
      omega
    · apply hk.stay
      simp [Holds, hpoint]
  · cases hstep

theorem step_invariant {n : ℤ} {s u : SharedBuf τ} (h : Invariant n s) {a : Action τ}
    (hstep : s.step a = some u) : Invariant n u := by
  cases a with
  | insert t item => exact insert_invariant h hstep
  | push t => exact push_invariant h hstep
  | postItem t => exact postItem_invariant h hstep
  | remove t => exact remove_invariant h hstep
  | pop t => exact pop_invariant h hstep
  | postSlot t => exact postSlot_invariant h hstep

/-- In every run the buffer is a FIFO that never holds more than `n` items. -/
theorem boundedFifo_of_every_run (n : ℕ) (as : List (Action τ)) (s : SharedBuf τ)
    (hrun : run step (create n) as = some s) : BoundedFifo n s := by
  apply Invariant.boundedFifo
  apply run_invariant (Invariant (n : ℤ)) _ (create_invariant (Int.natCast_nonneg n)) hrun
  intro s a u h hstep
  exact step_invariant h hstep

/-- Two producers fill a buffer for one item, with a consumer in between. -/
theorem boundedFifo_of_two_producers : ∃ s : SharedBuf ℕ,
    run step (create 1) [.insert 0 7, .push 0, .postItem 0, .remove 2, .pop 2, .postSlot 2,
      .insert 1 8, .push 1] = some s ∧ s.removed = [7] ∧ s.buf = [8] ∧ BoundedFifo 1 s := by
  refine ⟨_, rfl, rfl, rfl, ?_⟩
  exact boundedFifo_of_every_run 1 [.insert 0 7, .push 0, .postItem 0, .remove 2, .pop 2,
    .postSlot 2, .insert 1 8, .push 1] _ rfl

end SharedBuf
end HydrogenWeb
