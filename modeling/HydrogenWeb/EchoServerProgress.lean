import HydrogenWeb.EchoServerDispatch

set_option autoImplicit false

/-!
# Every connection of the prethreaded server is served

Every step but an `Accept` brings the server nearer to a state in which it only waits for the next
client; a failed `Accept` costs the worker that takes it for good.
-/
namespace HydrogenWeb.Echo
open Riob Rio TransitionRuns WorkDispatch

namespace Work

/-- A bound on the steps up to the next `remove`, which a failed `Accept` never lets the worker
reach. -/
def due : Work → ℕ
  | .taking => 0
  | .reading connfd _ riob => if 0 ≤ connfd then 4 + 2 * riob.left.length else 0
  | .writing connfd _ _ riob => if 0 ≤ connfd then 5 + 2 * riob.left.length else 0
  | .closing _ => 1

end Work

def dueOf (length : ℤ → ℕ) (p : BufPoint) (x : Work) : ℕ :=
  match p with
  | .popped connfd => 5 + 2 * length connfd
  | .hasItem => 1
  | _ => x.due

def mainDue (connfd : Option ℤ) (p : BufPoint) : ℕ :=
  match p with
  | .hasSlot _ => 4
  | .pushed => 3
  | _ => if connfd = none then 0 else 5

namespace EchoServert

variable {ω : Type}

/-- Neither an `Accept` nor a step of a worker that a failed `Accept` has cost. -/
def Works (s : EchoServert ω) : Action ω → Prop
  | .accept _ => False
  | .read w => ∀ connfd ∈ s.descriptor w, 0 ≤ connfd
  | .write w => ∀ connfd ∈ s.descriptor w, 0 ≤ connfd
  | _ => True

instance (s : EchoServert ω) (a : Action ω) : Decidable (s.Works a) :=
  match a with
  | .accept _ => inferInstanceAs (Decidable False)
  | .insert => inferInstanceAs (Decidable True)
  | .push => inferInstanceAs (Decidable True)
  | .postItem => inferInstanceAs (Decidable True)
  | .remove _ => inferInstanceAs (Decidable True)
  | .pop _ => inferInstanceAs (Decidable True)
  | .postSlot _ _ => inferInstanceAs (Decidable True)
  | .read w => inferInstanceAs (Decidable (∀ connfd ∈ s.descriptor w, 0 ≤ connfd))
  | .write w => inferInstanceAs (Decidable (∀ connfd ∈ s.descriptor w, 0 ≤ connfd))
  | .close _ => inferInstanceAs (Decidable True)

def lengthOf (s : EchoServert ω) (input : ℕ → Descriptor) (connfd : ℤ) : ℕ :=
  (s.inputOf input connfd).rest.length

/-- A bound on the steps up to the end of all connections that have been accepted. -/
def due [Fintype ω] (s : EchoServert ω) (input : ℕ → Descriptor) : ℕ :=
  ∑ i ∈ Finset.Ico s.buf.removed.length s.accepted.length, (6 + 2 * (input i).rest.length) +
    2 * s.buf.items.count.toNat + mainDue s.connfd (s.buf.point none) +
    ∑ w, dueOf (s.lengthOf input) (s.buf.point (some w)) (s.work w)

variable [DecidableEq ω] {n : ℤ} {input : ℕ → Descriptor} {s u : EchoServert ω}

theorem sum_update [Fintype ω] (g : ω → ℕ) (w : ω) (y : ℕ) :
    ∑ v, Function.update g w y v + g w = ∑ v, g v + y := by
  rw [Finset.sum_update_of_mem (Finset.mem_univ w), ← Finset.add_sum_erase _ g (Finset.mem_univ w),
    Finset.sdiff_singleton_eq_erase]
  omega

section Due
variable [Fintype ω]

/-- What `main` does in `insert` no worker notices. -/
theorem due_of_main {p : BufPoint} (b : SharedBuf (Option ω)) (connfd : Option ℤ)
    (hpoint : b.point = Function.update s.buf.point none p) (hremoved : b.removed = s.buf.removed)
    (hless : 2 * b.items.count.toNat + mainDue connfd p <
      2 * s.buf.items.count.toNat + mainDue s.connfd (s.buf.point none)) :
    ({ s with buf := b, connfd } : EchoServert ω).due input < s.due input := by
  have hworkers : ∀ w, b.point (some w) = s.buf.point (some w) := by
    intro w
    rw [hpoint, Function.update_of_ne (Option.some_ne_none w)]
  have hmain : b.point none = p := by
    rw [hpoint, Function.update_self]
  have hsum : ∑ w, dueOf (s.lengthOf input) (b.point (some w)) (s.work w) =
      ∑ w, dueOf (s.lengthOf input) (s.buf.point (some w)) (s.work w) :=
    Finset.sum_congr rfl fun w _ => congrArg (dueOf _ · _) (hworkers w)
  change _ + 2 * b.items.count.toNat + mainDue connfd (b.point none) +
    ∑ w, dueOf (s.lengthOf input) (b.point (some w)) (s.work w) < _
  rw [due, hsum, hmain, hremoved]
  dsimp only
  omega

omit [DecidableEq ω] [Fintype ω] in
theorem dueOf_congr {f g : ℤ → ℕ} {p : BufPoint} (x : Work)
    (h : ∀ connfd, p = .popped connfd → f connfd = g connfd) : dueOf f p x = dueOf g p x := by
  cases p with
  | popped connfd => exact congrArg (5 + 2 * ·) (h connfd rfl)
  | _ => rfl

section Worker
variable {w : ω} {p : BufPoint} {x : Work}
  (hpoint : u.buf.point = Function.update s.buf.point (some w) p)
  (hwork : u.work = Function.update s.work w x) (hremoved : u.buf.removed = s.buf.removed)
  (haccepted : u.accepted = s.accepted) (hheld : u.connfd = s.connfd)
  (hlength : ∀ v connfd, u.buf.point (some v) = .popped connfd →
    u.lengthOf input connfd = s.lengthOf input connfd)
include hpoint hwork hremoved haccepted hheld hlength

/-- A step of a worker that leaves the connections that wait. -/
theorem due_add_of_worker : u.due input +
      (2 * s.buf.items.count.toNat + dueOf (s.lengthOf input) (s.buf.point (some w)) (s.work w)) =
    s.due input + (2 * u.buf.items.count.toNat + dueOf (s.lengthOf input) p x) := by
  have hmain : u.buf.point none = s.buf.point none := by
    rw [hpoint, Function.update_of_ne (Option.some_ne_none w).symm]
  have hsame : ∑ v, dueOf (u.lengthOf input) (u.buf.point (some v)) (u.work v) =
      ∑ v, dueOf (s.lengthOf input) (u.buf.point (some v)) (u.work v) :=
    Finset.sum_congr rfl fun v _ => dueOf_congr _ (hlength v)
  have hsum := sum_update (fun v => dueOf (s.lengthOf input) (s.buf.point (some v)) (s.work v)) w
    (dueOf (s.lengthOf input) p x)
  rw [← update_worker, ← hpoint, ← hwork] at hsum
  dsimp only at hsum
  rw [due, due, hremoved, haccepted, hmain, hheld, hsame]
  omega

theorem due_lt_of_worker (hless : 2 * u.buf.items.count.toNat + dueOf (s.lengthOf input) p x <
      2 * s.buf.items.count.toNat + dueOf (s.lengthOf input) (s.buf.point (some w)) (s.work w)) :
    u.due input < s.due input := by
  have hdue := due_add_of_worker hpoint hwork hremoved haccepted hheld hlength
  omega

theorem due_le_of_worker (hle : 2 * u.buf.items.count.toNat + dueOf (s.lengthOf input) p x ≤
      2 * s.buf.items.count.toNat + dueOf (s.lengthOf input) (s.buf.point (some w)) (s.work w)) :
    u.due input ≤ s.due input := by
  have hdue := due_add_of_worker hpoint hwork hremoved haccepted hheld hlength
  omega

end Worker

theorem insert_due (hstep : s.step input .insert = some u) : u.due input < s.due input := by
  obtain ⟨connfd, hconnfd, hbuf⟩ := Option.bind_eq_some_iff.1 hstep
  obtain ⟨b, hinsert, rfl⟩ := Option.map_eq_some_iff.1 hbuf
  obtain ⟨hidle, slots, rfl⟩ := SharedBuf.insert_cases hinsert
  refine due_of_main (s := s) (p := .hasSlot connfd) _ none rfl rfl ?_
  rw [hconnfd, hidle]
  exact Nat.lt_succ_self _

theorem push_due (hstep : s.step input .push = some u) : u.due input < s.due input := by
  obtain ⟨b, hpush, rfl⟩ := Option.map_eq_some_iff.1 hstep
  obtain ⟨item, hpoint, rfl⟩ := SharedBuf.push_cases hpush
  refine due_of_main (s := s) (p := .pushed) _ s.connfd rfl rfl ?_
  rw [hpoint]
  exact Nat.lt_succ_self _

theorem postItem_due (h : Sound n s) (hstep : s.step input .postItem = some u) :
    u.due input < s.due input := by
  obtain ⟨b, hpost, rfl⟩ := Option.map_eq_some_iff.1 hstep
  obtain ⟨hpoint, rfl⟩ := SharedBuf.postItem_cases hpost
  have hheld : s.connfd = none := by
    rcases h.main with hidle | ⟨hheld, -⟩
    · cases hidle.symm.trans hpoint
    · exact hheld
  refine due_of_main (s := s) (p := .idle) _ s.connfd rfl rfl ?_
  have hitems := h.buf.items
  rw [hpoint, hheld]
  change 2 * (s.buf.items.count + 1).toNat + 0 < 2 * s.buf.items.count.toNat + 3
  omega

theorem remove_due (h : Sound n s) {w : ω} (hstep : s.step input (.remove w) = some u) :
    u.due input < s.due input := by
  rw [step] at hstep
  split at hstep
  · rename_i htaking
    obtain ⟨b, hremove, rfl⟩ := Option.map_eq_some_iff.1 hstep
    obtain ⟨hidle, items, hwait, rfl⟩ := SharedBuf.remove_cases hremove
    have hwork : s.work = Function.update s.work w .taking := by
      rw [← htaking, Function.update_eq_self]
    refine due_lt_of_worker (s := s) (p := .hasItem) rfl hwork rfl rfl rfl (fun _ _ _ => rfl) ?_
    have hitems := h.buf.items
    rw [Sem.wait] at hwait
    split_ifs at hwait with hzero
    cases hwait
    rw [hidle, htaking]
    change 2 * (s.buf.items.count - 1).toNat + 1 < 2 * s.buf.items.count.toNat + 0
    omega
  · cases hstep

theorem pop_due (h : Invariant n input s) {w : ω} (hstep : s.step input (.pop w) = some u) :
    u.due input < s.due input := by
  obtain ⟨b, hpop, rfl⟩ := Option.map_eq_some_iff.1 hstep
  obtain ⟨item, rest, hitem, hbuf, rfl⟩ := SharedBuf.pop_cases hpop
  have hnext : s.accepted[s.buf.removed.length]? = some item := by
    rw [h.sound.queue_removed, hbuf, List.getElem?_append_right le_rfl, Nat.sub_self]
    rfl
  have hlt : s.buf.removed.length < s.accepted.length := (List.getElem?_eq_some_iff.1 hnext).1
  have hlength : s.lengthOf input item ≤ (input s.buf.removed.length).rest.length := by
    by_cases hreal : Opened item
    · have hnumber := h.dispatch.waiting _ item le_rfl hnext hreal
      change s.table item = some s.buf.removed.length at hnumber
      rw [lengthOf, inputOf, hnumber]
      exact le_rfl
    · rw [lengthOf, inputOf, h.unreal hreal]
      exact Nat.zero_le _
  have hmain : Function.update s.buf.point (some w) (.popped item) none = s.buf.point none :=
    Function.update_of_ne (Option.some_ne_none w).symm ..
  have hsum := sum_update (fun v => dueOf (s.lengthOf input) (s.buf.point (some v)) (s.work v)) w
    (dueOf (s.lengthOf input) (.popped item) (s.work w))
  rw [← update_point] at hsum
  dsimp only at hsum
  rw [hitem] at hsum
  change _ + 1 = _ + (5 + 2 * s.lengthOf input item) at hsum
  have hwaiting := Finset.sum_eq_sum_Ico_succ_bot hlt fun i => 6 + 2 * (input i).rest.length
  change ∑ i ∈ Finset.Ico (s.buf.removed ++ [item]).length s.accepted.length, _ +
    2 * s.buf.items.count.toNat +
      mainDue s.connfd (Function.update s.buf.point (some w) (.popped item) none) +
        ∑ v, dueOf (s.lengthOf input) (Function.update s.buf.point (some w) (.popped item) (some v))
          (s.work v) < _
  rw [hmain, List.length_append, List.length_singleton, due, hwaiting]
  omega

theorem postSlot_due {w : ω} {array : UserBuf} (hstep : s.step input (.postSlot w array) = some u) :
    u.due input < s.due input := by
  rw [step] at hstep
  split at hstep
  · rename_i connfd hpopped
    split_ifs at hstep with harray
    obtain ⟨b, hpost, rfl⟩ := Option.map_eq_some_iff.1 hstep
    obtain ⟨item, -, rfl⟩ := SharedBuf.postSlot_cases hpost
    refine due_lt_of_worker (s := s) (w := w) (p := .idle) rfl rfl rfl rfl rfl
      (fun _ _ _ => rfl) ?_
    rw [hpopped]
    refine Nat.add_lt_add_left ?_ _
    change (if 0 ≤ connfd then 4 + 2 * (Riob.create (s.inputOf input connfd)).left.length else 0) <
      5 + 2 * s.lengthOf input connfd
    have hleft : (Riob.create (s.inputOf input connfd)).left.length = s.lengthOf input connfd := rfl
    split_ifs <;> omega
  · cases hstep

omit [DecidableEq ω] in
theorem due_of_lt {p : Prop} [Decidable p] (h : u.due input < s.due input) :
    (if p then 1 else 0) + u.due input ≤ s.due input := by
  split_ifs <;> omega

omit [Fintype ω] [DecidableEq ω] in
theorem works_of_lost {w : ω} {connfd : ℤ} (h : Invariant n input s)
    (hserving : s.descriptor w = some connfd) (hnone : s.table connfd = none) :
    ¬ 0 ≤ connfd ∧ ¬ s.Works (.read w) ∧ ¬ s.Works (.write w) := by
  have hneg : ¬ 0 ≤ connfd := h.not_opened hserving hnone
  exact ⟨hneg, fun hworks => hneg (hworks connfd hserving), fun hworks => hneg (hworks connfd hserving)⟩

theorem read_due (h : Invariant n input s) {w : ω} (hstep : s.read w = some u) :
    (if s.Works (.read w) then 1 else 0) + u.due input ≤ s.due input := by
  cases read_cases h.sound hstep with
  | lost connfd usrbuf usrbuf' k riob hreading hnone hlength hriob =>
    obtain ⟨hidle, hserving⟩ := h.serving_of_work (w := w) (by rw [hreading]; rfl)
    obtain ⟨hneg, hworks, -⟩ := works_of_lost h hserving hnone
    rw [if_neg hworks, Nat.zero_add]
    refine due_le_of_worker (s := s) (w := w) (p := .idle)
      (hidle ▸ (Function.update_eq_self _ _).symm) rfl rfl rfl rfl (fun _ _ _ => rfl) ?_
    rw [hidle, hreading]
    refine Nat.add_le_add_left ?_ _
    change (if 0 ≤ connfd then 5 + 2 * riob.left.length else 0) ≤
      if 0 ≤ connfd then 4 + 2 * riob.left.length else 0
    rw [if_neg hneg, if_neg hneg]
  | eof connfd usrbuf riob i hreading hi hnil =>
    obtain ⟨hidle, -⟩ := h.serving_of_work (w := w) (by rw [hreading]; rfl)
    have hreal : 0 ≤ connfd := (h.dispatch.numbered connfd i hi).1
    refine due_of_lt (due_lt_of_worker (s := s) (w := w) (p := .idle)
      (hidle ▸ (Function.update_eq_self _ _).symm) rfl rfl rfl rfl (fun _ _ _ => rfl) ?_)
    rw [hidle, hreading]
    refine Nat.add_lt_add_left ?_ _
    change 1 < if 0 ≤ connfd then 4 + 2 * riob.left.length else 0
    rw [if_pos hreal]
    omega
  | line connfd usrbuf usrbuf' k riob riob' i hreading hi hlength hk hriob hline hless =>
    obtain ⟨hidle, -⟩ := h.serving_of_work (w := w) (by rw [hreading]; rfl)
    have hreal : 0 ≤ connfd := (h.dispatch.numbered connfd i hi).1
    refine due_of_lt (due_lt_of_worker (s := s) (w := w) (p := .idle)
      (hidle ▸ (Function.update_eq_self _ _).symm) rfl rfl rfl rfl (fun _ _ _ => rfl) ?_)
    rw [hidle, hreading]
    refine Nat.add_lt_add_left ?_ _
    change (if 0 ≤ connfd then 5 + 2 * riob'.left.length else 0) <
      if 0 ≤ connfd then 4 + 2 * riob.left.length else 0
    rw [if_pos hreal, if_pos hreal]
    omega

theorem write_due (h : Invariant n input s) {w : ω} (hstep : s.write w = some u) :
    (if s.Works (.write w) then 1 else 0) + u.due input ≤ s.due input := by
  cases write_cases h hstep with
  | lost connfd usrbuf k riob hwriting hnone hgood =>
    obtain ⟨hidle, hserving⟩ := h.serving_of_work (w := w) (by rw [hwriting]; rfl)
    obtain ⟨hneg, -, hworks⟩ := works_of_lost h hserving hnone
    rw [if_neg hworks, Nat.zero_add]
    refine due_le_of_worker (s := s) (w := w) (p := .idle)
      (hidle ▸ (Function.update_eq_self _ _).symm) rfl rfl rfl rfl (fun _ _ _ => rfl) ?_
    rw [hidle, hwriting]
    refine Nat.add_le_add_left ?_ _
    change (if 0 ≤ connfd then 4 + 2 * riob.left.length else 0) ≤
      if 0 ≤ connfd then 5 + 2 * riob.left.length else 0
    rw [if_neg hneg, if_neg hneg]
  | line connfd usrbuf k riob i out hwriting hi hgood hhealthy hreceived =>
    obtain ⟨hidle, -⟩ := h.serving_of_work (w := w) (by rw [hwriting]; rfl)
    have hreal : 0 ≤ connfd := (h.dispatch.numbered connfd i hi).1
    refine due_of_lt (due_lt_of_worker (s := s) (w := w) (p := .idle)
      (hidle ▸ (Function.update_eq_self _ _).symm) rfl rfl rfl rfl (fun _ _ _ => rfl) ?_)
    rw [hidle, hwriting]
    refine Nat.add_lt_add_left ?_ _
    change (if 0 ≤ connfd then 4 + 2 * riob.left.length else 0) <
      if 0 ≤ connfd then 5 + 2 * riob.left.length else 0
    rw [if_pos hreal, if_pos hreal]
    omega

theorem close_due (h : Invariant n input s) {w : ω} (hstep : s.close w = some u) :
    u.due input < s.due input := by
  obtain ⟨connfd, hclosing, rfl⟩ := close_cases hstep
  obtain ⟨hidle, hserving⟩ := h.serving_of_work (w := w) (by rw [hclosing]; rfl)
  have hreal : Opened connfd := by
    have hgood := h.sound.good w
    rwa [hclosing] at hgood
  refine due_lt_of_worker (s := s) (w := w) (p := .idle) (hidle ▸ (Function.update_eq_self _ _).symm)
    rfl rfl rfl rfl ?_ ?_
  · intro v c hv
    have hvw : v ≠ w := by
      rintro rfl
      cases hidle.symm.trans hv
    have hserves : (s.view input).serving v = some c := by
      change descriptorOf (s.buf.point (some v)) (s.work v) = _
      rw [show s.buf.point (some v) = _ from hv]
      rfl
    exact congrArg (fun number => (Option.elim number ⟨[], []⟩ input).rest.length)
      (h.table_of_close hserving hreal hvw hserves)
  · rw [hidle, hclosing]
    exact Nat.add_lt_add_left Nat.zero_lt_one _

/-- A step that is no `Accept` brings the end of the accepted connections nearer, but for those of
the workers that are lost. -/
theorem step_due (h : Invariant n input s) {a : Action ω} (hno : ∀ connfd, a ≠ .accept connfd)
    (hstep : s.step input a = some u) :
    (if s.Works a then 1 else 0) + u.due input ≤ s.due input := by
  cases a with
  | accept connfd => exact absurd rfl (hno connfd)
  | insert => exact due_of_lt (insert_due hstep)
  | push => exact due_of_lt (push_due hstep)
  | postItem => exact due_of_lt (postItem_due h.sound hstep)
  | remove w => exact due_of_lt (remove_due h.sound hstep)
  | pop w => exact due_of_lt (pop_due h hstep)
  | postSlot w array => exact due_of_lt (postSlot_due hstep)
  | read w => exact read_due h hstep
  | write w => exact write_due h hstep
  | close w => exact due_of_lt (close_due h hstep)

end Due

section Stopped
variable (h : Invariant n input u) (hstop : ∀ a, u.Works a → u.step input a = none)
include h hstop

/-- A worker that cannot go on waits for an item, or is lost. -/
theorem worker_stopped (w : ω) : u.buf.point (some w) = .idle ∧
    (u.work w = .taking ∨ ∃ connfd, u.descriptor w = some connfd ∧ ¬ 0 ≤ connfd) := by
  have hworks : (¬ ∃ connfd, u.descriptor w = some connfd ∧ ¬ 0 ≤ connfd) →
      ∀ connfd ∈ u.descriptor w, 0 ≤ connfd := by
    intro hnot connfd hw
    by_contra hneg
    exact hnot ⟨connfd, hw, hneg⟩
  cases hpoint : u.buf.point (some w) with
  | idle =>
    refine ⟨rfl, ?_⟩
    by_contra hcon
    rw [not_or] at hcon
    obtain ⟨hwork, hlost⟩ := hcon
    cases hcase : u.work w with
    | taking => exact hwork hcase
    | reading connfd usrbuf riob =>
      obtain ⟨v, hread, -⟩ := reads h.sound hcase
      cases hread.symm.trans (hstop (.read w) (hworks hlost))
    | writing connfd usrbuf k riob =>
      obtain ⟨v, hwrite, -⟩ := writes h hcase
      cases hwrite.symm.trans (hstop (.write w) (hworks hlost))
    | closing connfd =>
      have hblocked := hstop (.close w) trivial
      rw [step, close, hcase] at hblocked
      cases hblocked
  | hasItem =>
    have hblocked := hstop (.pop w) trivial
    obtain ⟨item, rest, hbuf⟩ :=
      List.exists_cons_of_ne_nil (h.sound.buf.boundedFifo.nonempty (some w) hpoint)
    rw [step, SharedBuf.step, hpoint, hbuf] at hblocked
    cases hblocked
  | popped connfd =>
    have hblocked := hstop (.postSlot w zeros) trivial
    have hlength : zeros.bytes.length = MAXLINE := List.length_replicate
    rw [step] at hblocked
    simp only [hpoint, hlength, if_true, SharedBuf.step, Option.map_some] at hblocked
    cases hblocked
  | _ =>
    rcases h.sound.worker w with hidle | ⟨-, hat⟩
    · cases hidle.symm.trans hpoint
    · rw [hpoint] at hat
      exact hat.elim

/-- `main` waits for the next client. -/
theorem main_stopped (hn : 0 < n) (hfree : ∃ w, u.buf.point (some w) = .idle ∧ u.work w = .taking)
    (hidle : ∀ w, u.buf.point (some w) = .idle) :
    u.buf.removed = u.accepted := by
  have hbuf := h.sound.buf
  -- a worker waits, so no item is there
  have hitems : u.buf.items.count = 0 := by
    obtain ⟨w, hpoint, hwork⟩ := hfree
    have hblocked := hstop (.remove w) trivial
    by_contra hne
    rw [step, hwork, SharedBuf.step, hpoint, Sem.wait, if_neg hne] at hblocked
    cases hblocked
  have hmain : u.buf.point none = .idle := by
    rcases h.sound.main with hmain | ⟨-, hat⟩
    · exact hmain
    · exfalso
      cases hpoint : u.buf.point none with
      | hasSlot item =>
        have hblocked := hstop .push trivial
        rw [step, SharedBuf.step, hpoint] at hblocked
        cases hblocked
      | pushed =>
        have hblocked := hstop .postItem trivial
        rw [step, SharedBuf.step, hpoint] at hblocked
        cases hblocked
      | _ =>
        rw [hpoint] at hat
        exact hat
  have hall : ∀ t, u.buf.point t = .idle := by
    intro t
    cases t with
    | none => exact hmain
    | some w => exact hidle w
  have hslots : u.buf.slots.count = n := by
    obtain ⟨b, hb, htotal⟩ := hbuf.total
    have hzero : ThreadCensus.Census u.buf.point SharedBuf.Between 0 :=
      .zero fun t hcon => hcon (hall t)
    have hsame : b = 0 := hb.card.symm.trans hzero.card
    omega
  have hdeque : u.buf.buf = [] := by
    obtain ⟨k, hk, hlength⟩ := hbuf.length
    have hzero : ThreadCensus.Census u.buf.point SharedBuf.Holds 0 := .zero fun t => by
      rw [hall t]
      simp [SharedBuf.Holds]
    have hsame : k = 0 := hk.card.symm.trans hzero.card
    exact List.length_eq_zero_iff.1 (by omega)
  have hheld : u.connfd = none := by
    by_contra hcon
    obtain ⟨connfd, hconnfd⟩ := Option.ne_none_iff_exists'.1 hcon
    have hblocked := hstop .insert trivial
    have hne : u.buf.slots.count ≠ 0 := by omega
    rw [step, hconnfd, Option.bind_some, SharedBuf.step, hmain, Sem.wait, if_neg hne] at hblocked
    cases hblocked
  rw [h.sound.queue_removed, hdeque, hmain, hheld]
  simp [hand]

/-- With a worker left, nothing is still to be done. -/
theorem all_stopped [Fintype ω] (hn : 0 < n)
    (hworker : u.accepted.countP (¬ 0 ≤ ·) < Fintype.card ω) {i : ℕ} {connfd : ℤ}
    (hi : u.accepted[i]? = some connfd) (hreal : 0 ≤ connfd) : i ∈ u.closed := by
  have hfree : ∃ w, u.work w = .taking := by
    by_contra hcon
    have hlost : ∀ w, Dispatch.Lost Opened (u.descriptor w) := by
      intro w
      rcases (worker_stopped h hstop w).2 with htaking | hlost
      · exact absurd ⟨w, htaking⟩ hcon
      · exact hlost
    have hcard := h.dispatch.lost.card
    have hall : {w | Dispatch.Lost Opened ((u.view input).serving w)} = Set.univ :=
      Set.eq_univ_of_forall hlost
    have hle := (List.take_sublist u.buf.removed.length u.accepted).countP_le
      (p := fun connfd => ¬ 0 ≤ connfd)
    rw [hall, Set.ncard_univ, Nat.card_eq_fintype_card] at hcard
    exact absurd (hcard.le.trans hle) (Nat.not_le.2 hworker)
  obtain ⟨w, hw⟩ := hfree
  have hidle := fun v => (worker_stopped h hstop v).1
  have hremoved := main_stopped h hstop hn ⟨w, hidle w, hw⟩ hidle
  refine (h.dispatch.finished i connfd hi hreal).2 fun hkey => ?_
  have htaken : i < u.buf.removed.length := by
    rw [hremoved]
    exact (List.getElem?_eq_some_iff.1 hi).1
  obtain ⟨v, hv⟩ := h.dispatch.served connfd i hkey htaken
  rcases (worker_stopped h hstop v).2 with htaking | ⟨c, hc, hneg⟩
  · change descriptorOf (u.buf.point (some v)) (u.work v) = _ at hv
    rw [hidle v, htaking] at hv
    cases hv
  · cases hv.symm.trans hc
    exact hneg hreal

end Stopped

theorem step_accepted (h : Invariant n input s) {a : Action ω} (hno : ∀ connfd, a ≠ .accept connfd)
    (hstep : s.step input a = some u) : u.accepted = s.accepted := by
  cases a with
  | accept connfd => exact absurd rfl (hno connfd)
  | insert =>
    obtain ⟨connfd, -, hbuf⟩ := Option.bind_eq_some_iff.1 hstep
    obtain ⟨b, -, rfl⟩ := Option.map_eq_some_iff.1 hbuf
    rfl
  | push =>
    obtain ⟨b, -, rfl⟩ := Option.map_eq_some_iff.1 hstep
    rfl
  | postItem =>
    obtain ⟨b, -, rfl⟩ := Option.map_eq_some_iff.1 hstep
    rfl
  | remove w =>
    rw [step] at hstep
    split at hstep
    · obtain ⟨b, -, rfl⟩ := Option.map_eq_some_iff.1 hstep
      rfl
    · cases hstep
  | pop w =>
    obtain ⟨b, -, rfl⟩ := Option.map_eq_some_iff.1 hstep
    rfl
  | postSlot w array =>
    rw [step] at hstep
    split at hstep
    · split_ifs at hstep
      obtain ⟨b, -, rfl⟩ := Option.map_eq_some_iff.1 hstep
      rfl
    · cases hstep
  | read w => cases read_cases h.sound hstep <;> rfl
  | write w => cases write_cases h hstep <;> rfl
  | close w =>
    obtain ⟨connfd, -, rfl⟩ := close_cases hstep
    rfl

def NoAccept (_ : EchoServert ω) (a : Action ω) (_ : Option (EchoServert ω)) : Prop :=
  ∀ connfd, a ≠ .accept connfd

omit [DecidableEq ω] in
theorem along_noAccept {f : EchoServert ω → Action ω → Option (EchoServert ω)}
    {bs : List (Action ω)} (hno : ∀ connfd, .accept connfd ∉ bs) (s : EchoServert ω) :
    Along f NoAccept s bs := by
  induction bs generalizing s with
  | nil => trivial
  | cons b bs ih =>
    refine ⟨fun connfd hb => hno connfd (hb ▸ List.mem_cons_self), fun t _ => ih ?_ t⟩
    exact fun connfd hmem => hno connfd (List.mem_cons_of_mem b hmem)

/-- Without an `Accept` there are as many steps that work as `due` allows, and no more. -/
theorem run_due [Fintype ω] (h : Invariant n input s) (hinput : ∀ i, .failed ∉ (input i).outcomes)
    {bs : List (Action ω)} (hno : ∀ connfd, .accept connfd ∉ bs)
    (hrun : run (step input) s bs = some u) :
    countAlong (step input) Works s bs + u.due input ≤ s.due input ∧
      Invariant n input u ∧ u.accepted = s.accepted := by
  have halong : Along (step input) NoAccept s bs := along_noAccept hno s
  have hkeep : ∀ (v : EchoServert ω) a t, Invariant n input v → v.step input a = some t →
      Invariant n input t :=
    fun v a t hv hstep => step_invariant hv hinput hstep
  have hend : Invariant n input u ∧ u.accepted = s.accepted := by
    refine halong.run_invariant (fun v => Invariant n input v ∧ v.accepted = s.accepted) ?_
      ⟨h, rfl⟩ hrun
    rintro v a t ⟨hv, hsame⟩ hnot hstep
    exact ⟨hkeep v a t hv hstep, (step_accepted hv hnot hstep).trans hsame⟩
  refine ⟨?_, hend⟩
  apply countAlong_le (step input) Works (Invariant n input)
    (fun v : EchoServert ω => v.due input) _ _ h halong hrun
  · intro v a t hv hnot hstep
    exact step_due hv hnot hstep
  · intro v a t hv _ hstep
    exact hkeep v a t hv hstep

/-- What one worker does for the client of `twoLines`, and the other with a failed `Accept`, which
it reads for and writes for without end. -/
def servedByOne : List (Action Bool) :=
  [.remove false, .pop false, .postSlot false zeros, .insert, .push, .read false, .write false,
    .postItem, .read false, .remove true, .pop true, .postSlot true zeros, .read true, .write true,
    .write false, .read true, .write true, .read false, .read true, .close false]

theorem firstAccepts_run : (run (step twoLines) (create 10 unheard : EchoServert Bool)
    [.accept 4, .insert, .push, .postItem, .accept (-1)]).isSome := by
  decide +kernel

/-- Whatever the schedule, after at most `due` steps other than those of the lost workers every
client has the echo of what it sent, as long as fewer calls of `Accept` failed than there are
workers. -/
theorem accepted_connections_are_served [Fintype ω] (n : ℕ) (hn : 0 < n) (input : ℕ → Descriptor)
    (output : ℕ → Receiver) (hinput : ∀ i, .failed ∉ (input i).outcomes)
    (houtput : ∀ i, Healthy (output i)) (hfresh : ∀ i, (output i).received = [])
    (as : List (Action ω)) (s : EchoServert ω)
    (hrun : run (step input) (create n output) as = some s)
    (hworker : s.accepted.countP (¬ 0 ≤ ·) < Fintype.card ω) (bs : List (Action ω))
    (hno : ∀ connfd, .accept connfd ∉ bs) (u : EchoServert ω)
    (hmore : run (step input) s bs = some u) :
    countAlong (step input) Works s bs ≤ s.due input ∧
      ((∀ a, u.Works a → u.step input a = none) →
        ∀ i connfd, s.accepted[i]? = some connfd → 0 ≤ connfd →
          i ∈ u.closed ∧ (u.output i).received = echoOf input i) := by
  have hs := run_create_invariant hinput houtput hfresh hrun
  obtain ⟨hdue, hu, haccepted⟩ := run_due hs hinput hno hmore
  refine ⟨by omega, fun hstop i connfd hi hreal => ?_⟩
  rw [← haccepted] at hworker hi
  have hclosed := all_stopped hu hstop (Int.natCast_pos.2 hn) hworker hi hreal
  exact ⟨hclosed, (hu.dispatch.ended i hclosed).2.1⟩

/-- One client, one failed `Accept` and two workers. -/
theorem accepted_connections_are_served_of_one : ∃ s u : EchoServert Bool,
    run (step twoLines) (create 10 unheard) [.accept 4, .insert, .push, .postItem, .accept (-1)] =
        some s ∧
      run (step twoLines) s servedByOne = some u ∧
        countAlong (step twoLines) Works s servedByOne ≤ s.due twoLines ∧
          ((∀ a, u.Works a → u.step twoLines a = none) → 0 ∈ u.closed ∧
            (u.output 0).received = echoOf twoLines 0) := by
  have hruns : ∀ s ∈ run (step twoLines) (create 10 unheard : EchoServert Bool)
      [.accept 4, .insert, .push, .postItem, .accept (-1)], s.accepted = [4, -1] ∧
        (run (step twoLines) s servedByOne).isSome := by
    decide +kernel
  obtain ⟨s, hs⟩ := Option.isSome_iff_exists.1 firstAccepts_run
  obtain ⟨haccepted, hmore⟩ := hruns s hs
  obtain ⟨u, hu⟩ := Option.isSome_iff_exists.1 hmore
  have hworker : s.accepted.countP (¬ 0 ≤ ·) < Fintype.card Bool := by
    rw [haccepted]
    decide
  have hno : ∀ connfd, Action.accept connfd ∉ servedByOne := by
    intro connfd
    simp [servedByOne]
  obtain ⟨hcount, hend⟩ := accepted_connections_are_served 10 (by decide) twoLines unheard
    twoLines_quiet unheard_healthy (fun _ => rfl) _ s hs hworker servedByOne hno u hu
  refine ⟨s, u, hs, hu, hcount, fun hstop => hend hstop 0 4 ?_ (by decide)⟩
  rw [haccepted]
  rfl

theorem run_lost (h : Invariant n input s) (hinput : ∀ i, .failed ∉ (input i).outcomes)
    (hlost : ∀ w, Dispatch.Lost Opened ((s.view input).serving w)) {bs : List (Action ω)}
    (hrun : run (step input) s bs = some u) :
    u.buf.removed.length = s.buf.removed.length ∧ u.closed = s.closed ∧
      ∀ i, (u.output i).received = (s.output i).received := by
  induction bs generalizing s with
  | nil =>
    cases hrun
    exact ⟨rfl, rfl, fun _ => rfl⟩
  | cons b bs ih =>
    obtain ⟨v, hv, htail⟩ := Option.bind_eq_some_iff.1 hrun
    obtain ⟨hserving, htaken, hfinished, hsaid⟩ := (step_moves h hinput hv).2.of_lost
      (fun k i hi => (h.dispatch.numbered k i hi).1) hlost
    obtain ⟨hremoved, hclosed, hreceived⟩ :=
      ih (step_invariant h hinput hv) (hserving ▸ hlost) htail
    exact ⟨hremoved.trans htaken, hclosed.trans hfinished,
      fun i => (hreceived i).trans (congrFun hsaid i)⟩

/-- When the workers have taken as many failed calls of `Accept` as they are, no client is answered
any more. -/
theorem failed_accepts_stop_the_server [Fintype ω] (n : ℕ) (input : ℕ → Descriptor)
    (output : ℕ → Receiver) (hinput : ∀ i, .failed ∉ (input i).outcomes)
    (houtput : ∀ i, Healthy (output i)) (hfresh : ∀ i, (output i).received = [])
    (as : List (Action ω)) (s : EchoServert ω)
    (hrun : run (step input) (create n output) as = some s)
    (hfailed : Fintype.card ω ≤ s.buf.removed.countP (¬ 0 ≤ ·)) (bs : List (Action ω))
    (u : EchoServert ω) (hmore : run (step input) s bs = some u) :
    u.buf.removed.length = s.buf.removed.length ∧ u.closed = s.closed ∧
      ∀ i, (u.output i).received = (s.output i).received := by
  have hs := run_create_invariant hinput houtput hfresh hrun
  have hall : {w | ∃ connfd, s.descriptor w = some connfd ∧ ¬ 0 ≤ connfd} = Set.univ := by
    apply Set.eq_of_subset_of_ncard_le (Set.subset_univ _)
    rw [Set.ncard_univ, Nat.card_eq_fintype_card, hs.served.lost]
    exact hfailed
  refine run_lost hs hinput (fun w => ?_) hmore
  exact Set.eq_univ_iff_forall.1 hall w

/-- A failed `Accept` comes before the client, and there is one worker. -/
theorem failed_accepts_stop_the_server_of_one : ∃ s u : EchoServert Unit,
    run (step twoLines) (create 10 unheard)
        [.accept (-1), .insert, .push, .postItem, .remove (), .pop ()] = some s ∧
      run (step twoLines) s [.accept 4, .insert, .push, .postItem, .postSlot () zeros, .read (),
        .write ()] = some u ∧ u.closed = s.closed := by
  have hruns : ∀ s ∈ run (step twoLines) (create 10 unheard : EchoServert Unit)
      [.accept (-1), .insert, .push, .postItem, .remove (), .pop ()], s.buf.removed = [-1] ∧
        (run (step twoLines) s [.accept 4, .insert, .push, .postItem, .postSlot () zeros, .read (),
          .write ()]).isSome := by
    decide +kernel
  have hrun : (run (step twoLines) (create 10 unheard : EchoServert Unit)
      [.accept (-1), .insert, .push, .postItem, .remove (), .pop ()]).isSome := by
    decide +kernel
  obtain ⟨s, hs⟩ := Option.isSome_iff_exists.1 hrun
  obtain ⟨hremoved, hmore⟩ := hruns s hs
  obtain ⟨u, hu⟩ := Option.isSome_iff_exists.1 hmore
  have hfailed : Fintype.card Unit ≤ s.buf.removed.countP (¬ 0 ≤ ·) := by
    rw [hremoved]
    decide
  have hstopped := failed_accepts_stop_the_server 10 twoLines unheard twoLines_quiet
    unheard_healthy (fun _ => rfl) _ s hs hfailed _ u hu
  exact ⟨s, u, hs, hu, hstopped.2.1⟩

end EchoServert
end HydrogenWeb.Echo
