import HydrogenWeb.EchoServerThreads
import HydrogenWeb.WorkDispatch

set_option autoImplicit false

/-!
# The workers serve the connections in order

The prethreaded server dispatches the connections to its workers: a descriptor is in the buffer or
with exactly one worker until it is closed, and its client receives the echo of what it sends.
-/
namespace HydrogenWeb

namespace SharedBuf

variable {τ : Type*} [DecidableEq τ] {s u : SharedBuf τ} {t : τ}

theorem insert_cases {item : ℤ} (h : s.step (.insert t item) = some u) :
    s.point t = .idle ∧ ∃ slots, u = { s with slots }.moveTo t (.hasSlot item) := by
  rw [step] at h
  split at h
  · rename_i hpoint
    obtain ⟨slots, -, rfl⟩ := Option.map_eq_some_iff.1 h
    exact ⟨hpoint, slots, rfl⟩
  · cases h

theorem push_cases (h : s.step (.push t) = some u) : ∃ item, s.point t = .hasSlot item ∧
    u = { s with buf := s.buf ++ [item], inserted := s.inserted ++ [item] }.moveTo t .pushed := by
  rw [step] at h
  split at h
  · rename_i item hpoint
    cases h
    exact ⟨item, hpoint, rfl⟩
  · cases h

theorem postItem_cases (h : s.step (.postItem t) = some u) :
    s.point t = .pushed ∧ u = { s with items := s.items.post }.moveTo t .idle := by
  rw [step] at h
  split at h
  · rename_i hpoint
    cases h
    exact ⟨hpoint, rfl⟩
  · cases h

theorem remove_cases (h : s.step (.remove t) = some u) :
    s.point t = .idle ∧ ∃ items, s.items.wait = some items ∧
      u = { s with items }.moveTo t .hasItem := by
  rw [step] at h
  split at h
  · rename_i hpoint
    obtain ⟨items, hwait, rfl⟩ := Option.map_eq_some_iff.1 h
    exact ⟨hpoint, items, hwait, rfl⟩
  · cases h

theorem pop_cases (h : s.step (.pop t) = some u) : ∃ item rest, s.point t = .hasItem ∧
    s.buf = item :: rest ∧
      u = { s with buf := rest, removed := s.removed ++ [item] }.moveTo t (.popped item) := by
  rw [step] at h
  split at h
  · rename_i item rest hpoint hbuf
    cases h
    exact ⟨item, rest, hpoint, hbuf, rfl⟩
  · cases h

theorem postSlot_cases (h : s.step (.postSlot t) = some u) :
    ∃ item, s.point t = .popped item ∧ u = { s with slots := s.slots.post }.moveTo t .idle := by
  rw [step] at h
  split at h
  · rename_i item hpoint
    cases h
    exact ⟨item, hpoint, rfl⟩
  · cases h

end SharedBuf

namespace Echo
open Riob Rio TransitionRuns WorkDispatch

def AtInsert : BufPoint → Prop
  | .hasSlot _ => True
  | .pushed => True
  | _ => False

def AtRemove : BufPoint → Prop
  | .hasItem => True
  | .popped _ => True
  | _ => False

/-- The descriptor that `insert` has not put into the deque yet. -/
def hand : BufPoint → List ℤ
  | .hasSlot connfd => [connfd]
  | _ => []

namespace Work

def connfd : Work → Option ℤ
  | .taking => none
  | .reading connfd _ _ => some connfd
  | .writing connfd _ _ _ => some connfd
  | .closing connfd => some connfd

def unsent : Work → List UInt8
  | .taking => []
  | .reading _ _ riob => echoed (MAXLINE - 1) (MAXLINE - 1) riob.left
  | .writing _ usrbuf n riob =>
    usrbuf.bytes.take n ++ echoed (MAXLINE - 1) (MAXLINE - 1) riob.left
  | .closing _ => []

def Good : Work → Prop
  | .taking => True
  | .reading _ usrbuf riob => usrbuf.bytes.length = MAXLINE ∧ Riob.Good riob
  | .writing connfd usrbuf n riob =>
    usrbuf.bytes.length = MAXLINE ∧ (0 ≤ connfd → n ≤ MAXLINE) ∧ Riob.Good riob
  | .closing connfd => 0 ≤ connfd

end Work

/-- The descriptor of a worker, which may be inside of `remove`. -/
def descriptorOf (p : BufPoint) (x : Work) : Option ℤ :=
  match p with
  | .popped connfd => some connfd
  | _ => x.connfd

def unsentOf (text : ℤ → List UInt8) (p : BufPoint) (x : Work) : List UInt8 :=
  match p with
  | .popped connfd => text connfd
  | _ => x.unsent

/-- `Accept` did not fail. -/
def Opened (connfd : ℤ) : Prop := 0 ≤ connfd

instance : DecidablePred Opened := fun connfd => inferInstanceAs (Decidable (0 ≤ connfd))

def echoOf (input : ℕ → Descriptor) (i : ℕ) : List UInt8 :=
  echoed (MAXLINE - 1) (MAXLINE - 1) (input i).rest

namespace EchoServert

variable {ω : Type}

def textOf (s : EchoServert ω) (input : ℕ → Descriptor) (connfd : ℤ) : List UInt8 :=
  echoed (MAXLINE - 1) (MAXLINE - 1) (s.inputOf input connfd).rest

/-- The server as a dispatcher of the connections to the workers. -/
def view (s : EchoServert ω) (input : ℕ → Descriptor) : Dispatch ω ℤ UInt8 where
  arrived := s.accepted
  taken := s.buf.removed.length
  serving := fun w => descriptorOf (s.buf.point (some w)) (s.work w)
  table := s.table
  finished := s.closed
  said := fun i => (s.output i).received
  toSay := fun w => unsentOf (s.textOf input) (s.buf.point (some w)) (s.work w)

structure Sound (n : ℤ) (s : EchoServert ω) : Prop where
  buf : s.buf.Invariant n
  queue : s.accepted = s.buf.inserted ++ hand (s.buf.point none) ++ s.connfd.toList
  main : s.buf.point none = .idle ∨ (s.connfd = none ∧ AtInsert (s.buf.point none))
  worker : ∀ w, s.buf.point (some w) = .idle ∨
    (s.work w = .taking ∧ AtRemove (s.buf.point (some w)))
  good : ∀ w, (s.work w).Good
  healthy : ∀ i, Healthy (s.output i)

structure Invariant (n : ℤ) (input : ℕ → Descriptor) (s : EchoServert ω) : Prop where
  sound : Sound n s
  dispatch : (s.view input).Invariant Opened (echoOf input)

variable [DecidableEq ω] {n : ℤ} {input : ℕ → Descriptor} {s u : EchoServert ω}

section Update
variable {β : Type} (f : BufPoint → Work → β) (point : Option ω → BufPoint) (work : ω → Work) (w : ω)

/-- A worker moves, and the others stay where they are. -/
theorem update_worker (p : BufPoint) (x : Work) :
    (fun v => f (Function.update point (some w) p (some v)) (Function.update work w x v)) =
      Function.update (fun v => f (point (some v)) (work v)) w (f p x) := by
  funext v
  by_cases hv : v = w
  · subst hv
    simp
  · simp [hv]

theorem update_point (p : BufPoint) :
    (fun v => f (Function.update point (some w) p (some v)) (work v)) =
      Function.update (fun v => f (point (some v)) (work v)) w (f p (work w)) := by
  have h := update_worker f point work w p (work w)
  rwa [Function.update_eq_self] at h

theorem update_work (x : Work) :
    (fun v => f (point (some v)) (Function.update work w x v)) =
      Function.update (fun v => f (point (some v)) (work v)) w (f (point (some w)) x) := by
  have h := update_worker f point work w (point (some w)) x
  rwa [Function.update_eq_self] at h

end Update

theorem unsentOf_congr {f g : ℤ → List UInt8} {p : BufPoint} (x : Work)
    (h : ∀ connfd, p = .popped connfd → f connfd = g connfd) : unsentOf f p x = unsentOf g p x := by
  cases p with
  | popped connfd => exact h connfd rfl
  | _ => rfl

section Kept
omit [DecidableEq ω]

theorem Invariant.unreal (h : Invariant n input s) {connfd : ℤ} (hneg : ¬ Opened connfd) :
    s.table connfd = none := by
  by_contra hcon
  obtain ⟨i, hi⟩ := Option.ne_none_iff_exists'.1 hcon
  exact hneg (h.dispatch.numbered connfd i hi).1

/-- Where the numbers of the workers' descriptors stay, so does what they have to send. -/
theorem unsent_of_table {table : ℤ → Option ℕ} (htable : ∀ w connfd,
      descriptorOf (s.buf.point (some w)) (s.work w) = some connfd →
        table connfd = s.table connfd) :
    (({ s with table } : EchoServert ω).view input).toSay = (s.view input).toSay := by
  funext w
  apply unsentOf_congr
  intro connfd hp
  have hsame := htable w connfd (by rw [hp]; rfl)
  dsimp only [textOf, inputOf]
  rw [hsame]

/-- A number that is free is not that of a worker. -/
theorem Invariant.table_update (h : Invariant n input s) {connfd : ℤ} (hreal : Opened connfd)
    (hfree : s.table connfd = none) (number : Option ℕ) {w : ω} {c : ℤ}
    (hw : descriptorOf (s.buf.point (some w)) (s.work w) = some c) :
    Function.update s.table connfd number c = s.table c := by
  apply Function.update_of_ne
  rintro rfl
  obtain ⟨i, -, hi, -⟩ := h.dispatch.serving w c hw hreal
  cases hi.symm.trans hfree

end Kept

theorem accept_moves (h : Invariant n input s) {connfd : ℤ} (hstep : s.accept connfd = some u) :
    Sound n u ∧
      (s.view input).Moves Opened (echoOf input) (u.view input) := by
  rw [accept] at hstep
  split at hstep
  · rename_i hguard
    cases hstep
    obtain ⟨hheld, hidle, hfree⟩ := hguard
    have hsound := h.sound
    refine ⟨⟨hsound.buf, ?_, Or.inl hidle, hsound.worker, hsound.good, hsound.healthy⟩, ?_⟩
    · dsimp only
      rw [hsound.queue, hheld, hidle]
      simp [hand]
    · by_cases hreal : 0 ≤ connfd
      · rw [if_pos hreal]
        have hkeep : ∀ w c, descriptorOf (s.buf.point (some w)) (s.work w) = some c →
            Function.update s.table connfd (some s.accepted.length) c = s.table c :=
          fun w c => h.table_update hreal hfree (some s.accepted.length)
        have hmove : (s.view input).Moves Opened (echoOf input) _ := .arrive connfd hreal hfree
        convert hmove using 1
        exact Dispatch.ext rfl rfl rfl rfl rfl rfl (unsent_of_table hkeep)
      · rw [if_neg hreal]
        exact Dispatch.Moves.arriveUnreal connfd hreal
  · cases hstep

/-- What `main` does in `insert` the dispatcher does not see. -/
theorem view_of_main {b : SharedBuf (Option ω)} {p : BufPoint} (connfd : Option ℤ)
    (hpoint : b.point = Function.update s.buf.point none p) (hremoved : b.removed = s.buf.removed) :
    ({ s with buf := b, connfd } : EchoServert ω).view input = s.view input := by
  have hworker : ∀ w, b.point (some w) = s.buf.point (some w) := by
    intro w
    rw [hpoint, Function.update_of_ne (Option.some_ne_none w)]
  refine Dispatch.ext rfl ?_ ?_ rfl rfl rfl ?_
  · exact congrArg List.length hremoved
  · funext w
    exact congrArg (descriptorOf · _) (hworker w)
  · funext w
    exact congrArg (unsentOf _ · _) (hworker w)

theorem Sound.worker_of_main (h : Sound n s) {b : SharedBuf (Option ω)} {p : BufPoint}
    (hpoint : b.point = Function.update s.buf.point none p) (w : ω) :
    b.point (some w) = .idle ∨ (s.work w = .taking ∧ AtRemove (b.point (some w))) := by
  rw [hpoint, Function.update_of_ne (Option.some_ne_none w)]
  exact h.worker w

theorem insert_moves (h : Sound n s) (hstep : s.step input .insert = some u) :
    Sound n u ∧ u.view input = s.view input := by
  obtain ⟨connfd, hconnfd, hbuf⟩ := Option.bind_eq_some_iff.1 hstep
  obtain ⟨b, hinsert, rfl⟩ := Option.map_eq_some_iff.1 hbuf
  obtain ⟨hidle, slots, rfl⟩ := SharedBuf.insert_cases hinsert
  refine ⟨⟨SharedBuf.step_invariant h.buf hinsert, ?_, ?_, h.worker_of_main rfl, h.good,
    h.healthy⟩, view_of_main none rfl rfl⟩
  · have hqueue := h.queue
    rw [hconnfd, hidle] at hqueue
    simpa [SharedBuf.moveTo, hand] using hqueue
  · exact Or.inr ⟨rfl, by simp [SharedBuf.moveTo, AtInsert]⟩

theorem push_moves (h : Sound n s) (hstep : s.step input .push = some u) :
    Sound n u ∧ u.view input = s.view input := by
  obtain ⟨b, hpush, rfl⟩ := Option.map_eq_some_iff.1 hstep
  obtain ⟨item, hpoint, rfl⟩ := SharedBuf.push_cases hpush
  have hheld : s.connfd = none := by
    rcases h.main with hidle | ⟨hheld, -⟩
    · cases hidle.symm.trans hpoint
    · exact hheld
  refine ⟨⟨SharedBuf.step_invariant h.buf hpush, ?_, ?_, h.worker_of_main rfl, h.good,
    h.healthy⟩, view_of_main s.connfd rfl rfl⟩
  · have hqueue := h.queue
    rw [hpoint] at hqueue
    simpa [SharedBuf.moveTo, hand] using hqueue
  · exact Or.inr ⟨hheld, by simp [SharedBuf.moveTo, AtInsert]⟩

theorem postItem_moves (h : Sound n s) (hstep : s.step input .postItem = some u) :
    Sound n u ∧ u.view input = s.view input := by
  obtain ⟨b, hpost, rfl⟩ := Option.map_eq_some_iff.1 hstep
  obtain ⟨hpoint, rfl⟩ := SharedBuf.postItem_cases hpost
  refine ⟨⟨SharedBuf.step_invariant h.buf hpost, ?_, ?_, h.worker_of_main rfl, h.good,
    h.healthy⟩, view_of_main s.connfd rfl rfl⟩
  · have hqueue := h.queue
    rw [hpoint] at hqueue
    simpa [SharedBuf.moveTo, hand] using hqueue
  · exact Or.inl (by simp [SharedBuf.moveTo])

section Worker
variable {w : ω} {p : BufPoint} {x : Work}

/-- What a step of a worker has to show. -/
theorem Sound.of_worker (h : Sound n s) (hpoint : u.buf.point = Function.update s.buf.point (some w) p)
    (hwork : u.work = Function.update s.work w x) (hbuf : u.buf.Invariant n)
    (hinserted : u.buf.inserted = s.buf.inserted) (hheld : u.connfd = s.connfd)
    (haccepted : u.accepted = s.accepted) (hp : p = .idle ∨ (x = .taking ∧ AtRemove p))
    (hgood : x.Good) (hhealthy : ∀ i, Healthy (u.output i)) : Sound n u := by
  have hmain : u.buf.point none = s.buf.point none := by
    rw [hpoint, Function.update_of_ne (Option.some_ne_none w).symm]
  constructor
  · exact hbuf
  · rw [haccepted, hinserted, hmain, hheld, h.queue]
  · rw [hmain, hheld]
    exact h.main
  · intro v
    by_cases hv : v = w
    · subst hv
      rw [hpoint, hwork, Function.update_self, Function.update_self]
      exact hp
    · have hne : some v ≠ some w := fun hcon => hv (Option.some.inj hcon)
      rw [hpoint, hwork, Function.update_of_ne hne, Function.update_of_ne hv]
      exact h.worker v
  · intro v
    rw [hwork]
    by_cases hv : v = w
    · subst hv
      rw [Function.update_self]
      exact hgood
    · rw [Function.update_of_ne hv]
      exact h.good v
  · exact hhealthy

/-- The dispatcher does not see a step of a worker that keeps its descriptor and what is unsent. -/
theorem view_of_worker (input : ℕ → Descriptor) {b : SharedBuf (Option ω)} (byteCnt : ℕ)
    (hpoint : b.point = Function.update s.buf.point (some w) p) (hremoved : b.removed = s.buf.removed)
    (hdescriptor : descriptorOf p x = descriptorOf (s.buf.point (some w)) (s.work w))
    (hunsent : unsentOf (s.textOf input) p x =
      unsentOf (s.textOf input) (s.buf.point (some w)) (s.work w)) :
    ({ s with buf := b, work := Function.update s.work w x, byteCnt } : EchoServert ω).view input =
      s.view input := by
  refine Dispatch.ext rfl ?_ ?_ rfl rfl rfl ?_
  · exact congrArg List.length hremoved
  · dsimp only [view]
    rw [hpoint, update_worker, hdescriptor]
    exact Function.update_eq_self w _
  · change (fun v => unsentOf (s.textOf input) (b.point (some v)) (Function.update s.work w x v)) = _
    rw [hpoint, update_worker, hunsent]
    exact Function.update_eq_self w _

end Worker

theorem remove_moves (h : Sound n s) {w : ω} (hstep : s.step input (.remove w) = some u) :
    Sound n u ∧ u.view input = s.view input := by
  rw [step] at hstep
  split at hstep
  · rename_i htaking
    obtain ⟨b, hremove, rfl⟩ := Option.map_eq_some_iff.1 hstep
    obtain ⟨hidle, items, -, rfl⟩ := SharedBuf.remove_cases hremove
    have hwork : s.work = Function.update s.work w .taking := by
      rw [← htaking, Function.update_eq_self]
    refine ⟨h.of_worker (p := .hasItem) rfl hwork (SharedBuf.step_invariant h.buf hremove) rfl rfl rfl
      (Or.inr ⟨rfl, trivial⟩) trivial h.healthy, ?_⟩
    have hview := view_of_worker (s := s) (p := .hasItem) (x := .taking)
      (b := { s.buf with items }.moveTo (some w) .hasItem) input s.byteCnt rfl
      rfl (by rw [hidle, htaking]; rfl) (by rw [hidle, htaking]; rfl)
    rwa [← hwork] at hview
  · cases hstep

/-- The first connection that waits gets its worker. -/
theorem pop_moves (h : Invariant n input s) {w : ω} (hstep : s.step input (.pop w) = some u) :
    Sound n u ∧ (s.view input).Moves Opened (echoOf input) (u.view input) := by
  obtain ⟨b, hpop, rfl⟩ := Option.map_eq_some_iff.1 hstep
  obtain ⟨item, rest, hitem, hbuf, rfl⟩ := SharedBuf.pop_cases hpop
  have hsound := h.sound
  have htaking : s.work w = .taking := by
    rcases hsound.worker w with hidle | ⟨htaking, -⟩
    · cases hidle.symm.trans hitem
    · exact htaking
  have hwork : s.work = Function.update s.work w .taking := by
    rw [← htaking, Function.update_eq_self]
  refine ⟨hsound.of_worker (p := .popped item) rfl hwork (SharedBuf.step_invariant hsound.buf hpop)
    rfl rfl rfl (Or.inr ⟨rfl, trivial⟩) trivial hsound.healthy, ?_⟩
  have hidle : (s.view input).serving w = none := by
    change descriptorOf (s.buf.point (some w)) (s.work w) = none
    rw [hitem, htaking]
    rfl
  have hnext : (s.view input).arrived[(s.view input).taken]? = some item := by
    change s.accepted[s.buf.removed.length]? = some item
    rw [hsound.queue, ← hsound.buf.fifo, hbuf, List.append_assoc, List.append_assoc,
      List.getElem?_append_right le_rfl, Nat.sub_self]
    rfl
  have htext : Opened item → s.textOf input item = echoOf input (s.view input).taken := by
    intro hreal
    have hnumber := h.dispatch.waiting _ item le_rfl hnext hreal
    change s.table item = some s.buf.removed.length at hnumber
    rw [textOf, inputOf, hnumber]
    rfl
  have hmove : (s.view input).Moves Opened (echoOf input) _ := .take w item _ hidle hnext htext
  convert hmove using 1
  refine Dispatch.ext rfl ?_ ?_ rfl rfl rfl ?_
  · exact List.length_append
  · exact update_point descriptorOf s.buf.point s.work w (.popped item)
  · exact update_point (unsentOf (s.textOf input)) s.buf.point s.work w (.popped item)

theorem postSlot_moves (h : Sound n s) (hinput : ∀ i, .failed ∉ (input i).outcomes)
    {w : ω} {array : UserBuf} (hstep : s.step input (.postSlot w array) = some u) :
    Sound n u ∧ u.view input = s.view input := by
  rw [step] at hstep
  split at hstep
  · rename_i connfd hpopped
    split_ifs at hstep with harray
    obtain ⟨b, hpost, rfl⟩ := Option.map_eq_some_iff.1 hstep
    obtain ⟨item, -, rfl⟩ := SharedBuf.postSlot_cases hpost
    have hquiet : .failed ∉ (s.inputOf input connfd).outcomes := by
      rw [inputOf]
      cases s.table connfd with
      | none => exact List.not_mem_nil
      | some i => exact hinput i
    refine ⟨h.of_worker (p := .idle) rfl rfl (SharedBuf.step_invariant h.buf hpost) rfl rfl rfl
      (Or.inl rfl) ⟨harray, create_good hquiet⟩ h.healthy, ?_⟩
    exact view_of_worker (b := { s.buf with slots := s.buf.slots.post }.moveTo (some w) .idle)
      (x := .reading connfd array (Riob.create (s.inputOf input connfd))) input s.byteCnt rfl rfl
      (by rw [hpopped]; rfl) (by rw [hpopped]; rfl)
  · cases hstep

omit [DecidableEq ω] in
theorem Sound.idle (h : Sound n s) {w : ω} (hwork : s.work w ≠ .taking) :
    s.buf.point (some w) = .idle := by
  rcases h.worker w with hidle | ⟨htaking, -⟩
  · exact hidle
  · exact absurd htaking hwork

omit [DecidableEq ω] in
/-- A worker whose descriptor is not open has that of a failed `Accept`. -/
theorem Invariant.not_opened (h : Invariant n input s) {w : ω} {connfd : ℤ}
    (hw : (s.view input).serving w = some connfd) (hnone : s.table connfd = none) :
    ¬ Opened connfd := by
  intro hreal
  obtain ⟨i, -, hi, -⟩ := h.dispatch.serving w connfd hw hreal
  cases hi.symm.trans hnone

theorem fill_nil (buf : UserBuf) : ∃ buf', fill buf [] = some buf' ∧
    buf'.bytes.length = buf.bytes.length :=
  ⟨_, dif_pos (Nat.zero_le _), rfl⟩

omit [DecidableEq ω] in
theorem Invariant.serving_of_work (h : Invariant n input s) {w : ω} {connfd : ℤ}
    (hwork : (s.work w).connfd = some connfd) :
    s.buf.point (some w) = .idle ∧ (s.view input).serving w = some connfd := by
  have hidle := h.sound.idle (w := w) (by rintro hcon; rw [hcon] at hwork; cases hwork)
  refine ⟨hidle, ?_⟩
  change descriptorOf (s.buf.point (some w)) (s.work w) = _
  rw [hidle]
  exact hwork

inductive Reads (s : EchoServert ω) (w : ω) : EchoServert ω → Prop
  | lost (connfd : ℤ) (usrbuf usrbuf' : UserBuf) (n : ℕ) (riob : Riob)
      (hwork : s.work w = .reading connfd usrbuf riob) (hnone : s.table connfd = none)
      (hlength : usrbuf'.bytes.length = MAXLINE) (hriob : Riob.Good riob) : Reads s w
        { s.setWork w (.writing connfd usrbuf' n riob) with byteCnt := (s.byteCnt + n) % 2 ^ 64 }
  | eof (connfd : ℤ) (usrbuf : UserBuf) (riob : Riob) (i : ℕ)
      (hwork : s.work w = .reading connfd usrbuf riob) (hi : s.table connfd = some i)
      (hnil : riob.left = []) : Reads s w (s.setWork w (.closing connfd))
  | line (connfd : ℤ) (usrbuf usrbuf' : UserBuf) (n : ℕ) (riob riob' : Riob) (i : ℕ)
      (hwork : s.work w = .reading connfd usrbuf riob) (hi : s.table connfd = some i)
      (hlength : usrbuf'.bytes.length = MAXLINE) (hn : n ≤ MAXLINE) (hriob : Riob.Good riob')
      (hline : echoed (MAXLINE - 1) (MAXLINE - 1) riob.left =
        usrbuf'.bytes.take n ++ echoed (MAXLINE - 1) (MAXLINE - 1) riob'.left)
      (hless : riob'.left.length < riob.left.length) : Reads s w
        { s.setWork w (.writing connfd usrbuf' n riob') with byteCnt := (s.byteCnt + n) % 2 ^ 64 }

theorem reads (h : Sound n s) {w : ω} {connfd : ℤ} {usrbuf : UserBuf} {riob : Riob}
    (hwork : s.work w = .reading connfd usrbuf riob) : ∃ u, s.read w = some u ∧ s.Reads w u := by
  obtain ⟨hlength, hriob⟩ : usrbuf.bytes.length = MAXLINE ∧ Riob.Good riob := by
    have hgood := h.good w
    rwa [hwork] at hgood
  simp only [read, hwork, readLine]
  by_cases hnone : s.table connfd = none
  · obtain ⟨usrbuf', hfill, hlength'⟩ := fill_nil usrbuf
    have hn : sizeOfSsize (-1) ≠ 0 := by decide
    simp only [if_pos hnone, Option.bind_eq_bind, Option.bind_some, if_neg hn, if_true, hfill]
    exact ⟨_, rfl, .lost connfd usrbuf usrbuf' _ riob hwork hnone (hlength'.trans hlength) hriob⟩
  · obtain ⟨i, hi⟩ := Option.ne_none_iff_exists'.1 hnone
    rw [if_neg hnone]
    by_cases hnil : riob.left = []
    · obtain ⟨riob', hcall, -, -⟩ := readlineb_end hriob hnil
      have hn : sizeOfSsize 0 = 0 := by decide
      simp only [hcall, Option.bind_eq_bind, Option.bind_some, if_pos hn]
      exact ⟨_, rfl, .eof connfd usrbuf riob i hwork hi hnil⟩
    · obtain ⟨k, data, riob', usrbuf', hcall, hriob', hk, hle, hfill, hlength', hpiece, hleft⟩ :=
        read_turn hlength hriob hnil
      have hret : (k : ℤ) ≠ -1 := by omega
      have hline := echoed_piece (k := MAXLINE - 1) (by decide) hnil
      have hless := drop_line_lt (k := MAXLINE - 1) (by decide) hnil
      rw [← hpiece, ← hleft] at hline
      rw [← hleft] at hless
      simp only [hcall, Option.bind_eq_bind, Option.bind_some, sizeOfSsize_of_le hle,
        if_neg hk.ne', if_neg hret, hfill]
      exact ⟨_, rfl, .line connfd usrbuf usrbuf' k riob riob' i hwork hi hlength' hle hriob' hline
        hless⟩

theorem read_cases (h : Sound n s) {w : ω} (hstep : s.read w = some u) : s.Reads w u := by
  cases hwork : s.work w with
  | reading connfd usrbuf riob =>
    obtain ⟨v, hv, hreads⟩ := reads h hwork
    cases hstep.symm.trans hv
    exact hreads
  | _ =>
    rw [read, hwork] at hstep
    cases hstep

/-- Reading is no step of the dispatcher, but what a lost worker tries to send changes. -/
theorem read_moves (h : Invariant n input s) {w : ω} (hstep : s.read w = some u) :
    Sound n u ∧ (s.view input).Moves Opened (echoOf input) (u.view input) := by
  have hsound := h.sound
  cases read_cases hsound hstep with
  | lost connfd usrbuf usrbuf' k riob hreading hnone hlength hriob =>
    obtain ⟨hidle, hserving⟩ := h.serving_of_work (w := w) (by rw [hreading]; rfl)
    have hunreal := h.not_opened hserving hnone
    refine ⟨hsound.of_worker (p := .idle) (hidle ▸ (Function.update_eq_self _ _).symm) rfl hsound.buf
      rfl rfl rfl (Or.inl rfl) ⟨hlength, fun hcon => absurd hcon hunreal, hriob⟩ hsound.healthy, ?_⟩
    have hmove : (s.view input).Moves Opened (echoOf input) _ := .murmur w connfd
      (Work.writing connfd usrbuf' k riob).unsent hserving hunreal
    convert hmove using 1
    refine Dispatch.ext rfl rfl ?_ rfl rfl rfl ?_
    · refine (update_work descriptorOf s.buf.point s.work w _).trans ?_
      rw [hidle]
      exact (congrArg (Function.update _ w) hserving.symm).trans (Function.update_eq_self w _)
    · refine (update_work (unsentOf (s.textOf input)) s.buf.point s.work w _).trans ?_
      rw [hidle]
      rfl
  | eof connfd usrbuf riob i hreading hi hnil =>
    obtain ⟨hidle, -⟩ := h.serving_of_work (w := w) (by rw [hreading]; rfl)
    have hpoint : s.buf.point = Function.update s.buf.point (some w) .idle := by
      rw [← hidle, Function.update_eq_self]
    refine ⟨hsound.of_worker (p := .idle) hpoint rfl hsound.buf rfl rfl rfl (Or.inl rfl)
      (h.dispatch.numbered connfd i hi).1 hsound.healthy, ?_⟩
    have hview := view_of_worker (p := .idle) (x := .closing connfd) input s.byteCnt hpoint rfl
      (by rw [hidle, hreading]; rfl)
      (by rw [hidle, hreading]; simp [unsentOf, Work.unsent, hnil, echoed])
    exact hview ▸ .stay
  | line connfd usrbuf usrbuf' k riob riob' i hreading hi hlength hk hriob hline hless =>
    obtain ⟨hidle, -⟩ := h.serving_of_work (w := w) (by rw [hreading]; rfl)
    have hpoint : s.buf.point = Function.update s.buf.point (some w) .idle := by
      rw [← hidle, Function.update_eq_self]
    refine ⟨hsound.of_worker (p := .idle) hpoint rfl hsound.buf rfl rfl rfl (Or.inl rfl)
      ⟨hlength, fun _ => hk, hriob⟩ hsound.healthy, ?_⟩
    have hview := view_of_worker (p := .idle) (x := .writing connfd usrbuf' k riob') input
      ((s.byteCnt + k) % 2 ^ 64) hpoint rfl (by rw [hidle, hreading]; rfl)
      (by rw [hidle, hreading]; exact hline.symm)
    exact hview ▸ .stay

inductive Writes (s : EchoServert ω) (w : ω) : EchoServert ω → Prop
  | lost (connfd : ℤ) (usrbuf : UserBuf) (n : ℕ) (riob : Riob)
      (hwork : s.work w = .writing connfd usrbuf n riob) (hnone : s.table connfd = none)
      (hgood : (Work.reading connfd usrbuf riob).Good) :
      Writes s w (s.setWork w (.reading connfd usrbuf riob))
  | line (connfd : ℤ) (usrbuf : UserBuf) (n : ℕ) (riob : Riob) (i : ℕ) (out : Receiver)
      (hwork : s.work w = .writing connfd usrbuf n riob) (hi : s.table connfd = some i)
      (hgood : (Work.reading connfd usrbuf riob).Good) (hhealthy : Healthy out)
      (hreceived : out.received = (s.output i).received ++ usrbuf.bytes.take n) : Writes s w
        { s.setWork w (.reading connfd usrbuf riob) with
          output := Function.update s.output i out }

theorem writes (h : Invariant n input s) {w : ω} {connfd : ℤ} {usrbuf : UserBuf} {k : ℕ}
    {riob : Riob} (hwork : s.work w = .writing connfd usrbuf k riob) :
    ∃ u, s.write w = some u ∧ s.Writes w u := by
  obtain ⟨hlength, hk, hriob⟩ : usrbuf.bytes.length = MAXLINE ∧ (0 ≤ connfd → k ≤ MAXLINE) ∧
      Riob.Good riob := by
    have hgood := h.sound.good w
    rwa [hwork] at hgood
  simp only [write, hwork, writeLine]
  cases hi : s.table connfd with
  | none => exact ⟨_, rfl, .lost connfd usrbuf k riob hwork hi ⟨hlength, hriob⟩⟩
  | some i =>
    have hreal := (h.dispatch.numbered connfd i hi).1
    obtain ⟨out, hcall, hhealthy, hreceived⟩ :=
      write_turn (hlength ▸ hk hreal) (h.sound.healthy i)
    simp only [hcall, Option.map_some]
    exact ⟨_, rfl, .line connfd usrbuf k riob i out hwork hi ⟨hlength, hriob⟩ hhealthy hreceived⟩

theorem write_cases (h : Invariant n input s) {w : ω} (hstep : s.write w = some u) :
    s.Writes w u := by
  cases hwork : s.work w with
  | writing connfd usrbuf k riob =>
    obtain ⟨v, hv, hwrites⟩ := writes h hwork
    cases hstep.symm.trans hv
    exact hwrites
  | _ =>
    rw [write, hwork] at hstep
    cases hstep

theorem write_moves (h : Invariant n input s) {w : ω} (hstep : s.write w = some u) :
    Sound n u ∧ (s.view input).Moves Opened (echoOf input) (u.view input) := by
  have hsound := h.sound
  have hdescriptor : ∀ {connfd : ℤ} (usrbuf : UserBuf) (riob : Riob),
      s.buf.point (some w) = .idle → (s.view input).serving w = some connfd →
        (fun v => descriptorOf (s.buf.point (some v))
          (Function.update s.work w (.reading connfd usrbuf riob) v)) = (s.view input).serving := by
    intro connfd usrbuf riob hidle hserving
    rw [update_work, hidle]
    exact (congrArg (Function.update _ w) hserving.symm).trans (Function.update_eq_self w _)
  cases write_cases h hstep with
  | lost connfd usrbuf k riob hwriting hnone hgood =>
    obtain ⟨hidle, hserving⟩ := h.serving_of_work (w := w) (by rw [hwriting]; rfl)
    refine ⟨hsound.of_worker (p := .idle) (hidle ▸ (Function.update_eq_self _ _).symm) rfl hsound.buf
      rfl rfl rfl (Or.inl rfl) hgood hsound.healthy, ?_⟩
    have hmove : (s.view input).Moves Opened (echoOf input) _ := .murmur w connfd
      (Work.reading connfd usrbuf riob).unsent hserving (h.not_opened hserving hnone)
    convert hmove using 1
    refine Dispatch.ext rfl rfl (hdescriptor usrbuf riob hidle hserving) rfl rfl rfl ?_
    refine (update_work (unsentOf (s.textOf input)) s.buf.point s.work w _).trans ?_
    rw [hidle]
    rfl
  | line connfd usrbuf k riob i out hwriting hi hgood hhealthy hreceived =>
    obtain ⟨hidle, hserving⟩ := h.serving_of_work (w := w) (by rw [hwriting]; rfl)
    refine ⟨hsound.of_worker (p := .idle) (hidle ▸ (Function.update_eq_self _ _).symm) rfl hsound.buf
      rfl rfl rfl (Or.inl rfl) hgood ?_, ?_⟩
    · intro j
      by_cases hj : j = i
      · subst hj
        exact (congrArg Healthy (Function.update_self ..)).mpr hhealthy
      · exact (congrArg Healthy (Function.update_of_ne hj ..)).mpr (hsound.healthy j)
    · have hsay : (s.view input).toSay w = usrbuf.bytes.take k ++
          (Work.reading connfd usrbuf riob).unsent := by
        change unsentOf _ (s.buf.point (some w)) (s.work w) = _
        rw [hidle, hwriting]
        rfl
      have hmove : (s.view input).Moves Opened (echoOf input) _ :=
        .say w connfd i _ _ hserving hi hsay
      convert hmove using 1
      refine Dispatch.ext rfl rfl (hdescriptor usrbuf riob hidle hserving) rfl rfl ?_ ?_
      · funext j
        by_cases hj : j = i
        · subst hj
          simp [view, hreceived]
        · simp [view, hj]
      · refine (update_work (unsentOf (s.textOf input)) s.buf.point s.work w _).trans ?_
        rw [hidle]
        rfl

theorem close_cases {w : ω} (hstep : s.close w = some u) : ∃ connfd, s.work w = .closing connfd ∧
    u = { s.setWork w .taking with
      table := Function.update s.table connfd none
      closed := s.closed ++ (s.table connfd).toList } := by
  rw [close] at hstep
  split at hstep
  · rename_i connfd hclosing
    cases hstep
    exact ⟨connfd, hclosing, rfl⟩
  · cases hstep

omit [DecidableEq ω] in
/-- No other worker has the descriptor that is closed. -/
theorem Invariant.table_of_close (h : Invariant n input s) {w : ω} {connfd : ℤ}
    (hserving : (s.view input).serving w = some connfd) (hreal : Opened connfd) {v : ω} {c : ℤ}
    (hvw : v ≠ w) (hv : (s.view input).serving v = some c) :
    Function.update s.table connfd none c = s.table c := by
  apply Function.update_of_ne
  rintro rfl
  exact hvw (h.dispatch.exclusive v w c hv hserving hreal)

theorem close_moves (h : Invariant n input s) {w : ω} (hstep : s.close w = some u) :
    Sound n u ∧ (s.view input).Moves Opened (echoOf input) (u.view input) := by
  obtain ⟨connfd, hclosing, rfl⟩ := close_cases hstep
  have hsound := h.sound
  obtain ⟨hidle, hserving⟩ := h.serving_of_work (w := w) (by rw [hclosing]; rfl)
  have hreal : Opened connfd := by
    have hgood := hsound.good w
    rwa [hclosing] at hgood
  have hsay : (s.view input).toSay w = [] := by
    change unsentOf _ (s.buf.point (some w)) (s.work w) = _
    rw [hidle, hclosing]
    rfl
  obtain ⟨i, -, hi, -⟩ := h.dispatch.serving w connfd hserving hreal
  have hkeep : ∀ v c, descriptorOf (s.buf.point (some v)) (Function.update s.work w .taking v) =
      some c → Function.update s.table connfd none c = s.table c := by
    intro v c hv
    by_cases hvw : v = w
    · subst hvw
      rw [hidle, Function.update_self] at hv
      cases hv
    · rw [Function.update_of_ne hvw] at hv
      exact h.table_of_close hserving hreal hvw hv
  refine ⟨hsound.of_worker (p := .idle) (hidle ▸ (Function.update_eq_self _ _).symm) rfl hsound.buf
    rfl rfl rfl (Or.inl rfl) trivial hsound.healthy, ?_⟩
  have hmove : (s.view input).Moves Opened (echoOf input) _ := .finish w connfd i hserving hi hsay
  convert hmove using 1
  refine Dispatch.ext rfl rfl ?_ rfl ?_ rfl ?_
  · refine (update_work descriptorOf s.buf.point s.work w _).trans ?_
    rw [hidle]
    rfl
  · exact congrArg (fun number => s.closed ++ Option.toList number) hi
  · refine (unsent_of_table (s := s.setWork w .taking) hkeep).trans ?_
    refine (update_work (unsentOf (s.textOf input)) s.buf.point s.work w _).trans ?_
    rw [hidle]
    rfl

theorem step_moves (h : Invariant n input s) (hinput : ∀ i, .failed ∉ (input i).outcomes)
    {a : Action ω} (hstep : s.step input a = some u) :
    Sound n u ∧ (s.view input).Moves Opened (echoOf input) (u.view input) := by
  have hstays : (Sound n u ∧ u.view input = s.view input) →
      Sound n u ∧ (s.view input).Moves Opened (echoOf input) (u.view input) := by
    rintro ⟨hsound, hview⟩
    exact ⟨hsound, hview ▸ .stay⟩
  cases a with
  | accept connfd => exact accept_moves h hstep
  | insert => exact hstays (insert_moves h.sound hstep)
  | push => exact hstays (push_moves h.sound hstep)
  | postItem => exact hstays (postItem_moves h.sound hstep)
  | remove w => exact hstays (remove_moves h.sound hstep)
  | pop w => exact pop_moves h hstep
  | postSlot w array => exact hstays (postSlot_moves h.sound hinput hstep)
  | read w => exact read_moves h hstep
  | write w => exact write_moves h hstep
  | close w => exact close_moves h hstep

theorem step_invariant (h : Invariant n input s) (hinput : ∀ i, .failed ∉ (input i).outcomes)
    {a : Action ω} (hstep : s.step input a = some u) : Invariant n input u := by
  obtain ⟨hsound, hmoves⟩ := step_moves h hinput hstep
  exact ⟨hsound, h.dispatch.of_moves hmoves⟩

omit [DecidableEq ω] in
theorem create_invariant (hn : 0 ≤ n) {output : ℕ → Receiver} (houtput : ∀ i, Healthy (output i))
    (hfresh : ∀ i, (output i).received = []) :
    Invariant n input (create n output : EchoServert ω) where
  sound :=
    { buf := SharedBuf.create_invariant hn
      queue := rfl
      main := Or.inl rfl
      worker := fun _ => Or.inl rfl
      good := fun _ => trivial
      healthy := houtput }
  dispatch :=
    { bounded := le_rfl
      numbered := fun _ _ h => by cases h
      waiting := fun _ _ _ h => by cases h
      silent := fun i _ => hfresh i
      serving := fun _ _ h => by cases h
      exclusive := fun _ _ _ h => by cases h
      served := fun _ _ h => by cases h
      finished := fun _ _ h => by cases h
      ended := fun _ h => by cases h
      once := List.nodup_nil
      lost := ThreadCensus.Census.zero fun _ => Dispatch.Lost.none }

def descriptor (s : EchoServert ω) (w : ω) : Option ℤ :=
  descriptorOf (s.buf.point (some w)) (s.work w)

/-- What holds of the connections in every state. The workers that a failed `Accept` has cost are
those with a negative descriptor. -/
structure Served [Fintype ω] (n : ℕ) (input : ℕ → Descriptor) (s : EchoServert ω) : Prop where
  inOrder : s.buf.removed = s.accepted.take s.buf.removed.length
  one : ∀ connfd i, s.table connfd = some i → s.accepted[i]? = some connfd ∧
    (s.buf.removed.length ≤ i ∨ ∃! w, s.descriptor w = some connfd)
  stillOpen : ∀ w connfd, s.descriptor w = some connfd → 0 ≤ connfd → s.table connfd ≠ none
  received : ∀ i connfd, s.accepted[i]? = some connfd → 0 ≤ connfd →
    (s.output i).received <+: echoOf input i ∧ (i ∈ s.closed ↔ s.table connfd ≠ some i)
  echoed : ∀ i ∈ s.closed, (s.output i).received = echoOf input i
  once : s.closed.Nodup
  lost : {w | ∃ connfd, s.descriptor w = some connfd ∧ ¬ 0 ≤ connfd}.ncard =
    s.buf.removed.countP (¬ 0 ≤ ·)
  bounded : {connfd | s.table connfd ≠ none}.ncard ≤ n + 1 + Fintype.card ω

omit [DecidableEq ω] in
theorem Sound.queue_removed (h : Sound n s) : s.accepted =
    s.buf.removed ++ (s.buf.buf ++ hand (s.buf.point none) ++ s.connfd.toList) := by
  rw [h.queue, ← h.buf.fifo, List.append_assoc, List.append_assoc, List.append_assoc]

omit [DecidableEq ω] in
theorem Sound.waiting_le {n : ℕ} (h : Sound (n : ℤ) s) :
    s.accepted.length - s.buf.removed.length ≤ n + 1 := by
  have hbuf := h.buf.boundedFifo.bounded
  have hheld : (hand (s.buf.point none)).length + s.connfd.toList.length ≤ 1 := by
    rcases h.main with hidle | ⟨hheld, -⟩
    · rw [hidle]
      cases s.connfd <;> simp [hand]
    · rw [hheld]
      cases s.buf.point none <;> simp [hand]
  rw [h.queue_removed, List.length_append, List.length_append, List.length_append]
  omega

omit [DecidableEq ω] in
theorem Invariant.served [Fintype ω] {n : ℕ} (h : Invariant (n : ℤ) input s) : Served n input s := by
  classical
  have hqueue := h.sound.queue_removed
  have hinOrder : s.buf.removed = s.accepted.take s.buf.removed.length := by
    conv_rhs => rw [hqueue]
    exact List.take_left.symm
  refine ⟨hinOrder, ?_, ?_, ?_, ?_, h.dispatch.once, ?_, ?_⟩
  · intro connfd i hi
    obtain ⟨hreal, harrived⟩ := h.dispatch.numbered connfd i hi
    refine ⟨harrived, ?_⟩
    by_cases htaken : i < s.buf.removed.length
    · obtain ⟨w, hw⟩ := h.dispatch.served connfd i hi htaken
      exact Or.inr ⟨w, hw, fun v hv => h.dispatch.exclusive v w connfd hv hw hreal⟩
    · exact Or.inl (Nat.not_lt.1 htaken)
  · intro w connfd hw hreal
    obtain ⟨i, -, hi, -⟩ := h.dispatch.serving w connfd hw hreal
    exact Option.ne_none_iff_exists'.2 ⟨i, hi⟩
  · intro i connfd hi hreal
    exact ⟨h.dispatch.said_prefix hi hreal, h.dispatch.finished i connfd hi hreal⟩
  · intro i hi
    exact (h.dispatch.ended i hi).2.1
  · have hcard := h.dispatch.lost.card
    change _ = (s.accepted.take s.buf.removed.length).countP _ at hcard
    rw [← hinOrder] at hcard
    exact hcard
  · exact h.dispatch.keys_le.trans (Nat.add_le_add_right h.sound.waiting_le _)

theorem run_create_invariant {n : ℕ} {output : ℕ → Receiver}
    (hinput : ∀ i, .failed ∉ (input i).outcomes) (houtput : ∀ i, Healthy (output i))
    (hfresh : ∀ i, (output i).received = []) {as : List (Action ω)}
    (hrun : run (step input) (create n output) as = some s) : Invariant (n : ℤ) input s := by
  apply run_invariant (Invariant (n : ℤ) input) _ _ hrun
  · intro s a u h hstep
    exact step_invariant h hinput hstep
  · exact create_invariant (Int.natCast_nonneg n) houtput hfresh

/-- In every run, whatever the schedule, no connection is lost, served twice or answered with
another's bytes. -/
theorem connections_are_served [Fintype ω] (n : ℕ) (input : ℕ → Descriptor) (output : ℕ → Receiver)
    (hinput : ∀ i, .failed ∉ (input i).outcomes) (houtput : ∀ i, Healthy (output i))
    (hfresh : ∀ i, (output i).received = []) (as : List (Action ω)) (s : EchoServert ω)
    (hrun : run (step input) (create n output) as = some s) : Served n input s :=
  (run_create_invariant hinput houtput hfresh hrun).served

def twoLines (_ : ℕ) : Descriptor := ⟨bytes "one\ntwo", [.short 1]⟩

def unheard (_ : ℕ) : Receiver := ⟨[], [.short 2], false, []⟩

theorem twoLines_quiet (i : ℕ) : .failed ∉ (twoLines i).outcomes := by
  rw [twoLines]
  decide

theorem unheard_healthy (i : ℕ) : Healthy (unheard i) := by
  rw [unheard]
  exact ⟨by decide, by decide⟩

def interleaved : List (Action (Bool)) :=
  [.accept 4, .insert, .push, .postItem, .remove false, .pop false, .postSlot false zeros, .accept (-1),
    .read false, .insert, .push, .write false, .postItem, .remove true, .pop true, .read false]

theorem interleaved_runs : (run (step twoLines) (create 10 unheard) interleaved).isSome := by
  decide +kernel

theorem connections_are_served_of_interleaved : ∃ s,
    run (step twoLines) (create 10 unheard) interleaved = some s ∧ Served 10 twoLines s := by
  obtain ⟨s, hs⟩ := Option.isSome_iff_exists.1 interleaved_runs
  exact ⟨s, hs, connections_are_served 10 twoLines unheard twoLines_quiet unheard_healthy
    (fun _ => rfl) interleaved s hs⟩

end EchoServert
end Echo
end HydrogenWeb
