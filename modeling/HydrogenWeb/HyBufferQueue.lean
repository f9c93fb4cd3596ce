import HydrogenWeb.HyBuffer

set_option autoImplicit false

/-!
# HyBuffer against an ideal byte queue

`RoomFor b n` says in terms of the two indices and the vector size when `reserve`
really makes room for `n` bytes. `writableBytes` measures from the reader index, so
there are states in which it does not, and the store that follows leaves the vector.
-/
namespace HydrogenWeb.HyBuffer
open TransitionRuns

inductive Op where
  | append (data : List UInt8)
  | prepend (data : List UInt8)
  | clear (length : ℕ)
  | clearAll
  | readAsString
  | readFd (result : ReadvResult)

def Op.call (b : HyBuffer) : Op → Option HyBuffer
  | .append data => b.append data
  | .prepend data => b.prepend data
  | .clear length => some (b.clear length)
  | .clearAll => some b.clearAll
  | .readAsString => some b.readAsString.2
  | .readFd result => (b.readFd result).map Prod.snd

/-- The same call on the unread bytes of an ideal queue. -/
def Op.ideal (queue : List UInt8) : Op → List UInt8
  | .append data => queue ++ data
  | .prepend data => data ++ queue
  | .clear length => queue.drop length
  | .clearAll => []
  | .readAsString => []
  | .readFd .error => queue
  | .readFd (.delivered data) => queue ++ data

/-- What a caller and the kernel must respect. -/
def Op.Allowed (b : HyBuffer) : Op → Prop
  | .prepend data => data.length ≤ b.prependableBytes
  | .clear length => length ≤ b.readableBytes
  | .readFd (.delivered data) => data.length ≤ b.writableBytes + TEMPSIZE
  | _ => True

/-- `n` more bytes fit behind the writer index once `reserve n` has run. -/
def RoomFor (b : HyBuffer) (n : ℕ) : Prop :=
  if n ≤ b.buffer.length - b.readerIndex then b.writerIndex + n ≤ b.buffer.length
  else b.buffer.length < n + PREPENDABLEBYTES ∨
    PREPENDABLEBYTES + (b.writerIndex - b.readerIndex) + n ≤ b.buffer.length

/-- The condition on the state before the call. A `readFd` that needs the stack buffer
fills the whole of `vec[0]`, which is in the vector only if nothing is unread. -/
def Op.HasRoom (b : HyBuffer) : Op → Prop
  | .append data => RoomFor b data.length
  | .readFd (.delivered data) =>
    if data.length ≤ b.buffer.length - b.readerIndex then
      b.writerIndex + data.length ≤ b.buffer.length
    else b.readerIndex = b.writerIndex ∧
      RoomFor { b with writerIndex := b.buffer.length }
        (data.length - (b.buffer.length - b.readerIndex))
  | _ => True

/-- The indices are in order and delimit exactly the bytes of the queue; the vector
never shrinks below the prepend area, where `clearAll` puts them. -/
structure Represents (b : HyBuffer) (queue : List UInt8) : Prop where
  ordered : b.readerIndex ≤ b.writerIndex
  bounded : b.writerIndex ≤ b.buffer.length
  area : PREPENDABLEBYTES ≤ b.buffer.length
  contents : b.unread = queue

theorem fresh_represents : Represents fresh [] :=
  ⟨le_refl _, by simp [fresh], by simp [fresh], by simp [fresh, unread]⟩

theorem Represents.writableBytes_eq {b : HyBuffer} {q : List UInt8} (h : Represents b q) :
    b.writableBytes = b.buffer.length - b.readerIndex :=
  sizeSub_of_le (h.ordered.trans h.bounded)

theorem Represents.readableBytes_eq {b : HyBuffer} {q : List UInt8} (h : Represents b q) :
    b.readableBytes = b.writerIndex - b.readerIndex :=
  sizeSub_of_le h.ordered

theorem Represents.unread_length {b : HyBuffer} {q : List UInt8} (h : Represents b q) :
    b.unread.length = b.writerIndex - b.readerIndex := by
  simp [unread, Nat.min_eq_left h.bounded]

theorem stored_length {v data : List UInt8} {pos : ℕ} (h : pos + data.length ≤ v.length) :
    (v.take pos ++ data ++ v.drop (pos + data.length)).length = v.length := by
  simp only [List.length_append, List.length_take, List.length_drop]
  omega

theorem unread_store {b : HyBuffer} {data : List UInt8} (ordered : b.readerIndex ≤ b.writerIndex)
    (bounded : b.writerIndex ≤ b.buffer.length) :
    ((b.buffer.take b.writerIndex ++ data ++ b.buffer.drop (b.writerIndex + data.length)).take
      (b.writerIndex + data.length)).drop b.readerIndex = b.unread ++ data := by
  have hlen : (b.buffer.take b.writerIndex ++ data).length = b.writerIndex + data.length := by
    simp [Nat.min_eq_left bounded]
  rw [List.take_left' hlen, List.drop_append_of_le_length (by simp; omega)]
  rfl

theorem represents_store {b : HyBuffer} {q data : List UInt8} (h : Represents b q)
    (room : b.writerIndex + data.length ≤ b.buffer.length) :
    Represents ⟨b.buffer.take b.writerIndex ++ data ++ b.buffer.drop (b.writerIndex + data.length),
      b.readerIndex, b.writerIndex + data.length⟩ (q ++ data) := by
  have area := h.area
  have hlen := stored_length room
  refine ⟨h.ordered.trans (Nat.le_add_right _ _), ?_, ?_, ?_⟩
  · rw [hlen]
    exact room
  · rw [hlen]
    exact area
  · rw [unread, unread_store h.ordered h.bounded, h.contents]

/-- `reserve` keeps the unread bytes; it makes room exactly under `RoomFor`. -/
theorem reserve_spec {b : HyBuffer} {q : List UInt8} (h : Represents b q) (n : ℕ) :
    ∃ c, b.reserve n = some c ∧ Represents c q ∧
      (c.writerIndex + n ≤ c.buffer.length ↔ RoomFor b n) := by
  have ordered := h.ordered
  have bounded := h.bounded
  unfold reserve RoomFor
  rw [h.writableBytes_eq, prependableBytes]
  by_cases hfit : n ≤ b.buffer.length - b.readerIndex
  · rw [if_neg (by omega), if_pos hfit]
    exact ⟨b, rfl, h, Iff.rfl⟩
  rw [if_pos (by omega), if_neg hfit]
  by_cases hgrow : b.buffer.length < n + PREPENDABLEBYTES
  · rw [if_pos (by omega)]
    have hsize : (resize b.buffer (b.writerIndex + n)).length = b.writerIndex + n :=
      resize_length (by omega)
    have area := h.area
    refine ⟨_, rfl, ⟨ordered, by dsimp only; omega, by dsimp only; omega, ?_⟩, ?_⟩
    · rw [← h.contents, unread, unread, resize_take bounded (by omega)]
    · exact ⟨fun _ => Or.inl hgrow, fun _ => hsize.ge⟩
  · -- compaction: the reader index is past the prepend area, so the move stays inside
    rw [if_neg (by omega)]
    have hlen := h.unread_length
    have hmove : PREPENDABLEBYTES + b.unread.length ≤ b.buffer.length := by omega
    have htake : (b.buffer.take PREPENDABLEBYTES).length = PREPENDABLEBYTES := by
      simp only [List.length_take]
      omega
    simp only [h.readableBytes_eq, store_some hmove, Option.bind_eq_bind, Option.bind_some]
    have hstored := stored_length hmove
    refine ⟨_, rfl, ⟨Nat.le_add_right _ _, ?_, ?_, ?_⟩, ?_⟩
    · dsimp only
      omega
    · dsimp only
      omega
    · rw [unread, ← hlen, List.append_assoc, List.take_append, List.drop_append]
      simp [htake, h.contents]
    · dsimp only
      omega

theorem append_spec {b : HyBuffer} {q : List UInt8} (h : Represents b q) (data : List UInt8) :
    (RoomFor b data.length → ∃ c, b.append data = some c ∧ Represents c (q ++ data)) ∧
      (¬ RoomFor b data.length → b.append data = none) := by
  obtain ⟨c, hc, rep, room⟩ := reserve_spec h data.length
  unfold append
  simp only [hc, Option.bind_eq_bind, Option.bind_some]
  constructor
  · intro hroom
    have hfit := room.2 hroom
    rw [store_some hfit]
    exact ⟨_, rfl, represents_store rep hfit⟩
  · intro hroom
    rw [store_none (Nat.lt_of_not_le fun hfit => hroom (room.1 hfit))]
    rfl

theorem prepend_spec {b : HyBuffer} {q data : List UInt8} (h : Represents b q)
    (hp : data.length ≤ b.prependableBytes) :
    ∃ c, b.prepend data = some c ∧ Represents c (data ++ q) := by
  have ordered := h.ordered
  have bounded := h.bounded
  unfold prependableBytes at hp
  have hfit : b.readerIndex - data.length + data.length ≤ b.buffer.length := by omega
  unfold prepend
  rw [prependableBytes, if_pos hp]
  simp only [store_some hfit, Option.bind_eq_bind, Option.bind_some]
  have area := h.area
  refine ⟨_, rfl, ⟨by dsimp only; omega, ?_, ?_, ?_⟩⟩
  · exact bounded.trans (stored_length hfit).ge
  · exact area.trans (stored_length hfit).ge
  · have hback : b.readerIndex - data.length + data.length = b.readerIndex := by omega
    have htake : (b.buffer.take (b.readerIndex - data.length)).length =
        b.readerIndex - data.length := by
      simp only [List.length_take]
      omega
    have hsplit : b.writerIndex = b.readerIndex - data.length +
        (data.length + (b.writerIndex - b.readerIndex)) := by omega
    rw [← h.contents, unread, unread, hback, List.append_assoc, List.drop_take, List.drop_take,
      List.drop_left' htake]
    have hlen : b.writerIndex - (b.readerIndex - data.length) =
        data.length + (b.writerIndex - b.readerIndex) := by omega
    rw [hlen, List.take_length_add_append]

/-- The first `writable` bytes fill `vec[0]`; it lies in the vector only under `HasRoom`. -/
theorem readFd_spec {b : HyBuffer} {q : List UInt8} (h : Represents b q) (data : List UInt8) :
    (Op.HasRoom b (.readFd (.delivered data)) →
      ∃ c, b.readFd (.delivered data) = some ((data.length : ℤ), c) ∧ Represents c (q ++ data)) ∧
    (¬ Op.HasRoom b (.readFd (.delivered data)) → b.readFd (.delivered data) = none) := by
  have ordered := h.ordered
  have bounded := h.bounded
  unfold readFd Op.HasRoom
  simp only [h.writableBytes_eq, Option.bind_eq_bind]
  by_cases hfit : data.length ≤ b.buffer.length - b.readerIndex
  · have htake : data.take (b.buffer.length - b.readerIndex) = data := List.take_of_length_le hfit
    rw [if_pos hfit, htake]
    constructor
    · intro room
      rw [store_some room]
      simp only [Option.bind_some, if_pos hfit]
      exact ⟨_, rfl, represents_store h room⟩
    · intro room
      rw [store_none (by omega)]
      rfl
  rw [if_neg hfit]
  have hlen : (data.take (b.buffer.length - b.readerIndex)).length =
      b.buffer.length - b.readerIndex := by
    rw [List.length_take]
    omega
  by_cases hempty : b.readerIndex = b.writerIndex
  · have hroom : b.writerIndex + (data.take (b.buffer.length - b.readerIndex)).length =
        b.buffer.length := by omega
    have filled := represents_store h hroom.le
    rw [hroom] at filled
    rw [store_some hroom.le, hroom]
    generalize hc : b.buffer.take b.writerIndex ++ data.take (b.buffer.length - b.readerIndex) ++
      b.buffer.drop b.buffer.length = stored at filled
    have hstored : stored.length = b.buffer.length := by
      rw [← hc]
      simp only [List.length_append, List.length_drop, List.length_take] at hlen ⊢
      omega
    simp only [Option.bind_some, if_neg hfit, hstored]
    have spec := append_spec filled (data.drop (b.buffer.length - b.readerIndex))
    have hsame : RoomFor ⟨stored, b.readerIndex, b.buffer.length⟩
          (data.drop (b.buffer.length - b.readerIndex)).length ↔
        RoomFor { b with writerIndex := b.buffer.length }
          (data.length - (b.buffer.length - b.readerIndex)) := by
      simp only [RoomFor, hstored, List.length_drop]
    rw [List.append_assoc, List.take_append_drop] at spec
    constructor
    · rintro ⟨-, room⟩
      obtain ⟨c, hc, rep⟩ := spec.1 (hsame.2 room)
      exact ⟨c, by rw [hc]; rfl, rep⟩
    · intro room
      rw [spec.2 fun hr => room ⟨hempty, hsame.1 hr⟩]
      rfl
  · refine ⟨fun room => absurd room.1 hempty, fun _ => ?_⟩
    rw [store_none (by omega)]
    rfl

theorem Represents.clearAll {b : HyBuffer} {q : List UInt8} (h : Represents b q) :
    Represents b.clearAll [] :=
  ⟨le_refl _, h.area, h.area, by simp [unread, HyBuffer.clearAll]⟩

theorem call_spec {b : HyBuffer} {q : List UInt8} (h : Represents b q) (op : Op)
    (allowed : op.Allowed b) :
    (op.HasRoom b → ∃ c, op.call b = some c ∧ Represents c (op.ideal q)) ∧
      (¬ op.HasRoom b → op.call b = none) := by
  cases op with
  | append data => exact append_spec h data
  | prepend data => exact ⟨fun _ => prepend_spec h allowed, fun no => absurd trivial no⟩
  | clear length =>
    have hle : length ≤ b.writerIndex - b.readerIndex := h.readableBytes_eq ▸ allowed
    have ordered := h.ordered
    refine ⟨fun _ => ⟨_, rfl, ⟨?_, h.bounded, h.area, ?_⟩⟩, fun no => absurd trivial no⟩
    · dsimp only [clear]
      omega
    · rw [Op.ideal, ← h.contents, unread, unread, List.drop_drop]
      rfl
  | clearAll | readAsString => exact ⟨fun _ => ⟨_, rfl, h.clearAll⟩, fun no => absurd trivial no⟩
  | readFd result =>
    cases result with
    | error => exact ⟨fun _ => ⟨b, rfl, h⟩, fun no => absurd trivial no⟩
    | delivered data =>
      obtain ⟨hroom, hfull⟩ := readFd_spec h data
      constructor
      · intro room
        obtain ⟨c, hc, rep⟩ := hroom room
        exact ⟨c, by rw [Op.call, hc]; rfl, rep⟩
      · intro room
        rw [Op.call, hfull room]
        rfl

def step (s : HyBuffer × List UInt8) (op : Op) : Option (HyBuffer × List UInt8) :=
  (op.call s.1).map fun b => (b, op.ideal s.2)

/-- The call stores inside the vector and leaves a buffer that represents the queue. -/
def Refines (_ : HyBuffer × List UInt8) (_ : Op) (after : Option (HyBuffer × List UInt8)) : Prop :=
  ∃ s, after = some s ∧ Represents s.1 s.2

def AllowedAt (s : HyBuffer × List UInt8) (op : Op) (_ : Option (HyBuffer × List UInt8)) : Prop :=
  op.Allowed s.1

def HasRoomAt (s : HyBuffer × List UInt8) (op : Op) (_ : Option (HyBuffer × List UInt8)) : Prop :=
  op.HasRoom s.1

instance (b : HyBuffer) (q : List UInt8) : Decidable (Represents b q) :=
  decidable_of_iff (b.readerIndex ≤ b.writerIndex ∧ b.writerIndex ≤ b.buffer.length ∧
      PREPENDABLEBYTES ≤ b.buffer.length ∧ b.unread = q)
    ⟨fun ⟨o, w, a, c⟩ => ⟨o, w, a, c⟩, fun ⟨o, w, a, c⟩ => ⟨o, w, a, c⟩⟩

instance (b : HyBuffer) (n : ℕ) : Decidable (RoomFor b n) :=
  inferInstanceAs (Decidable (ite _ _ _))

instance (b : HyBuffer) : ∀ op : Op, Decidable (op.Allowed b)
  | .prepend _ | .clear _ | .readFd (.delivered _) => inferInstanceAs (Decidable (_ ≤ _))
  | .append _ | .clearAll | .readAsString | .readFd .error => isTrue trivial

instance (b : HyBuffer) : ∀ op : Op, Decidable (op.HasRoom b)
  | .append data => inferInstanceAs (Decidable (RoomFor b data.length))
  | .readFd (.delivered _) => inferInstanceAs (Decidable (ite _ _ _))
  | .prepend _ | .clear _ | .clearAll | .readAsString | .readFd .error => isTrue trivial

instance (s : HyBuffer × List UInt8) (op : Op) :
    ∀ after : Option (HyBuffer × List UInt8), Decidable (Refines s op after)
  | none => isFalse fun ⟨_, h, _⟩ => nomatch h
  | some t => decidable_of_iff (Represents t.1 t.2) ⟨fun h => ⟨t, rfl, h⟩, fun ⟨_, h, r⟩ => by
      cases h
      exact r⟩

instance (s : HyBuffer × List UInt8) (op : Op) (after : Option (HyBuffer × List UInt8)) :
    Decidable (AllowedAt s op after) := inferInstanceAs (Decidable (op.Allowed s.1))

instance (s : HyBuffer × List UInt8) (op : Op) (after : Option (HyBuffer × List UInt8)) :
    Decidable (HasRoomAt s op after) := inferInstanceAs (Decidable (op.HasRoom s.1))

/-- Calls that are allowed and have room leave a buffer with the bytes of the ideal queue. -/
theorem represents_after {b : HyBuffer} {q : List UInt8} (h : Represents b q) (ops : List Op)
    (allowed : Along step AllowedAt (b, q) ops) (room : Along step HasRoomAt (b, q) ops) :
    ∃ c, run Op.call b ops = some c ∧ Represents c (ops.foldl Op.ideal q) := by
  induction ops generalizing b q with
  | nil => exact ⟨b, rfl, h⟩
  | cons op ops ih =>
    obtain ⟨c, hc, rep⟩ := (call_spec h op allowed.1).1 room.1
    have hstep : step (b, q) op = some (c, op.ideal q) := by rw [step, hc]; rfl
    rw [run_cons, hc]
    exact ih rep (allowed.2 _ hstep) (room.2 _ hstep)

/-- Allowed calls that all return had room, each of them. -/
theorem hasRoom_of_run {b c : HyBuffer} {q : List UInt8} (h : Represents b q) (ops : List Op)
    (allowed : Along step AllowedAt (b, q) ops) (hrun : run Op.call b ops = some c) :
    Along step HasRoomAt (b, q) ops := by
  induction ops generalizing b q with
  | nil => trivial
  | cons op ops ih =>
    obtain ⟨d, hd, htail⟩ := Option.bind_eq_some_iff.1 hrun
    have hstep : step (b, q) op = some (d, op.ideal q) := by rw [step, hd]; rfl
    have spec := call_spec h op allowed.1
    have room : op.HasRoom b := by
      by_contra no
      rw [spec.2 no] at hd
      cases hd
    obtain ⟨e, he, rep⟩ := spec.1 room
    rw [hd, Option.some.injEq] at he
    subst he
    refine ⟨room, fun t ht => ?_⟩
    rw [hstep, Option.some.injEq] at ht
    subst ht
    exact ih rep (allowed.2 _ hstep) htail

/-- Every run of allowed calls on a fresh buffer refines the ideal queue after every
call if and only if every call of the run has room. -/
theorem refines_iff_hasRoom (ops : List Op) (allowed : Along step AllowedAt (fresh, []) ops) :
    Along step Refines (fresh, []) ops ↔ Along step HasRoomAt (fresh, []) ops := by
  apply along_iff (fun s => Represents s.1 s.2) _ _ ops fresh_represents allowed
  · intro s op rep hallowed
    obtain ⟨hroom, hfull⟩ := call_spec rep op hallowed
    constructor
    · rintro ⟨t, ht, -⟩
      by_contra no
      rw [step, hfull no] at ht
      cases ht
    · intro room
      obtain ⟨c, hc, next⟩ := hroom room
      exact ⟨(c, op.ideal s.2), by rw [step, hc]; rfl, next⟩
  · intro s op t rep hallowed room ht
    obtain ⟨c, hc, next⟩ := (call_spec rep op hallowed).1 room
    rw [step, hc] at ht
    cases ht
    exact next

/-- A read through the stack buffer, a partial clear and an append that compacts have room. -/
theorem refines_read_clear_append :
    Along step Refines (fresh, [])
      [.readFd (.delivered (List.replicate 2100 7)), .clear 2000, .append (List.replicate 300 1)] :=
  (refines_iff_hasRoom _ (by decide +kernel)).2 (by decide +kernel)

/-- The second append of 600 bytes finds 416 free ones and is not refused. -/
theorem append_twice_not_refines :
    Along step AllowedAt (fresh, [])
        [.append (List.replicate 600 0), .append (List.replicate 600 0)] ∧
      ¬ Along step Refines (fresh, [])
        [.append (List.replicate 600 0), .append (List.replicate 600 0)] := by
  decide +kernel

end HydrogenWeb.HyBuffer
