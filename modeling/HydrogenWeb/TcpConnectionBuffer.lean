import HydrogenWeb.HyBufferQueue
import HydrogenWeb.TcpConnectionOutput

set_option autoImplicit false

/-!
# Sending a buffer

`send(HyBuffer*)` takes a pointer. In the loop's thread it sends the unread bytes and clears
the buffer; in another thread it queues a functor that keeps the pointer, and the bytes are
read when the loop runs the functor. A caller that stores outside the vector, or leaves
the indices out of order for a call that reads the buffer, has no next state.
-/
namespace HydrogenWeb

open HyBuffer (Op Represents AllowedAt HasRoomAt)
open TransitionRuns

/-- A connection and the buffer of a caller. `unprocessedFunctors` of the functors in the
loop's queue point at the buffer; `handed` is what `sendInLoopThread` was called with. -/
structure BufferSend where
  conn : TcpConnection
  buffer : HyBuffer
  unprocessedFunctors : ℕ
  handed : List (List UInt8)
  effects : List TcpConnection.Effect

namespace BufferSend
open TcpConnection

def start (c : TcpConnection) (buffer : HyBuffer) : BufferSend := ⟨c, buffer, 0, [], []⟩

/-- `readableBytes()` bytes from `payload()`. -/
def readable (b : HyBuffer) : Option (List UInt8) :=
  if b.readerIndex ≤ b.writerIndex ∧ b.writerIndex ≤ b.buffer.length then some b.unread else none

def sendInLoopThread (s : BufferSend) (w : WriteResult) : Option BufferSend :=
  (readable s.buffer).map fun data =>
    let (conn, effects) := s.conn.sendInLoopThread data w
    { s with conn, handed := s.handed ++ [data], effects := s.effects ++ effects }

def send (s : BufferSend) (inLoopThread : Bool) (w : WriteResult) : Option BufferSend :=
  if s.conn.state = .CONNECTED then
    if inLoopThread then
      (s.sendInLoopThread w).map fun s => { s with buffer := s.buffer.clearAll }
    else some { s with unprocessedFunctors := s.unprocessedFunctors + 1 }
  else some s

def runFunctor (s : BufferSend) (w : WriteResult) : Option BufferSend :=
  match s.unprocessedFunctors with
  | 0 => some s
  | n + 1 => { s with unprocessedFunctors := n }.sendInLoopThread w

/-- Until then the caller goes on with its buffer, and the loop with the connection. -/
inductive Meanwhile where
  | caller (op : Op)
  | connection (c : TcpConnection)

def meanwhile (s : BufferSend) : Meanwhile → Option BufferSend
  | .caller op => (op.call s.buffer).map fun buffer => { s with buffer }
  | .connection c => some { s with conn := c }

def callerOp : Meanwhile → Option Op
  | .caller op => some op
  | .connection _ => none

/-- `send` of the buffer `b`, up to the end of its functor where there is one. -/
def sendThrough (inLoopThread : Bool) (c : TcpConnection) (b : HyBuffer)
    (between : List Meanwhile) (w later : WriteResult) : Option BufferSend :=
  ((start c b).send inLoopThread w).bind fun s =>
    (run meanwhile s between).bind fun t => t.runFunctor later

def outcome (s : BufferSend) : List (List UInt8) × Option (List UInt8) :=
  (s.handed, readable s.buffer)

/-- The bytes of the call are sent, and the buffer is left, as in the loop's thread. -/
structure SamePaths (c : TcpConnection) (b : HyBuffer) (between : List Meanwhile)
    (w later : WriteResult) : Prop where
  sent : ((sendThrough false c b between w later).map outcome).map Prod.fst =
    some (if c.state = .CONNECTED then [b.unread] else [])
  same : (sendThrough true c b between w later).map outcome =
    (sendThrough false c b between w later).map outcome

def bufferAfter (between : List Meanwhile) (b : HyBuffer) : Option HyBuffer :=
  run Op.call b (between.filterMap callerOp)

/-- What the caller's operations make of the bytes `q` of an ideal queue. -/
def after (between : List Meanwhile) (q : List UInt8) : List UInt8 :=
  (between.filterMap callerOp).foldl Op.ideal q

theorem readable_of_represents {b : HyBuffer} {u : List UInt8} (h : Represents b u) :
    readable b = some u := by
  rw [readable, if_pos ⟨h.ordered, h.bounded⟩, h.contents]

/-- The unread bytes that the functor finds: those of the ideal queue, where there is room. -/
theorem readable_after {b : HyBuffer} {q : List UInt8} (h : Represents b q)
    (between : List Meanwhile)
    (allowed : Along HyBuffer.step AllowedAt (b, q) (between.filterMap callerOp))
    (u : List UInt8) :
    (bufferAfter between b).bind readable = some u ↔
      Along HyBuffer.step HasRoomAt (b, q) (between.filterMap callerOp) ∧
        after between q = u := by
  have found (room : Along HyBuffer.step HasRoomAt (b, q) (between.filterMap callerOp)) :
      (bufferAfter between b).bind readable = some (after between q) := by
    obtain ⟨c, hc, rep⟩ := HyBuffer.represents_after h _ allowed room
    rw [bufferAfter, hc]
    exact readable_of_represents rep
  constructor
  · intro hu
    obtain ⟨c, hc, -⟩ := Option.bind_eq_some_iff.1 hu
    have room := HyBuffer.hasRoom_of_run h _ allowed hc
    rw [found room] at hu
    exact ⟨room, Option.some.inj hu⟩
  · intro ⟨room, hafter⟩
    rw [found room, hafter]

/-- In between nothing is handed over and no functor is run or queued. -/
theorem run_meanwhile (between : List Meanwhile) (s : BufferSend) :
    ∃ conn, run meanwhile s between =
      (bufferAfter between s.buffer).map fun buffer => { s with conn, buffer } := by
  induction between generalizing s with
  | nil => exact ⟨s.conn, rfl⟩
  | cons m between ih =>
    cases m with
    | caller op =>
      rw [run_cons, meanwhile]
      change ∃ conn, _ = (run Op.call s.buffer (op :: between.filterMap callerOp)).map _
      rw [run_cons]
      cases op.call s.buffer with
      | none => exact ⟨s.conn, rfl⟩
      | some b => exact ih { s with buffer := b }
    | connection c => exact ih { s with conn := c }

/-- The functor finds what the caller has made of the buffer by then. -/
theorem sendThrough_foreign {c : TcpConnection} (hc : c.state = .CONNECTED) (b : HyBuffer)
    (between : List Meanwhile) (w later : WriteResult) :
    (sendThrough false c b between w later).map outcome =
      ((bufferAfter between b).bind readable).map fun u => ([u], some u) := by
  obtain ⟨conn, hrun⟩ := run_meanwhile between { start c b with unprocessedFunctors := 1 }
  have hsend : (start c b).send false w =
      some { start c b with unprocessedFunctors := 1 } := if_pos hc
  rw [sendThrough, hsend, Option.bind_some, hrun]
  change Option.map _ (((bufferAfter between b).map _).bind _) = _
  cases bufferAfter between b with
  | none => rfl
  | some d =>
    change Option.map _ ((readable d).map _) = (readable d).map _
    cases hd : readable d with
    | none => rfl
    | some u =>
      change some ([u], readable d) = _
      rw [hd]
      rfl

theorem sendThrough_loop {c : TcpConnection} (hc : c.state = .CONNECTED) {b : HyBuffer}
    {u : List UInt8} (h : Represents b u) (between : List Meanwhile) (w later : WriteResult) :
    (sendThrough true c b between w later).map outcome =
      (bufferAfter between b.clearAll).map fun d => ([u], readable d) := by
  have hsent : (start c b).sendInLoopThread w = some
      ⟨(c.sendInLoopThread u w).1, b, 0, [u], (c.sendInLoopThread u w).2⟩ := by
    rw [sendInLoopThread, start, readable_of_represents h]
    rfl
  have hsend : (start c b).send true w = some
      ⟨(c.sendInLoopThread u w).1, b.clearAll, 0, [u], (c.sendInLoopThread u w).2⟩ := by
    rw [send, if_pos (show (start c b).conn.state = .CONNECTED from hc), if_pos rfl, hsent]
    rfl
  rw [sendThrough, hsend, Option.bind_some]
  obtain ⟨conn, hrun⟩ := run_meanwhile between
    ⟨(c.sendInLoopThread u w).1, b.clearAll, 0, [u], (c.sendInLoopThread u w).2⟩
  rw [hrun]
  change Option.map _ (((bufferAfter between b.clearAll).map _).bind _) = _
  cases bufferAfter between b.clearAll with
  | none => rfl
  | some d => rfl

theorem sendThrough_down {c : TcpConnection} (hc : c.state ≠ .CONNECTED) (inLoopThread : Bool)
    (b : HyBuffer) (between : List Meanwhile) (w later : WriteResult) :
    (sendThrough inLoopThread c b between w later).map outcome =
      (bufferAfter between b).map fun d => ([], readable d) := by
  have hsend : (start c b).send inLoopThread w = some (start c b) := if_neg hc
  obtain ⟨conn, hrun⟩ := run_meanwhile between (start c b)
  rw [sendThrough, hsend, Option.bind_some, hrun]
  change Option.map _ (((bufferAfter between b).map _).bind _) = _
  cases bufferAfter between b with
  | none => rfl
  | some d => rfl

/-- The functor finds the bytes of the call, and the same operations would have put them
back into the buffer that `clearAll` leaves. -/
theorem samePaths_of_connected {c : TcpConnection} (hc : c.state = .CONNECTED) {b : HyBuffer}
    {u : List UInt8} (h : Represents b u) (between : List Meanwhile) (w later : WriteResult) :
    SamePaths c b between w later ↔ (bufferAfter between b).bind readable = some u ∧
      (bufferAfter between b.clearAll).bind readable = some u := by
  have hloop := sendThrough_loop hc h between w later
  have hforeign := sendThrough_foreign hc b between w later
  constructor
  · intro ⟨hsent, hsame⟩
    rw [hforeign, if_pos hc, h.contents] at hsent
    have hu : (bufferAfter between b).bind readable = some u := by
      obtain ⟨p, hp, hfst⟩ := Option.map_eq_some_iff.1 hsent
      obtain ⟨v, hv, rfl⟩ := Option.map_eq_some_iff.1 hp
      rw [hv, (List.cons.inj hfst).1]
    rw [hloop, hforeign, hu] at hsame
    obtain ⟨d, hd, hpair⟩ := Option.map_eq_some_iff.1 hsame
    rw [hd]
    exact ⟨hu, (Prod.ext_iff.1 hpair).2⟩
  · intro ⟨hu, hcleared⟩
    obtain ⟨d, hd, hread⟩ := Option.bind_eq_some_iff.1 hcleared
    constructor
    · rw [hforeign, hu, if_pos hc, h.contents]
      rfl
    · rw [hloop, hforeign, hu, hd, Option.map_some, hread]
      rfl

theorem samePaths_of_down {c : TcpConnection} (hc : c.state ≠ .CONNECTED) (b : HyBuffer)
    (between : List Meanwhile) (w later : WriteResult) :
    SamePaths c b between w later ↔ (bufferAfter between b).isSome := by
  have hloop := sendThrough_down hc true b between w later
  have hforeign := sendThrough_down hc false b between w later
  constructor
  · intro ⟨hsent, _⟩
    rw [hforeign, if_neg hc] at hsent
    obtain ⟨p, hp, -⟩ := Option.map_eq_some_iff.1 hsent
    obtain ⟨d, hd, -⟩ := Option.map_eq_some_iff.1 hp
    rw [hd]
    rfl
  · intro hdefined
    obtain ⟨d, hd⟩ := Option.isSome_iff_exists.1 hdefined
    constructor
    · rw [hforeign, hd, if_neg hc]
      rfl
    · rw [hloop, hforeign]

/-- The two paths agree if and only if the caller's operations stay in the vector and give
back the bytes of the call, both from these bytes and from the buffer that `clearAll`
leaves. Where they respect the buffer's interface, this is room for each of them and a
statement about ideal queues. -/
theorem samePaths_iff (c : TcpConnection) {b : HyBuffer} {u : List UInt8} (h : Represents b u)
    (between : List Meanwhile) (w later : WriteResult) :
    (SamePaths c b between w later ↔
      (c.state = .CONNECTED → (bufferAfter between b).bind readable = some u ∧
        (bufferAfter between b.clearAll).bind readable = some u) ∧
      (c.state ≠ .CONNECTED → (bufferAfter between b).isSome)) ∧
    (c.state = .CONNECTED →
      Along HyBuffer.step AllowedAt (b, u) (between.filterMap callerOp) →
      Along HyBuffer.step AllowedAt (b.clearAll, []) (between.filterMap callerOp) →
      (SamePaths c b between w later ↔
        (Along HyBuffer.step HasRoomAt (b, u) (between.filterMap callerOp) ∧
          after between u = u) ∧
        Along HyBuffer.step HasRoomAt (b.clearAll, []) (between.filterMap callerOp) ∧
          after between [] = u)) := by
  constructor
  · by_cases hc : c.state = .CONNECTED
    · rw [samePaths_of_connected hc h]
      exact ⟨fun hboth => ⟨fun _ => hboth, fun no => absurd hc no⟩, fun hboth => hboth.1 hc⟩
    · rw [samePaths_of_down hc]
      exact ⟨fun hdefined => ⟨fun hcon => absurd hcon hc, fun _ => hdefined⟩,
        fun hdefined => hdefined.2 hc⟩
  · intro hc allowed cleared
    rw [samePaths_of_connected hc h, readable_after h between allowed,
      readable_after h.clearAll between cleared]

def oneByte : HyBuffer :=
  ⟨List.replicate 8 0 ++ bytes "a" ++ List.replicate 1023 0, 8, 9⟩

/-- A caller that clears the buffer and writes the byte again. -/
theorem samePaths_of_rewritten : SamePaths (established "c" 5) oneByte
    [.caller .clearAll, .connection (established "c" 5), .caller (.append (bytes "a"))]
    (.wrote 1) (.wrote 1) :=
  (samePaths_iff (established "c" 5) (by decide +kernel : Represents oneByte (bytes "a"))
    _ _ _).1.2 ⟨fun _ => by decide +kernel, fun no => absurd rfl no⟩

/-- A caller that clears its buffer after `send` has returned has nothing sent. -/
theorem cleared_buffer_not_sent : ¬ SamePaths (established "c" 5) oneByte
    [.caller .clearAll] (.wrote 1) (.wrote 1) := by
  intro h
  have hsent := h.sent
  revert hsent
  decide +kernel

end BufferSend
end HydrogenWeb
