import HydrogenWeb.HttpSessionBuffer

set_option autoImplicit false

/-!
# The assertions of HttpRequest

A build with assertions stops where `setMethod` finds a method or `setVersion` a version. The
bytes that the parser looks at are those of the buffer of the code, which after a body misses
the first byte of the next read.
-/
namespace HydrogenWeb

namespace HttpRequest

/-- With `assert(_method == INVALID)`; `none` where it fails. -/
def setMethodAsserted (r : HttpRequest) (m : List UInt8) : Option (Bool × HttpRequest) :=
  if r.method = .INVALID then some (r.setMethod m) else none

/-- With `assert(_version == UNKNOWN)`; `none` where it fails. -/
def setVersionAsserted (r : HttpRequest) (version : Version) : Option HttpRequest :=
  if r.version = .UNKNOWN then some (r.setVersion version) else none

end HttpRequest

namespace HttpContext
open ListSearch ByteBuffer HttpRequest

def parseRequestLineAsserted (r : HttpRequest) (line : List UInt8) : Option (Bool × HttpRequest) :=
  match find (byte ' ') line with
  | none => some (false, r)
  | some space => do
    let (known, r) ← r.setMethodAsserted (line.take space)
    if known then
      let rest := line.drop (space + 1)
      match find (byte ' ') rest with
      | none => some (false, r)
      | some space =>
        let target := rest.take space
        let r := setTarget r target
        let version := rest.drop (space + 1)
        if version.length = 8 ∧ version.take 7 = bytes "HTTP/1." then
          if version.getLast? = some (byte '1') then
            (r.setVersionAsserted .HTTP11).map fun r => (true, r)
          else if version.getLast? = some (byte '0') then
            (r.setVersionAsserted .HTTP10).map fun r => (true, r)
          else some (false, r)
        else some (false, r)
    else some (false, r)

@[simp] theorem setTarget_version (r : HttpRequest) (target : List UInt8) :
    (setTarget r target).version = r.version := by
  unfold setTarget
  split <;> rfl

@[simp] theorem setMethod_version (r : HttpRequest) (m : List UInt8) :
    (r.setMethod m).2.version = r.version := rfl

theorem map_setVersionAsserted (r : HttpRequest) (version : Version) :
    ((r.setVersionAsserted version).map fun r => (true, r)) =
      if r.version = .UNKNOWN then some (true, r.setVersion version) else none := by
  unfold setVersionAsserted
  split <;> rfl

/-- The assertions are about the request before the call. -/
theorem parseRequestLineAsserted_eq (r : HttpRequest) (line : List UInt8) :
    parseRequestLineAsserted r line =
      if (byte ' ' ∈ line → r.method = .INVALID) ∧
          ((parseRequestLine r line).1 = true → r.version = .UNKNOWN) then
        some (parseRequestLine r line)
      else none := by
  cases hfind : find (byte ' ') line with
  | none =>
    have hline : parseRequestLine r line = (false, r) := by
      rw [parseRequestLine, hfind]
    rw [hline, parseRequestLineAsserted, hfind]
    simp [find_eq_none.1 hfind]
  | some space =>
    have hmem : byte ' ' ∈ line := by
      by_contra hnone
      rw [find_eq_none.2 hnone] at hfind
      cases hfind
    by_cases hmethod : r.method = .INVALID
    · have hset : r.setMethodAsserted (line.take space) = some (r.setMethod (line.take space)) :=
        if_pos hmethod
      simp only [parseRequestLineAsserted, parseRequestLine, hfind, hset, Option.bind_eq_bind,
        Option.bind_some, hmethod, implies_true, true_and]
      have hversion := setMethod_version r (line.take space)
      generalize r.setMethod (line.take space) = set at hversion ⊢
      obtain ⟨known, r₂⟩ := set
      change r₂.version = r.version at hversion
      cases known with
      | false => simp
      | true =>
        simp only [if_true]
        cases find (byte ' ') (line.drop (space + 1)) with
        | none => simp
        | some space₂ =>
          simp only [map_setVersionAsserted, setTarget_version, hversion]
          generalize (line.drop (space + 1)).drop (space₂ + 1) = version
          by_cases hshape : version.length = 8 ∧ version.take 7 = bytes "HTTP/1."
          · by_cases hone : version.getLast? = some (byte '1')
            · simp [hshape, hone]
            · by_cases hzero : version.getLast? = some (byte '0')
              · simp only [hshape, and_self, if_true, if_neg hone, if_pos hzero, true_implies]
              · simp [hshape, hone, hzero]
          · simp [hshape]
    · rw [if_neg fun h => hmethod (h.1 hmem), parseRequestLineAsserted, hfind]
      simp only [setMethodAsserted, if_neg hmethod]
      rfl

section Calls

variable {β : Type} [ByteBuffer β] {t : ℤ} {c c₁ : HttpContext} {b b₁ : β}

/-- The request line is only looked at in the first iteration of a call. -/
theorem Iterates.at_line (h : Iterates t .outer c b .outer c₁ b₁)
    (hs : c₁.state = .EXPECTREQUESTLINE) : c₁ = c ∧ b₁ = b := by
  have hlive := h.live rfl (by simp [hs])
  cases h with
  | refl => exact ⟨rfl, rfl⟩
  | again hturn tail =>
    exfalso
    by_cases hline : c.state = .EXPECTREQUESTLINE
    · have hcases := outerTurn_of_turn hlive hturn
      cases hcases with
      | requestLine => exact tail.advances.leaves_line (by simp) hs
      | field h₁ => rw [hline] at h₁; cases h₁
      | endOfHead h₁ => rw [hline] at h₁; cases h₁
      | rightLength h₁ => rw [hline] at h₁; cases h₁
    · exact ((advances_again hturn).trans tail.advances).leaves_line hline hs

/-- Every call of `parseRequestLine` in a call of `parseRequest` gets past its assertions. -/
def Unaborted (t : ℤ) (c : HttpContext) (b : β) : Prop :=
  ∀ c₁ b₁ crlf, Iterates t .outer c b .outer c₁ b₁ → c₁.state = .EXPECTREQUESTLINE →
    getCRLF b₁ = some crlf → parseRequestLineAsserted c₁.request ((payload b₁).take crlf) ≠ none

theorem Ready.unaborted (hc : Ready c) (t : ℤ) (b : β) : Unaborted t c b := by
  intro c₁ b₁ crlf hiter hs _
  obtain ⟨rfl, rfl⟩ := hiter.at_line hs
  obtain ⟨hmethod, hversion, -⟩ := hc.unset hs
  rw [parseRequestLineAsserted_eq, if_pos ⟨fun _ => hmethod, fun _ => hversion⟩]
  simp

theorem Stuck.aborts (hc : Stuck c (payload b)) (t : ℤ) : ¬ Unaborted t c b := by
  intro h
  obtain ⟨line, rest, hp, hno, hknown, -⟩ := hc.line
  refine h c b line.length .refl hc.state (getCRLF_of_line hp hno) ?_
  rw [take_line hp, parseRequestLineAsserted_eq, if_neg]
  rintro ⟨hmethod, -⟩
  obtain ⟨m, tail, -, rfl⟩ := hknown
  exact hc.method (hmethod (by simp))

end Calls

end HttpContext

namespace HyBuffer

/-- The reader index is at most one behind the writer index, as a body leaves it. -/
structure Placed (b : HyBuffer) : Prop where
  reader : b.readerIndex ≤ b.writerIndex + 1
  bounded : b.writerIndex ≤ b.buffer.length
  area : PREPENDABLEBYTES ≤ b.buffer.length

/-- `n` bytes can be read: as many as `writableBytes` behind the writer index, and the others
behind a full vector. -/
def Takes (b : HyBuffer) (n : ℕ) : Prop :=
  b.writerIndex + min n b.writableBytes ≤ b.buffer.length ∧
    (n ≤ b.writableBytes ∨
      RoomFor { b with writerIndex := b.buffer.length } (n - b.writableBytes))

instance (b : HyBuffer) (n : ℕ) : Decidable (Takes b n) := inferInstanceAs (Decidable (_ ∧ _))

theorem fresh_placed : Placed fresh := ⟨by decide, by simp [fresh], by simp [fresh]⟩

theorem Represents.placed {b : HyBuffer} {q : List UInt8} (h : Represents b q) : Placed b :=
  ⟨Nat.le_succ_of_le h.ordered, h.bounded, h.area⟩

theorem Placed.represents {b : HyBuffer} (h : Placed b) (hunread : b.unread ≠ []) :
    Represents b b.unread := by
  have hlength := List.length_pos_iff.2 hunread
  simp only [unread, List.length_drop, List.length_take] at hlength
  exact ⟨by omega, h.bounded, h.area, rfl⟩

/-- Where the first part of a read fills the vector, the reader index is inside it. -/
theorem Placed.reader_le {b : HyBuffer} (h : Placed b)
    (hfill : b.writerIndex + b.writableBytes ≤ b.buffer.length) :
    b.readerIndex ≤ b.buffer.length := by
  have hreader := h.reader
  have hbounded := h.bounded
  by_contra hpast
  rw [writableBytes, sizeSub, if_neg hpast] at hfill
  omega

theorem Placed.readFd {b : HyBuffer} (h : Placed b) (data : List UInt8) :
    (Takes b data.length → ∃ c, b.readFd (.delivered data) = some (↑data.length, c) ∧ Placed c) ∧
      (¬ Takes b data.length → b.readFd (.delivered data) = none) := by
  have hreader := h.reader
  have hbounded := h.bounded
  have harea := h.area
  have hpart : (data.take b.writableBytes).length = min data.length b.writableBytes := by
    rw [List.length_take, min_comm]
  rw [HyBuffer.readFd]
  by_cases hstore : b.writerIndex + (data.take b.writableBytes).length ≤ b.buffer.length
  · rw [store_some hstore]
    generalize hc : b.buffer.take b.writerIndex ++ data.take b.writableBytes ++
      b.buffer.drop (b.writerIndex + (data.take b.writableBytes).length) = stored
    have hsize : stored.length = b.buffer.length := by
      rw [← hc]
      exact stored_length hstore
    simp only [Option.bind_eq_bind, Option.bind_some]
    by_cases hall : data.length ≤ b.writableBytes
    · rw [if_pos hall]
      constructor
      · intro _
        refine ⟨_, rfl, ?_, ?_, ?_⟩
        · dsimp only
          omega
        · dsimp only
          omega
        · dsimp only
          omega
      · intro hno
        exact absurd ⟨by omega, Or.inl hall⟩ hno
    · -- the vector is full behind the first part, and the rest is appended
      have hinside := h.reader_le (by omega)
      have hfilled : Represents ⟨stored, b.readerIndex, stored.length⟩
          (unread ⟨stored, b.readerIndex, stored.length⟩) :=
        ⟨by dsimp only; omega, le_refl _, by dsimp only; omega, rfl⟩
      have hspec := append_spec hfilled (data.drop b.writableBytes)
      have hsame : RoomFor ⟨stored, b.readerIndex, stored.length⟩
            (data.drop b.writableBytes).length ↔ Takes b data.length := by
        rw [Takes, List.length_drop]
        simp only [RoomFor, hsize]
        constructor
        · intro hroom
          exact ⟨by omega, Or.inr hroom⟩
        · rintro ⟨-, hroom⟩
          exact hroom.resolve_left hall
      rw [hsame] at hspec
      rw [if_neg hall]
      constructor
      · intro htakes
        obtain ⟨c, hcall, hrep⟩ := hspec.1 htakes
        exact ⟨c, by rw [hcall]; rfl, hrep.placed⟩
      · intro hno
        rw [hspec.2 hno]
        rfl
  · rw [store_none (by omega)]
    constructor
    · rintro ⟨hfits, -⟩
      omega
    · intro _
      rfl

theorem Placed.of_readFd {b c : HyBuffer} {n : ℤ} (h : Placed b) {data : List UInt8}
    (hread : b.readFd (.delivered data) = some (n, c)) : Placed c := by
  obtain ⟨htakes, hfull⟩ := h.readFd data
  by_cases hfits : Takes b data.length
  · obtain ⟨c', hc', hplaced⟩ := htakes hfits
    rw [hread] at hc'
    cases hc'
    exact hplaced
  · rw [hfull hfits] at hread
    cases hread

/-- Behind unread bytes a read appends. -/
theorem Placed.readFd_unread {b c : HyBuffer} {n : ℤ} (h : Placed b) (hunread : b.unread ≠ [])
    {data : List UInt8} (hread : b.readFd (.delivered data) = some (n, c)) :
    c.unread = b.unread ++ data := by
  obtain ⟨hroom, hfull⟩ := readFd_spec (h.represents hunread) data
  have hfits : Op.HasRoom b (.readFd (.delivered data)) := by
    by_contra hno
    rw [hfull hno] at hread
    cases hread
  obtain ⟨c', hc', hrep⟩ := hroom hfits
  rw [hread] at hc'
  cases hc'
  exact hrep.contents

theorem Placed.cleared {b b' : HyBuffer} (h : Placed b)
    (hclear : HttpContext.ClearedWithin b b' ∨ HttpContext.ClearedPast b b') : Placed b' := by
  have hreader := h.reader
  have hbounded := h.bounded
  have hlength : ByteBuffer.getEOL b = b.writerIndex - b.readerIndex := by
    show b.unread.length = _
    rw [unread, List.length_drop, List.length_take]
    omega
  obtain ⟨k, hk, rfl⟩ | ⟨hpos, rfl⟩ := hclear
  · refine ⟨?_, h.bounded, h.area⟩
    show b.readerIndex + k ≤ b.writerIndex + 1
    omega
  · refine ⟨?_, h.bounded, h.area⟩
    show b.readerIndex + (ByteBuffer.getEOL b + 1) ≤ b.writerIndex + 1
    omega

end HyBuffer

namespace HttpServer
open TransitionRuns HttpContext ByteBuffer
open HyBuffer (Placed Takes)

/-- The chunk is stored in the vector, and no assertion fails in the call that follows. -/
def AssertionsHold (s : Session HyBuffer) (chunk : Chunk) (_ : Option (Session HyBuffer)) : Prop :=
  ∃ n b, s.inputBuffer.readFd (.delivered chunk.data) = some (n, b) ∧
    Unaborted chunk.receiveTime s.context b

def Stored (s : Session HyBuffer) (chunk : Chunk) (_ : Option (Session HyBuffer)) : Prop :=
  Takes s.inputBuffer chunk.data.length

/-- The read of the chunk brings the parser the line of a request that it rejects, with its
method. -/
def Rejects (s : Session HyBuffer) (chunk : Chunk) : Prop :=
  ∃ n b, s.inputBuffer.readFd (.delivered chunk.data) = some (n, b) ∧ LineRejected s.context b

structure Unrejected (s : Session HyBuffer) : Prop where
  ready : Ready s.context
  body : BodyOfPost .outer s.context
  placed : Placed s.inputBuffer

theorem fresh_unrejected : Unrejected (Session.fresh HyBuffer.fresh) where
  ready := ready_fresh
  body := fresh_linked.body
  placed := HyBuffer.fresh_placed

variable {s s' : Session HyBuffer} {chunk : Chunk}

theorem deliver_eq_some (h : s.deliver chunk = some s') :
    ∃ n b, s.inputBuffer.readFd (.delivered chunk.data) = some (n, b) ∧
      s.message b chunk = some s' := by
  obtain ⟨⟨n, b⟩, hread, hmessage⟩ := Option.bind_eq_some_iff.1 h
  exact ⟨n, b, hread, hmessage⟩

theorem Unrejected.deliver (h : Unrejected s) (hgood : ¬ Rejects s chunk)
    (hs : s.deliver chunk = some s') : Unrejected s' := by
  obtain ⟨n, b, hread, hmessage⟩ := deliver_eq_some hs
  have hb := h.placed.of_readFd hread
  obtain ⟨⟨calls, context, b'⟩, hcall, rfl⟩ := Option.map_eq_some_iff.1 hmessage
  obtain ⟨hbody, -, hclear⟩ := onMessage_cleared h.ready.live h.body hcall
  refine ⟨?_, hbody, hb.cleared (hclear.imp_right And.left)⟩
  exact message_ready h.ready (fun hline => hgood ⟨n, b, hread, hline⟩) hmessage

/-- The rejected line is read again with the next chunk. -/
theorem Unrejected.aborts (h : Unrejected s) (hbad : Rejects s chunk) :
    ∃ s', s.deliver chunk = some s' ∧
      ∀ next, ¬ AssertionsHold s' next (s'.deliver next) := by
  obtain ⟨n, b, hread, hline⟩ := hbad
  obtain ⟨s', hs', hsame, hstuck⟩ := message_rejected hline chunk
  have hdeliver : s.deliver chunk = some s' := by
    rw [Session.deliver, hread]
    exact hs'
  refine ⟨s', hdeliver, ?_⟩
  rintro next ⟨m, b₂, hread₂, hholds⟩
  rw [hsame] at hread₂
  have hunread : payload b₂ = payload b ++ next.data :=
    (h.placed.of_readFd hread).readFd_unread hstuck.line.ne_nil hread₂
  refine Stuck.aborts ?_ next.receiveTime hholds
  rw [hunread]
  exact ⟨hstuck.state, hstuck.method, hstuck.line.append next.data⟩

/-- No assertion fails, and nothing is stored outside the vector, along a run exactly if every
read has room and no chunk but the last one is rejected at its request line. -/
theorem assertionsHold_iff (chunks : List Chunk) :
    Along Session.deliver AssertionsHold (Session.fresh HyBuffer.fresh) chunks ↔
      Along Session.deliver Stored (Session.fresh HyBuffer.fresh) chunks ∧
      Along Session.deliver (fun s chunk _ => ¬ Rejects s chunk) (Session.fresh HyBuffer.fresh)
        chunks.dropLast := by
  have hstart := fresh_unrejected
  generalize Session.fresh HyBuffer.fresh = s at hstart ⊢
  induction chunks generalizing s with
  | nil => exact iff_of_true trivial ⟨trivial, trivial⟩
  | cons chunk chunks ih =>
    obtain ⟨htakes, hfull⟩ := hstart.placed.readFd chunk.data
    by_cases hfits : Takes s.inputBuffer chunk.data.length
    · obtain ⟨b, hread, -⟩ := htakes hfits
      have hholds : AssertionsHold s chunk (s.deliver chunk) :=
        ⟨_, b, hread, hstart.ready.unaborted _ b⟩
      cases chunks with
      | nil =>
        exact iff_of_true ⟨hholds, fun _ _ => trivial⟩ ⟨⟨hfits, fun _ _ => trivial⟩, trivial⟩
      | cons next chunks =>
        rw [List.dropLast_cons_cons, along_cons, along_cons, along_cons]
        constructor
        · rintro ⟨-, htail⟩
          have hgood : ¬ Rejects s chunk := by
            intro hbad
            obtain ⟨s', hs', habort⟩ := hstart.aborts hbad
            exact habort next (htail s' hs').1
          have hrest := fun s' hs' => (ih s' (hstart.deliver hgood hs')).1 (htail s' hs')
          exact ⟨⟨hfits, fun s' hs' => (hrest s' hs').1⟩, hgood, fun s' hs' => (hrest s' hs').2⟩
        · rintro ⟨⟨-, hstored⟩, hgood, htail⟩
          refine ⟨hholds, fun s' hs' => (ih s' (hstart.deliver hgood hs')).2 ?_⟩
          exact ⟨hstored s' hs', htail s' hs'⟩
    · have hnone := hfull hfits
      apply iff_of_false
      · rintro ⟨⟨n, b, hread, -⟩, -⟩
        rw [hnone] at hread
        cases hread
      · rintro ⟨⟨hstored, -⟩, -⟩
        exact hfits hstored

/-- The line that is rejected with the first chunk is read again with the second. -/
theorem rejected_line_not_assertionsHold :
    ¬ Along Session.deliver AssertionsHold (Session.fresh HyBuffer.fresh)
      [.text "GET /\r\n", .text "x"] := by
  intro h
  have hread : (HyBuffer.fresh.readFd (.delivered (bytes "GET /\r\n"))).map
      (fun r => r.2.unread) = some (bytes "GET /\r\n") := by
    decide +kernel
  obtain ⟨⟨n, b⟩, hb, hunread⟩ := Option.map_eq_some_iff.1 hread
  have hbad : Rejects (Session.fresh HyBuffer.fresh) (.text "GET /\r\n") := by
    refine ⟨n, b, hb, rfl, bytes "GET /", [], hunread, by decide +kernel,
      ⟨.GET, bytes "/", by simp, rfl⟩, ?_⟩
    rw [← parseRequestLine_iff HttpRequest.empty]
    decide +kernel
  obtain ⟨s', hs', habort⟩ := fresh_unrejected.aborts hbad
  exact habort (.text "x") (h.2 s' hs').1

end HttpServer
end HydrogenWeb
