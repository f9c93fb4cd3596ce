import HydrogenWeb.HttpConnectionRuns
import HydrogenWeb.HyBufferQueue

set_option autoImplicit false

/-!
# A session on the buffer of the code

The parser looks at its buffer through the unread bytes alone, and clears no more than them
before the end of a body. So a session that reads into a `HyBuffer` is the one on the ideal
queue as long as every read has room and only GET requests are completed.
-/
namespace HydrogenWeb.HttpContext
open ListSearch ByteBuffer

variable {β : Type} [ByteBuffer β]

def Turn.payload : Turn β → Turn (List UInt8)
  | .again l c b => .again l c (ByteBuffer.payload b)
  | .finished o c b => .finished o c (ByteBuffer.payload b)

theorem requestLineTurn_payload (t : ℤ) (c : HttpContext) (b : β) :
    (requestLineTurn t c b).payload = requestLineTurn t c (payload b) := by
  have hcrlf : getCRLF (payload b) = getCRLF b := rfl
  rw [requestLineTurn, requestLineTurn, hcrlf]
  cases getCRLF b with
  | none => rfl
  | some crlf =>
    dsimp only
    have hline : payload (payload b) = payload b := rfl
    rw [hline]
    split
    · rw [Turn.payload, payload_clear]
      rfl
    · rfl

theorem headersTurn_payload (c : HttpContext) (b : β) :
    (headersTurn c b).payload = headersTurn c (payload b) := by
  have hcrlf : getCRLF (payload b) = getCRLF b := rfl
  have hline : payload (payload b) = payload b := rfl
  rw [headersTurn, headersTurn, hcrlf]
  cases getCRLF b with
  | none => rfl
  | some crlf =>
    dsimp only
    rw [hline]
    split
    · rw [Turn.payload, payload_clear]
      rfl
    · split
      · rw [Turn.payload, payload_clear]
        rfl
      · rw [Turn.payload, payload_clear]
        rfl

theorem lengthTurn_payload (c : HttpContext) (b : β) :
    (lengthTurn c b).payload = lengthTurn c (payload b) := by
  have hend : getEOL (payload b) = getEOL b := rfl
  rw [lengthTurn, lengthTurn, hend]
  split
  · rfl
  · dsimp only
    split <;> rfl

theorem bodyTurn_payload (c : HttpContext) (b : β) :
    (bodyTurn c b).payload = bodyTurn c (payload b) := by
  have hassign : getAssignment (payload b) = getAssignment b := rfl
  have hand : getAND (payload b) = getAND b := rfl
  have hend : getEOL (payload b) = getEOL b := rfl
  have hline : payload (payload b) = payload b := rfl
  rw [bodyTurn, bodyTurn, hassign, hand, hend, hline]
  cases getAssignment b with
  | none => rfl
  | some assignment =>
    cases getAND b with
    | none =>
      dsimp only
      rw [Turn.payload, payload_clear]
      rfl
    | some andOp =>
      dsimp only
      split
      · rfl
      · rw [Turn.payload, payload_clear]
        rfl

theorem turn_payload (t : ℤ) (l : Loop) (c : HttpContext) (b : β) :
    (turn t l c b).payload = turn t l c (payload b) := by
  cases l with
  | body => exact bodyTurn_payload c b
  | outer =>
    cases hs : c.state with
    | EXPECTREQUESTLINE =>
      rw [turn_requestLine t b hs, turn_requestLine t _ hs]
      exact requestLineTurn_payload t c b
    | EXPECTHEADERS =>
      rw [turn_headers t b hs, turn_headers t _ hs]
      exact headersTurn_payload c b
    | EXPECTBODY =>
      rw [turn_length t b hs, turn_length t _ hs]
      exact lengthTurn_payload c b
    | ALLOK =>
      simp only [turn, hs]
      rfl

theorem turns_payload (t : ℤ) (fuel : ℕ) (l : Loop) (c : HttpContext) (b : β) :
    (turns t fuel l c b).map (fun r => (r.1, r.2.1, payload r.2.2)) = turns t fuel l c (payload b) := by
  induction fuel generalizing l c b with
  | zero => rfl
  | succ fuel ih =>
    rw [turns, turns, ← turn_payload]
    cases turn t l c b with
    | again l₁ c₁ b₁ => exact ih l₁ c₁ b₁
    | finished o c₁ b₁ => rfl

theorem parseRequest_payload (t : ℤ) (c : HttpContext) (b : β) :
    (parseRequest t c b).map (fun r => (r.1, r.2.1, payload r.2.2)) = parseRequest t c (payload b) :=
  turns_payload t _ .outer c b

def BodyOfPost (l : Loop) (c : HttpContext) : Prop :=
  l = .body ∨ c.state = .EXPECTBODY → c.request.method ≠ .GET

/-- Nothing but unread bytes has been cleared. -/
def ClearedWithin (b b' : β) : Prop := ∃ k ≤ getEOL b, b' = clear b k

/-- The unread bytes and one more have been cleared, as at the end of a body. -/
def ClearedPast (b b' : β) : Prop := 0 < getEOL b ∧ b' = clear b (getEOL b + 1)

theorem clearedWithin_refl (b : β) : ClearedWithin b b := ⟨0, Nat.zero_le _, (clear_zero b).symm⟩

theorem clearedWithin_prefix {b : β} {l rest : List UInt8} {k : ℕ} (hp : payload b = l ++ rest)
    (hk : k = l.length) : ClearedWithin b (clear b k) := by
  refine ⟨k, ?_, rfl⟩
  rw [getEOL, hp, List.length_append]
  omega

theorem clearedWithin_line {b : β} {line rest : List UInt8}
    (hp : payload b = line ++ CR :: LF :: rest) : ClearedWithin b (clear b (line.length + 2)) := by
  have hsplit : line ++ CR :: LF :: rest = (line ++ [CR, LF]) ++ rest := by simp
  exact clearedWithin_prefix (hp.trans hsplit) (by simp)

theorem ClearedWithin.trans {b b₁ b₂ : β} (h : ClearedWithin b b₁) (h₁ : ClearedWithin b₁ b₂) :
    ClearedWithin b b₂ := by
  obtain ⟨j, hj, rfl⟩ := h
  obtain ⟨k, hk, rfl⟩ := h₁
  rw [getEOL, payload_clear, List.length_drop] at hk
  rw [getEOL] at hj
  refine ⟨j + k, ?_, clear_clear b j k⟩
  rw [getEOL]
  omega

theorem ClearedWithin.past {b b₁ b₂ : β} (h : ClearedWithin b b₁) (h₁ : ClearedPast b₁ b₂) :
    ClearedPast b b₂ := by
  obtain ⟨j, hj, rfl⟩ := h
  obtain ⟨hpos, rfl⟩ := h₁
  have hlength : getEOL (clear b j) = getEOL b - j := by
    rw [getEOL, payload_clear, List.length_drop]
    rfl
  rw [hlength] at hpos ⊢
  have hsum : j + (getEOL b - j + 1) = getEOL b + 1 := by omega
  exact ⟨by omega, by rw [clear_clear, hsum]⟩

variable {t : ℤ} {l l₁ : Loop} {c c₁ c' : HttpContext} {b b₁ b' : β} {o : Outcome}

theorem again_cleared (hlive : Live l c) (hbody : BodyOfPost l c)
    (h : turn t l c b = .again l₁ c₁ b₁) :
    Live l₁ c₁ ∧ BodyOfPost l₁ c₁ ∧ ClearedWithin b b₁ := by
  cases l with
  | outer =>
    have hcases := outerTurn_of_turn (hlive.resolve_left (by simp)) h
    cases hcases with
    | requestLine hs hp hno hgood =>
      refine ⟨Or.inr (by simp), fun hcon => ?_, clearedWithin_line hp⟩
      rcases hcon with hcon | hcon
      · cases hcon
      · cases hcon
    | field hs hp hno hname =>
      refine ⟨Or.inr (by simp [hs]), fun hcon => ?_, clearedWithin_line hp⟩
      simp [hs] at hcon
    | endOfHead hs hp hno hcolon hget =>
      exact ⟨Or.inr (by simp), fun _ => hget, clearedWithin_line hp⟩
    | rightLength hs hstoi hn =>
      exact ⟨Or.inl rfl, fun _ => hbody (Or.inr hs), clearedWithin_refl b⟩
  | body =>
    have hcases := bodyTurn_of_turn h
    cases hcases with
    | @pair name value rest hp hassign hand hvalue =>
      refine ⟨Or.inl rfl, fun _ => hbody (Or.inl rfl), ?_⟩
      have hsplit : name ++ byte '=' :: value ++ byte '&' :: rest =
          (name ++ byte '=' :: value ++ [byte '&']) ++ rest := by simp
      exact clearedWithin_prefix (hp.trans hsplit) (by simp; omega)

theorem finished_cleared (hlive : Live l c) (hbody : BodyOfPost l c)
    (h : turn t l c b = .finished o c₁ b₁) :
    BodyOfPost .outer c₁ ∧ (ClearedWithin b b₁ ∨
      ClearedPast b b₁ ∧ c₁.state = .ALLOK ∧ c₁.request.method ≠ .GET) := by
  cases l with
  | outer =>
    have hcases := outerTurn_of_turn (hlive.resolve_left (by simp)) h
    cases hcases with
    | wait hs hnone => exact ⟨hbody, Or.inl (clearedWithin_refl b)⟩
    | badLine hs hp hno hbad =>
      refine ⟨fun hcon => ?_, Or.inl (clearedWithin_refl b)⟩
      simp [hs] at hcon
    | endOfGet hs hp hno hcolon hget =>
      refine ⟨fun hcon => ?_, Or.inl (clearedWithin_line hp)⟩
      simp at hcon
    | threw hs hstoi => exact ⟨hbody, Or.inl (clearedWithin_refl b)⟩
    | wrongLength hs hstoi hn => exact ⟨hbody, Or.inl (clearedWithin_refl b)⟩
  | body =>
    have hcases := bodyTurn_of_turn h
    cases hcases with
    | fails ho => exact ⟨fun _ => hbody (Or.inl rfl), Or.inl (clearedWithin_refl b)⟩
    | last hp hassign hand hvalue =>
      refine ⟨fun _ => hbody (Or.inl rfl), Or.inr ⟨⟨?_, rfl⟩, rfl, hbody (Or.inl rfl)⟩⟩
      rw [getEOL, hp, List.length_append, List.length_cons]
      omega

/-- Up to the end of the run only unread bytes are cleared, but for the end of a body. -/
theorem Parses.cleared (h : Parses t l c b o c' b') (hlive : Live l c) (hbody : BodyOfPost l c) :
    BodyOfPost .outer c' ∧ (ClearedWithin b b' ∨
      ClearedPast b b' ∧ c'.state = .ALLOK ∧ c'.request.method ≠ .GET) := by
  induction h with
  | finish hturn => exact finished_cleared hlive hbody hturn
  | again hturn tail ih =>
    obtain ⟨hlive₁, hbody₁, hclear⟩ := again_cleared hlive hbody hturn
    obtain ⟨hend, hrest⟩ := ih hlive₁ hbody₁
    exact ⟨hend, hrest.imp hclear.trans fun hpast => ⟨hclear.past hpast.1, hpast.2⟩⟩

end HydrogenWeb.HttpContext

namespace HydrogenWeb.HttpServer
open TransitionRuns HttpContext ByteBuffer
open HyBuffer (Represents Op)

theorem onMessage_payload {β : Type} [ByteBuffer β] (callback : HttpCallback) (c : HttpContext)
    (b : β) (t : ℤ) :
    (onMessage callback c b t).map (fun r => (r.1, r.2.1, payload r.2.2)) =
      onMessage callback c (payload b) t := by
  rw [onMessage, onMessage, ← parseRequest_payload]
  rcases c.parseRequest t b with _ | ⟨o, c', b'⟩
  · rfl
  · cases o with
    | returned correct =>
      simp only [Option.map_some]
      cases c'.allOk with
      | true => rfl
      | false => rfl
    | threw e => rfl
    | badRange => rfl

/-- `readFd` and then the message callback. -/
def Session.deliver (s : Session HyBuffer) (chunk : Chunk) : Option (Session HyBuffer) :=
  (s.inputBuffer.readFd (.delivered chunk.data)).bind fun (_, b) => s.message b chunk

def Session.view {β : Type} [ByteBuffer β] (s : Session β) : HttpContext × List UInt8 × List Call :=
  (s.context, payload s.inputBuffer, s.calls)

/-- The kernel has room for the chunk, in the vector and on the stack. -/
def Fits (s : Session HyBuffer) (chunk : Chunk) (_ : Option (Session HyBuffer)) : Prop :=
  Op.HasRoom s.inputBuffer (.readFd (.delivered chunk.data))

def OnlyGets (_ : Session (List UInt8)) (_ : Chunk) (o : Option (Session (List UInt8))) : Prop :=
  ∀ t, o = some t → ∀ request ∈ callbacks t.calls, request.method = .GET

instance (t : Session (List UInt8)) (chunk : Chunk) (o : Option (Session (List UInt8))) :
    Decidable (OnlyGets t chunk o) :=
  inferInstanceAs (Decidable (∀ t ∈ o, ∀ request ∈ callbacks t.calls, request.method = .GET))

structure Linked (s : Session HyBuffer) (t : Session (List UInt8)) : Prop where
  context : s.context = t.context
  calls : s.calls = t.calls
  buffer : Represents s.inputBuffer t.inputBuffer
  live : t.context.state ≠ .ALLOK
  body : BodyOfPost .outer t.context

theorem fresh_linked : Linked (Session.fresh HyBuffer.fresh) (Session.fresh []) where
  context := rfl
  calls := rfl
  buffer := HyBuffer.fresh_represents
  live := HttpContext.fresh_live
  body := by
    intro h
    rcases h with h | h
    · cases h
    · cases h

theorem Linked.view_eq {s : Session HyBuffer} {t : Session (List UInt8)} (h : Linked s t) :
    s.view = t.view := by
  rw [Session.view, Session.view, h.context, h.calls]
  show (t.context, s.inputBuffer.unread, t.calls) = (t.context, t.inputBuffer, t.calls)
  rw [h.buffer.contents]

/-- Clearing what is unread keeps the indices in order. -/
theorem represents_cleared {b b' : HyBuffer} {q : List UInt8} (h : Represents b q)
    (hclear : ClearedWithin b b') : Represents b' (payload b') := by
  obtain ⟨k, hk, rfl⟩ := hclear
  have hallowed : k ≤ b.readableBytes := by
    rw [h.readableBytes_eq, ← h.unread_length]
    exact hk
  obtain ⟨hcall, -⟩ := HyBuffer.call_spec h (.clear k) hallowed
  obtain ⟨b', hb', hrep⟩ := hcall trivial
  obtain rfl := Option.some.inj hb'
  exact ⟨hrep.ordered, hrep.bounded, hrep.area, rfl⟩

theorem onMessage_cleared {β : Type} [ByteBuffer β] {callback : HttpCallback} {c c₂ : HttpContext}
    {b b₂ : β} {t : ℤ} {calls : List Call} (hlive : c.state ≠ .ALLOK) (hbody : BodyOfPost .outer c)
    (h : onMessage callback c b t = some (calls, c₂, b₂)) :
    BodyOfPost .outer c₂ ∧ c₂.state ≠ .ALLOK ∧
      (ClearedWithin b b₂ ∨
        ClearedPast b b₂ ∧ ∃ request ∈ callbacks calls, request.method ≠ .GET) := by
  obtain ⟨o, c', b', hrun⟩ := parseRequest_total t b hlive
  obtain ⟨hend, hclear⟩ := hrun.cleared (Or.inr hlive) hbody
  by_cases hok : c'.state = .ALLOK
  · rw [onMessage_of_allOk hlive hrun hok] at h
    cases h
    refine ⟨fun hcon => ?_, by simp [HttpContext.reset], ?_⟩
    · simp [HttpContext.reset] at hcon
    · refine hclear.imp_right fun hpost => ⟨hpost.1, c'.request, ?_, hpost.2.2⟩
      rw [callbacks_processRequest]
      exact List.mem_singleton_self _
  · cases o with
    | returned correct =>
      rw [onMessage_of_waiting hlive hrun hok] at h
      cases h
      exact ⟨hend, hok, Or.inl (hclear.resolve_right fun hpost => hok hpost.2.1)⟩
    | threw e =>
      rw [onMessage_of_failure hlive hrun (by simp)] at h
      cases h
    | badRange =>
      rw [onMessage_of_failure hlive hrun (by simp)] at h
      cases h

variable {s : Session HyBuffer} {t : Session (List UInt8)}

theorem delivered_chunk (h : Linked s t) (chunk : Chunk)
    (hfits : Op.HasRoom s.inputBuffer (.readFd (.delivered chunk.data)))
    (hgets : ∀ t', t.receive chunk = some t' → ∀ request ∈ callbacks t'.calls, request.method = .GET) :
    (s.deliver chunk).map Session.view = (t.receive chunk).map Session.view ∧
      ∀ s' t', s.deliver chunk = some s' → t.receive chunk = some t' → Linked s' t' ∧
        ∃ n b, s.inputBuffer.readFd (.delivered chunk.data) = some (n, b) ∧
          ClearedWithin b s'.inputBuffer := by
  obtain ⟨b, hread, hb⟩ := (HyBuffer.readFd_spec h.buffer chunk.data).1 hfits
  have hdeliver : s.deliver chunk = (onMessage chunk.callback t.context b chunk.receiveTime).map
      fun r => ⟨r.2.1, r.2.2, t.calls ++ r.1⟩ := by
    rw [Session.deliver, hread, ← h.context, ← h.calls]
    rfl
  have hreceive : t.receive chunk = ((onMessage chunk.callback t.context b chunk.receiveTime).map
      fun r => (r.1, r.2.1, payload r.2.2)).map
        fun r => ⟨r.2.1, r.2.2, t.calls ++ r.1⟩ := by
    have hbytes : payload b = t.inputBuffer ++ chunk.data := hb.contents
    rw [onMessage_payload, hbytes]
    rfl
  rw [hdeliver, hreceive]
  rw [hreceive] at hgets
  cases hrun : onMessage chunk.callback t.context b chunk.receiveTime with
  | none =>
    refine ⟨rfl, fun s' t' hs' => ?_⟩
    cases hs'
  | some r =>
    obtain ⟨calls, context, b'⟩ := r
    refine ⟨rfl, fun s' t' hs' ht' => ?_⟩
    obtain ⟨hbody, hlive, hclear⟩ := onMessage_cleared h.live h.body hrun
    rw [hrun] at hgets
    have hcleared : ClearedWithin b b' := by
      refine hclear.resolve_right ?_
      rintro ⟨-, request, hmem, hpost⟩
      refine hpost (hgets _ rfl request ?_)
      rw [callbacks_append]
      exact List.mem_append_right _ hmem
    cases hs'
    cases ht'
    exact ⟨⟨rfl, rfl, represents_cleared hb hcleared, hlive, hbody⟩, _, b, hread, hcleared⟩

/-- The two runs end alike, with the same view, in the steps that fit. -/
theorem linked_run (h : Linked s t) (chunks : List Chunk) (hfits : Along Session.deliver Fits s chunks)
    (hgets : Along Session.receive OnlyGets t chunks) :
    (run Session.deliver s chunks).map Session.view = (run Session.receive t chunks).map Session.view := by
  induction chunks generalizing s t with
  | nil =>
    rw [run_nil, run_nil, Option.map_some, Option.map_some, h.view_eq]
  | cons chunk chunks ih =>
    obtain ⟨hview, hlinked⟩ := delivered_chunk h chunk hfits.1 hgets.1
    rw [run_cons, run_cons]
    cases hs : s.deliver chunk with
    | none =>
      rw [hs, Option.map_none, eq_comm, Option.map_eq_none_iff] at hview
      rw [hview]
      rfl
    | some s' =>
      rw [hs, Option.map_some, eq_comm, Option.map_eq_some_iff] at hview
      obtain ⟨t', ht', -⟩ := hview
      rw [ht', Option.bind_some, Option.bind_some]
      exact ih (hlinked s' t' hs ht').1 (hfits.2 s' hs) (hgets.2 t' ht')

/-- A vector of the initial size that has taken `n` bytes so far. -/
structure Filled (b : HyBuffer) (n : ℕ) : Prop where
  size : b.buffer.length = HyBuffer.PREPENDABLEBYTES + HyBuffer.INITIALSIZE
  written : b.writerIndex = HyBuffer.PREPENDABLEBYTES + n

theorem Filled.hasRoom {b : HyBuffer} {n : ℕ} {q : List UInt8} (h : Filled b n) (hb : Represents b q)
    {data : List UInt8} (hdata : n + data.length ≤ HyBuffer.INITIALSIZE) :
    Op.HasRoom b (.readFd (.delivered data)) := by
  have hsize := h.size
  have hwritten := h.written
  have hordered := hb.ordered
  have hshort : data.length ≤ b.buffer.length - b.readerIndex := by omega
  rw [Op.HasRoom, if_pos hshort]
  omega

theorem Filled.readFd {b b₁ : HyBuffer} {n : ℕ} {q : List UInt8} {m : ℤ} (h : Filled b n)
    (hb : Represents b q) {data : List UInt8} (hdata : n + data.length ≤ HyBuffer.INITIALSIZE)
    (hread : b.readFd (.delivered data) = some (m, b₁)) : Filled b₁ (n + data.length) := by
  have hsize := h.size
  have hwritten := h.written
  have hordered := hb.ordered
  have hwritable : data.length ≤ b.writableBytes := by
    rw [hb.writableBytes_eq]
    omega
  have hinside : b.writerIndex + data.length ≤ b.buffer.length := by omega
  rw [HyBuffer.readFd, List.take_of_length_le hwritable, HyBuffer.store_some hinside] at hread
  simp only [Option.bind_eq_bind, Option.bind_some, if_pos hwritable] at hread
  cases hread
  constructor
  · simp only [List.length_append, List.length_take, List.length_drop]
    omega
  · dsimp only
    omega

theorem Filled.cleared {b b' : HyBuffer} {n : ℕ} (h : Filled b n) (hclear : ClearedWithin b b') :
    Filled b' n := by
  obtain ⟨k, -, rfl⟩ := hclear
  exact ⟨h.size, h.written⟩

theorem fits_of_short (h : Linked s t) {n : ℕ} (hfilled : Filled s.inputBuffer n)
    (chunks : List Chunk)
    (hshort : n + (chunks.flatMap Chunk.data).length ≤ HyBuffer.INITIALSIZE)
    (hgets : Along Session.receive OnlyGets t chunks) : Along Session.deliver Fits s chunks := by
  induction chunks generalizing s t n with
  | nil => trivial
  | cons chunk chunks ih =>
    rw [List.flatMap_cons, List.length_append] at hshort
    have hfits : Op.HasRoom s.inputBuffer (.readFd (.delivered chunk.data)) :=
      hfilled.hasRoom h.buffer (by omega)
    refine ⟨hfits, fun s' hs' => ?_⟩
    obtain ⟨hview, hlinked⟩ := delivered_chunk h chunk hfits hgets.1
    rw [hs', Option.map_some, eq_comm, Option.map_eq_some_iff] at hview
    obtain ⟨t', ht', -⟩ := hview
    obtain ⟨hnext, m, b, hread, hclear⟩ := hlinked s' t' hs' ht'
    have hfilled' := (hfilled.readFd h.buffer (by omega) hread).cleared hclear
    exact ih hnext hfilled' (by omega) (hgets.2 t' ht')

/-- On a fresh connection, for every list of chunks of which only GET requests are completed, the
session on the buffer of the code ends as the one on an ideal queue does, with the same parser,
unread bytes and calls: where every read has room, and so where the chunks are no longer than the
initial size altogether. -/
theorem deliver_refines_receive (chunks : List Chunk)
    (hgets : Along Session.receive OnlyGets (Session.fresh []) chunks) :
    (Along Session.deliver Fits (Session.fresh HyBuffer.fresh) chunks →
      (run Session.deliver (Session.fresh HyBuffer.fresh) chunks).map Session.view =
        (run Session.receive (Session.fresh []) chunks).map Session.view) ∧
    ((chunks.flatMap Chunk.data).length ≤ HyBuffer.INITIALSIZE →
      (run Session.deliver (Session.fresh HyBuffer.fresh) chunks).map Session.view =
        (run Session.receive (Session.fresh []) chunks).map Session.view) := by
  refine ⟨fun hfits => linked_run fresh_linked chunks hfits hgets, fun hshort => ?_⟩
  have hfilled : Filled (Session.fresh HyBuffer.fresh).inputBuffer 0 :=
    ⟨List.length_replicate, rfl⟩
  have hfits := fits_of_short fresh_linked hfilled chunks (by rwa [Nat.zero_add]) hgets
  exact linked_run fresh_linked chunks hfits hgets

/-- A request in two chunks, with the begin of the next one. -/
theorem deliver_refines_receive_of_cut :
    let chunks := [Chunk.text "GET / HT", Chunk.text "TP/1.1\r\n\r\nGET"]
    (run Session.deliver (Session.fresh HyBuffer.fresh) chunks).map Session.view =
      (run Session.receive (Session.fresh []) chunks).map Session.view :=
  (deliver_refines_receive [Chunk.text "GET / HT", Chunk.text "TP/1.1\r\n\r\nGET"]
    (by decide +kernel)).2 (by decide)

end HydrogenWeb.HttpServer
