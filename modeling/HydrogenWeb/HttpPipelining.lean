import HydrogenWeb.HttpResume
import HydrogenWeb.HttpWire

set_option autoImplicit false

/-!
# Several requests in one chunk

`onMessage` parses at most one request, so the others of a chunk stay in the buffer. The
requests whose bytes have all come are answered in time exactly if no chunk brings the
ends of two.
-/
namespace HydrogenWeb.HttpServer
open TransitionRuns HttpContext ByteBuffer RequestHead

def streamOf (heads : List RequestHead) : List UInt8 := heads.flatMap text

/-- How many requests end within the first `n` bytes of the stream. -/
def completed : List RequestHead → ℕ → ℕ
  | [], _ => 0
  | h :: heads, n => if h.text.length ≤ n then completed heads (n - h.text.length) + 1 else 0

abbrev Received : Type := Session (List UInt8) × List UInt8

def deliver (x : Received) (chunk : Chunk) : Option Received :=
  (x.1.receive chunk).map fun s => (s, x.2 ++ chunk.data)

/-- The callback was invoked, in order, for exactly the requests received in full. -/
def Served (heads : List RequestHead) (_ : Received) (_ : Chunk) : Option Received → Prop
  | none => False
  | some (s, received) =>
    (callbacks s.calls).map (fun r => r.setReceiveTime 0) =
      (heads.take (completed heads received.length)).map fun h => h.request 0 HttpRequest.empty

/-- The chunk holds the last byte of at most one request. -/
def OneEnd (heads : List RequestHead) (x : Received) (chunk : Chunk) (_ : Option Received) : Prop :=
  completed heads (x.2 ++ chunk.data).length ≤ completed heads x.2.length + 1

def InStream (heads : List RequestHead) (x : Received) (chunk : Chunk) (_ : Option Received) :
    Prop :=
  x.2 ++ chunk.data <+: streamOf heads

theorem completed_le (heads : List RequestHead) (n : ℕ) : completed heads n ≤ heads.length := by
  induction heads generalizing n with
  | nil => exact le_refl _
  | cons h heads ih =>
    rw [completed]
    split
    · exact Nat.succ_le_succ (ih _)
    · exact Nat.zero_le _

theorem completed_zero (heads : List RequestHead) : completed heads 0 = 0 := by
  cases heads with
  | nil => rfl
  | cons h heads =>
    have hpos := h.length_text
    rw [completed, if_neg (by omega)]

theorem completed_append (done rest : List RequestHead) (q : List UInt8) :
    completed (done ++ rest) (streamOf done ++ q).length = done.length + completed rest q.length := by
  induction done with
  | nil => simp [streamOf]
  | cons h done ih =>
    have hlen : (streamOf (h :: done) ++ q).length - h.text.length =
        (streamOf done ++ q).length := by
      simp only [streamOf, List.flatMap_cons, List.length_append]
      omega
    have hle : h.text.length ≤ (streamOf (h :: done) ++ q).length := by
      simp only [streamOf, List.flatMap_cons, List.length_append]
      omega
    rw [List.cons_append, completed, if_pos hle, hlen, ih, List.length_cons]
    omega

/-- The requests in `done` are answered, and `q` is the beginning of the next one. -/
structure Position (heads : List RequestHead) (x : Received) (done rest : List RequestHead)
    (q : List UInt8) : Prop where
  split : heads = done ++ rest
  bytes : x.2 = streamOf done ++ q
  fed : Fed q x.1
  partly : completed rest q.length = 0
  served : (callbacks x.1.calls).map (fun r => r.setReceiveTime 0) =
    done.map fun h => h.request 0 HttpRequest.empty

theorem Position.completed_eq {heads done rest : List RequestHead} {x : Received} {q : List UInt8}
    (h : Position heads x done rest q) : completed heads x.2.length = done.length := by
  rw [h.split, h.bytes, completed_append, h.partly, Nat.add_zero]

theorem Position.waits {heads done rest : List RequestHead} {x : Received} {q w : List UInt8}
    {chunk : Chunk} {c : HttpContext} (h : Position heads x done rest q)
    (hrun : Parses 0 .outer HttpContext.fresh (q ++ chunk.data) (.returned true) c w)
    (hwait : c.state ≠ .ALLOK) (hpartly : completed rest (q ++ chunk.data).length = 0) :
    ∃ y, deliver x chunk = some y ∧ Position heads y done rest (q ++ chunk.data) := by
  obtain ⟨s, hs, hfed, hcalls⟩ := h.fed.receive_waits hrun hwait
  refine ⟨(s, x.2 ++ chunk.data), by rw [deliver, hs]; rfl, h.split, ?_, hfed, hpartly, ?_⟩
  · rw [h.bytes, List.append_assoc]
  · rw [hcalls]
    exact h.served

/-- The chunk ends the next request, and `w` is what it holds behind that end. -/
theorem Position.completes {heads done rest : List RequestHead} {x : Received} {q w : List UInt8}
    {chunk : Chunk} {head : RequestHead} (h : Position heads x done (head :: rest) q)
    (hget : head.method = .GET) (heq : q ++ chunk.data = head.text ++ w) :
    ∃ y, deliver x chunk = some y ∧ y.2 = streamOf (done ++ [head]) ++ w ∧ Fed w y.1 ∧
      (callbacks y.1.calls).map (fun r => r.setReceiveTime 0) =
        (done ++ [head]).map fun h => h.request 0 HttpRequest.empty := by
  have hrun := head.parses_get (t := 0) (c := HttpContext.fresh) hget rfl
    (b := q ++ chunk.data) heq
  have hrest : clear (q ++ chunk.data) head.text.length = w := by
    rw [heq]
    exact List.drop_left
  rw [hrest] at hrun
  obtain ⟨request, s, hs, hrequest, hcalls, hfed⟩ :=
    h.fed.receive_completes _ hrun rfl
  refine ⟨(s, x.2 ++ chunk.data), by rw [deliver, hs]; rfl, ?_, hfed (head.request_bodys _ _), ?_⟩
  · have hstream : streamOf (done ++ [head]) = streamOf done ++ head.text := by
      simp [streamOf]
    rw [hstream, List.append_assoc, ← heq, h.bytes, List.append_assoc]
  · rw [hcalls, callbacks_append, callbacks_processRequest, List.map_append, h.served,
      List.map_append, List.map_singleton, hrequest]
    rfl

theorem Position.stream {heads done rest : List RequestHead} {x : Received} {q : List UInt8}
    {chunk : Chunk} (h : Position heads x done rest q) (hin : x.2 ++ chunk.data <+: streamOf heads) :
    q ++ chunk.data <+: streamOf rest := by
  have hsplit : streamOf (done ++ rest) = streamOf done ++ streamOf rest := by
    simp [streamOf]
  rw [h.split, h.bytes, hsplit, List.append_assoc] at hin
  exact (List.prefix_append_right_inj _).1 hin

theorem deliver_spec {heads done rest : List RequestHead} {x : Received} {q : List UInt8}
    (hget : ∀ h ∈ heads, h.method = .GET) (h : Position heads x done rest q) (chunk : Chunk)
    (hin : InStream heads x chunk (deliver x chunk)) :
    (Served heads x chunk (deliver x chunk) ↔ OneEnd heads x chunk (deliver x chunk)) ∧
      (OneEnd heads x chunk (deliver x chunk) →
        ∃ y done rest q, deliver x chunk = some y ∧ Position heads y done rest q) := by
  have hstream := h.stream hin
  have hwaits : ∀ {w c}, Parses 0 .outer HttpContext.fresh (q ++ chunk.data) (.returned true) c w →
      c.state ≠ .ALLOK → completed rest (q ++ chunk.data).length = 0 →
      (Served heads x chunk (deliver x chunk) ↔ OneEnd heads x chunk (deliver x chunk)) ∧
        (OneEnd heads x chunk (deliver x chunk) →
          ∃ y done rest q, deliver x chunk = some y ∧ Position heads y done rest q) := by
    intro w c hrun hwait hpartly
    obtain ⟨y, hy, hnext⟩ := h.waits hrun hwait hpartly
    have hreceived : y.2 = x.2 ++ chunk.data := by
      rw [hnext.bytes, h.bytes, List.append_assoc]
    rw [hy]
    refine ⟨iff_of_true ?_ ?_, fun _ => ⟨y, done, rest, _, rfl, hnext⟩⟩
    · show _ = (heads.take (completed heads y.2.length)).map _
      rw [hnext.completed_eq, hnext.served, h.split, List.take_left]
    · rw [OneEnd, ← hreceived, hnext.completed_eq, h.completed_eq]
      exact Nat.le_succ _
  cases rest with
  | nil =>
    have hnil : q ++ chunk.data = [] := List.prefix_nil.1 hstream
    refine hwaits (w := []) (c := HttpContext.fresh) ?_ HttpContext.fresh_live rfl
    rw [hnil]
    exact waits_in_line [] (Or.inl rfl) List.not_mem_nil (List.nil_prefix)
  | cons head rest =>
    have hhead : streamOf (head :: rest) = head.text ++ streamOf rest := rfl
    rw [hhead] at hstream
    by_cases hlen : (q ++ chunk.data).length < head.text.length
    · have hshort : q ++ chunk.data <+: head.text :=
        List.prefix_of_prefix_length_le hstream (List.prefix_append _ _) hlen.le
      obtain ⟨c, w, hrun, hwait⟩ := head.parses_prefix (t := 0) (c := HttpContext.fresh)
        (b := q ++ chunk.data) rfl hshort hlen
      exact hwaits hrun hwait (by rw [completed, if_neg (by omega)])
    · obtain ⟨w, heq⟩ : ∃ w, q ++ chunk.data = head.text ++ w := by
        obtain ⟨w, hw⟩ := List.prefix_of_prefix_length_le (List.prefix_append _ _) hstream
          (not_lt.1 hlen)
        exact ⟨w, hw.symm⟩
      have hmem : head ∈ heads := by
        rw [h.split]
        simp
      obtain ⟨y, hy, hbytes, hfed, hserved⟩ := h.completes (hget head hmem) heq
      have hsplit : heads = (done ++ [head]) ++ rest := by
        rw [h.split]
        simp
      have hcount : completed heads y.2.length = done.length + 1 + completed rest w.length := by
        rw [hsplit, hbytes, completed_append, List.length_append, List.length_singleton]
      have hreceived : y.2 = x.2 ++ chunk.data := by
        obtain ⟨s, -, hs⟩ := Option.map_eq_some_iff.1 hy
        rw [← hs]
      have hone : OneEnd heads x chunk (deliver x chunk) ↔ completed rest w.length = 0 := by
        rw [OneEnd, ← hreceived, hcount, h.completed_eq]
        omega
      rw [hy] at hone ⊢
      refine ⟨?_, fun hend => ⟨y, done ++ [head], rest, w, rfl, hsplit, hbytes, hfed,
        hone.1 hend, hserved⟩⟩
      rw [hone]
      show _ = (heads.take (completed heads y.2.length)).map _ ↔ _
      rw [hserved, hcount]
      constructor
      · intro hsame
        have hle := completed_le heads y.2.length
        have hlength := congrArg List.length hsame
        rw [hcount] at hle
        simp only [List.length_map, List.length_append, List.length_singleton,
          List.length_take] at hlength
        omega
      · intro hzero
        rw [hzero, hsplit]
        exact congrArg _ (List.take_left' (by simp)).symm

instance (heads : List RequestHead) (x : Received) (chunk : Chunk) (o : Option Received) :
    Decidable (OneEnd heads x chunk o) := inferInstanceAs (Decidable (_ ≤ _))

/-- For every stream of GET requests and every way of cutting it: after every chunk the
callback was invoked for exactly the requests received so far if and only if no chunk
holds the ends of two. -/
theorem served_iff_oneEnd (heads : List RequestHead) (chunks : List Chunk)
    (hget : ∀ h ∈ heads, h.method = .GET)
    (hstream : chunks.flatMap Chunk.data <+: streamOf heads) :
    Along deliver (Served heads) (Session.fresh [], []) chunks ↔
      Along deliver (OneEnd heads) (Session.fresh [], []) chunks := by
  have hin : ∀ (chunks : List Chunk) (x : Received),
      x.2 ++ chunks.flatMap Chunk.data <+: streamOf heads →
        Along deliver (InStream heads) x chunks := by
    intro chunks
    induction chunks with
    | nil => exact fun _ _ => trivial
    | cons chunk chunks ih =>
      intro x hx
      rw [List.flatMap_cons, ← List.append_assoc] at hx
      refine ⟨(List.prefix_append _ _).trans hx, fun y hy => ih y ?_⟩
      obtain ⟨s, -, rfl⟩ := Option.map_eq_some_iff.1 hy
      exact hx
  have hstart : Position heads (Session.fresh [], []) [] heads [] :=
    ⟨rfl, rfl, fed_start rfl rfl, completed_zero heads, rfl⟩
  refine along_iff (fun x => ∃ done rest q, Position heads x done rest q) ?_ ?_ chunks
    ⟨[], heads, [], hstart⟩ (hin chunks _ hstream)
  · rintro x chunk ⟨done, rest, q, h⟩ hx
    exact (deliver_spec hget h chunk hx).1
  · rintro x chunk y ⟨done, rest, q, h⟩ hx hone hy
    obtain ⟨z, done, rest, q, hz, hnext⟩ := (deliver_spec hget h chunk hx).2 hone
    rw [hy] at hz
    cases hz
    exact ⟨done, rest, q, hnext⟩

theorem served_cut_requests :
    Along deliver (Served [rootGet, rootGet]) (Session.fresh [], [])
      [.text "GET / HT", .text "TP/1.1\r\n\r\nGET /", .text " HTTP/1.1\r\n\r\n"] :=
  (served_iff_oneEnd _ _ (by decide) (by decide +kernel)).2 (by decide +kernel)

/-- Two requests in one chunk: the second one is left waiting. -/
theorem two_in_a_chunk_not_served :
    ¬ Along deliver (Served [rootGet, rootGet]) (Session.fresh [], [])
      [.text "GET / HTTP/1.1\r\n\r\nGET / HTTP/1.1\r\n\r\n"] := by
  intro h
  have hserved := h.1
  have hone : (deliver (Session.fresh [], [])
      (.text "GET / HTTP/1.1\r\n\r\nGET / HTTP/1.1\r\n\r\n")).map (fun y =>
        ((callbacks y.1.calls).length, completed [rootGet, rootGet] y.2.length)) = some (1, 2) := by
    decide +kernel
  obtain ⟨y, hy, hcount⟩ := Option.map_eq_some_iff.1 hone
  rw [hy] at hserved
  obtain ⟨hcalls, hends⟩ := Prod.mk.inj hcount
  have hlength := congrArg List.length hserved
  simp [hcalls, hends] at hlength

end HydrogenWeb.HttpServer
