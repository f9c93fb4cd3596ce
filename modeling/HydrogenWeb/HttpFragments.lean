import HydrogenWeb.HttpPost
import HydrogenWeb.HttpResume

set_option autoImplicit false

/-!
# One request in several chunks

The head of a request may be cut anywhere: the parser waits. Behind the head of a POST
request it decides from the bytes that are there, so the body must come with the end of
the head.
-/
namespace HydrogenWeb.HttpServer
open TransitionRuns HttpContext ByteBuffer RequestHead WireRequest

/-- No 400 response, one callback on the last chunk, and the request it would have been
given if the text had come in one chunk. -/
def LikeOneChunk (w : WireRequest) (chunks : List Chunk) : Prop :=
  ∃ init last s s', chunks = init ++ [last] ∧
    run Session.receive (Session.fresh []) init = some s ∧ s.receive last = some s' ∧
    .send badRequestText ∉ s'.calls ∧ callbacks s.calls = [] ∧
    ∃ request, callbacks s'.calls = [request] ∧
      ∀ t callback, ∃ one whole, (Session.fresh []).receive ⟨w.text, t, callback⟩ = some one ∧
        callbacks one.calls = [whole] ∧ request.setReceiveTime 0 = whole.setReceiveTime 0

/-- A length is announced under the exact name, and it is an `int`. -/
def Readable : WireRequest → Prop
  | .get _ _ => True
  | .post head _ p pairs _ _ => Spelled head ∧ (formText p pairs).length < 2 ^ 31

/-- A body comes whole, with the last byte of its head, and its length can be read. -/
def BodyInLastChunk (chunks : List Chunk) : WireRequest → Prop
  | .get _ _ => True
  | .post head _ p pairs _ _ => (Spelled head ∧ (formText p pairs).length < 2 ^ 31) ∧
      (chunks.dropLast.flatMap Chunk.data).length < head.text.length

/-- A response of the server is longer than the 400 text. -/
theorem badRequest_not_mem_processRequest (callback : HttpCallback) (request : HttpRequest) :
    .send badRequestText ∉ processRequest callback request := by
  have hlong : ∀ response : HttpResponse,
      badRequestText.length < (response.appendToBuffer []).length := by
    intro response
    have hstatus : 11 ≤ (HttpResponse.snprintf32
        ("HTTP/1.1 " ++ toString response.statusCode.value ++ " ")).length := by
      cases response.statusCode <;> decide
    have hclose : (bytes "Connection: close\r\n").length = 19 := by decide
    have hkeep : (bytes "Connection: keep-alive\r\n").length = 24 := by decide
    have hbad : badRequestText.length = 28 := by decide
    simp only [HttpResponse.appendToBuffer, List.length_append, CRLF, List.length_cons,
      List.length_nil, hbad]
    split <;> simp only [List.length_append, hclose, hkeep] <;> omega
  intro hmem
  simp only [processRequest, List.cons_append, List.nil_append, List.mem_cons] at hmem
  rcases hmem with hmem | hmem | hmem
  · cases hmem
  · have hlength := congrArg List.length (Call.send.inj hmem)
    exact absurd hlength (hlong _).ne
  · split at hmem
    · cases List.mem_singleton.1 hmem
    · cases hmem

theorem receive_calls {s s' : Session (List UInt8)} {chunk : Chunk}
    (h : s.receive chunk = some s') : s.calls <+: s'.calls := by
  rw [receive_eq, Option.map_eq_some_iff] at h
  obtain ⟨⟨calls, context, b⟩, -, rfl⟩ := h
  exact List.prefix_append _ _

theorem run_calls {s s' : Session (List UInt8)} {chunks : List Chunk}
    (h : run Session.receive s chunks = some s') : s.calls <+: s'.calls :=
  run_invariant (fun x => s.calls <+: x.calls) (fun _ _ _ hx hstep => hx.trans (receive_calls hstep))
    (List.prefix_refl _) h

/-- Chunks that stop short of the end of the head only make the parser wait. -/
theorem Fed.run_waits {head : RequestHead} {q : List UInt8} {s : Session (List UInt8)}
    (h : Fed q s) (init : List Chunk) (hp : q ++ init.flatMap Chunk.data <+: head.text)
    (hlt : (q ++ init.flatMap Chunk.data).length < head.text.length) :
    ∃ s', run Session.receive s init = some s' ∧ Fed (q ++ init.flatMap Chunk.data) s' ∧
      s'.calls = s.calls := by
  induction init generalizing q s with
  | nil => exact ⟨s, rfl, by simpa using h, rfl⟩
  | cons chunk init ih =>
    rw [List.flatMap_cons, ← List.append_assoc] at hp hlt ⊢
    have hshort : (q ++ chunk.data).length < head.text.length := by
      rw [List.length_append] at hlt
      omega
    obtain ⟨c, w, hrun, hwait⟩ := head.parses_prefix (t := 0) (c := HttpContext.fresh)
      (b := q ++ chunk.data) rfl ((List.prefix_append _ _).trans hp) hshort
    obtain ⟨s₁, hs₁, hfed, hcalls⟩ := h.receive_waits hrun hwait
    obtain ⟨s', hs', hfed', hcalls'⟩ := ih hfed hp hlt
    exact ⟨s', by rw [run_cons, hs₁]; exact hs', hfed', hcalls'.trans hcalls⟩

theorem exists_crossing {chunks : List Chunk} {n : ℕ} (hpos : 0 < n)
    (hn : n ≤ (chunks.flatMap Chunk.data).length) :
    ∃ before chunk after, chunks = before ++ chunk :: after ∧
      (before.flatMap Chunk.data).length < n ∧
      n ≤ (before.flatMap Chunk.data ++ chunk.data).length := by
  induction chunks generalizing n with
  | nil =>
    simp only [List.flatMap_nil, List.length_nil] at hn
    omega
  | cons chunk chunks ih =>
    rw [List.flatMap_cons, List.length_append] at hn
    by_cases hle : n ≤ chunk.data.length
    · exact ⟨[], chunk, chunks, rfl, by simpa using hpos, by simpa using hle⟩
    · obtain ⟨before, c, after, rfl, hlt, hge⟩ := ih (n := n - chunk.data.length) (by omega)
        (by omega)
      refine ⟨chunk :: before, c, after, rfl, ?_, ?_⟩
      · simp only [List.flatMap_cons, List.length_append]
        omega
      · simp only [List.flatMap_cons, List.length_append] at hge ⊢
        omega

theorem exists_last_chunk {w : WireRequest} {chunks : List Chunk}
    (hbytes : chunks.flatMap Chunk.data = w.text) : ∃ init last, chunks = init ++ [last] := by
  rcases List.eq_nil_or_concat chunks with rfl | ⟨init, last, rfl⟩
  · have hlength := congrArg List.length hbytes
    have hpos := w.head.length_text
    simp only [WireRequest.text, List.flatMap_nil, List.length_nil, List.length_append] at hlength
    omega
  · exact ⟨init, last, List.concat_eq_append⟩

theorem parses_whole {w : WireRequest} (hreadable : Readable w) :
    ∃ c rest, Parses 0 .outer HttpContext.fresh w.text (.returned true) c rest ∧
      c.state = .ALLOK := by
  cases w with
  | get head method =>
    exact ⟨_, _, head.parses_get (s := []) method rfl rfl, rfl⟩
  | post head method p pairs present correct =>
    obtain ⟨hspelled, hrange⟩ := hreadable
    obtain ⟨c, hrun, hok⟩ := parses_complete_post (t := 0) (c := HttpContext.fresh)
      (b := head.text ++ formText p pairs) method correct hspelled hrange (formText_form p pairs)
      rfl (by decide) rfl
    exact ⟨c, _, hrun, hok⟩

theorem likeOneChunk_of_short {w : WireRequest} {init : List Chunk} {last : Chunk}
    (hbytes : init.flatMap Chunk.data ++ last.data = w.text)
    (hshort : (init.flatMap Chunk.data).length < w.head.text.length) (hreadable : Readable w) :
    LikeOneChunk w (init ++ [last]) := by
  have hprefix : init.flatMap Chunk.data <+: w.head.text := by
    refine List.prefix_of_prefix_length_le ?_ (List.prefix_append w.head.text w.body) hshort.le
    exact ⟨last.data, hbytes⟩
  obtain ⟨s, hs, hfed, hcalls⟩ := (fed_start (q := []) (s := Session.fresh []) rfl rfl).run_waits
    init hprefix hshort
  obtain ⟨c, rest, hrun, hok⟩ := parses_whole hreadable
  rw [List.nil_append] at hfed
  obtain ⟨request, s', hs', hrequest, hcalls', -⟩ := hfed.receive_completes last
    (by rw [hbytes]; exact hrun) hok
  have hnone : s.calls = [] := hcalls
  refine ⟨init, last, s, s', rfl, hs, hs', ?_, by rw [hnone]; rfl, request, ?_, ?_⟩
  · rw [hcalls', hnone]
    exact badRequest_not_mem_processRequest _ _
  · rw [hcalls', hnone]
    simp
  · intro t callback
    obtain ⟨whole, one, hone, hwhole, hcallsOne, -⟩ :=
      (fed_start (q := []) (s := Session.fresh []) rfl rfl).receive_completes
        ⟨w.text, t, callback⟩ hrun hok
    refine ⟨one, whole, hone, ?_, hrequest.trans hwhole.symm⟩
    rw [hcallsOne, callbacks_append, callbacks_processRequest]
    rfl

/-- Behind the head of a POST request, a chunk that does not bring the whole readable body
is answered with 400 or ends in an exception. -/
theorem Fed.receive_partial {head : RequestHead} {body q d : List UInt8} {s : Session (List UInt8)}
    {chunk : Chunk} (h : Fed q s) (hpost : head.method = .POST)
    (hlength : ∀ f ∈ head.fields, f.isContentLength → f.Holds body.length)
    (heq : q ++ chunk.data = head.text ++ d)
    (hbad : ¬ (Spelled head ∧ body.length < 2 ^ 31) ∨ d.length < body.length) :
    s.receive chunk = none ∨
      ∃ s', s.receive chunk = some s' ∧ .send badRequestText ∈ s'.calls := by
  obtain ⟨hshort, hunread⟩ := parses_partial_post (t := 0) (c := HttpContext.fresh)
    (b := q ++ chunk.data) hpost hlength rfl (by decide) heq
  by_cases hgood : Spelled head ∧ body.length < 2 ^ 31
  · obtain ⟨c, w, hrun⟩ := hshort hgood (hbad.resolve_left (not_not.2 hgood))
    obtain ⟨s', hs', hcalls⟩ := h.receive_rejects hrun
    exact Or.inr ⟨s', hs', by rw [hcalls]; simp [badRequest]⟩
  · obtain ⟨e, c, w, hrun⟩ := hunread hgood
    exact Or.inl (h.receive_fails hrun)

/-- For every request and every way of cutting it into chunks: it is handled as in one
chunk if and only if it is a GET, or its body comes with the end of its head. -/
theorem likeOneChunk_iff (w : WireRequest) (chunks : List Chunk)
    (hne : ∀ chunk ∈ chunks, chunk.data ≠ []) (hbytes : chunks.flatMap Chunk.data = w.text) :
    LikeOneChunk w chunks ↔ BodyInLastChunk chunks w := by
  have hlastne : ∀ {init last}, chunks = init ++ [last] → 0 < last.data.length := by
    rintro init last rfl
    exact List.length_pos_of_ne_nil (hne last (by simp))
  cases w with
  | get head method =>
    refine iff_of_true ?_ trivial
    obtain ⟨init, last, rfl⟩ := exists_last_chunk hbytes
    have hlast := hlastne rfl
    rw [List.flatMap_append, List.flatMap_singleton] at hbytes
    refine likeOneChunk_of_short hbytes ?_ trivial
    have hlength := congrArg List.length hbytes
    simp only [WireRequest.text, WireRequest.body, List.length_append, List.length_nil] at hlength
    omega
  | post head method p pairs present correct =>
    constructor
    · rintro ⟨init, last, s, s', rfl, hrun, hreceive, hno, -⟩
      have hlast := hlastne rfl
      rw [List.flatMap_append, List.flatMap_singleton] at hbytes
      have hlength := congrArg List.length hbytes
      simp only [WireRequest.text, WireRequest.head, WireRequest.body,
        List.length_append] at hbytes hlength
      rw [BodyInLastChunk, List.dropLast_concat]
      by_cases hshort : (init.flatMap Chunk.data).length < head.text.length
      · -- only the last chunk reaches the end of the head
        refine ⟨?_, hshort⟩
        by_contra hunread
        have hprefix : init.flatMap Chunk.data <+: head.text :=
          List.prefix_of_prefix_length_le ⟨_, hbytes⟩ (List.prefix_append _ _) hshort.le
        obtain ⟨s₁, hs₁, hfed, -⟩ := (fed_start (q := []) (s := Session.fresh []) rfl rfl).run_waits
          init hprefix hshort
        rw [hrun] at hs₁
        cases hs₁
        rw [List.nil_append] at hfed
        rcases hfed.receive_partial method correct hbytes (Or.inl hunread) with hnone | ⟨s₂, hs₂, hbad⟩
        · rw [hnone] at hreceive
          cases hreceive
        · rw [hs₂] at hreceive
          cases hreceive
          exact hno hbad
      · exfalso
        have hpos := head.length_text
        obtain ⟨before, chunk, after, rfl, hlt, hge⟩ :=
          exists_crossing (by omega) (not_lt.1 hshort)
        simp only [List.flatMap_append, List.flatMap_cons, List.append_assoc] at hbytes hlength
        have hbefore : before.flatMap Chunk.data ++ chunk.data <+: head.text ++ formText p pairs :=
          ⟨after.flatMap Chunk.data ++ last.data, by rw [← hbytes]; simp⟩
        obtain ⟨d, hd⟩ := List.prefix_of_prefix_length_le (List.prefix_append _ _) hbefore hge
        have hprefix : before.flatMap Chunk.data <+: head.text :=
          List.prefix_of_prefix_length_le ((List.prefix_append _ _).trans hbefore)
            (List.prefix_append _ _) hlt.le
        obtain ⟨s₁, hs₁, hfed, -⟩ := (fed_start (q := []) (s := Session.fresh []) rfl rfl).run_waits
          before hprefix hlt
        rw [List.nil_append] at hfed
        rw [run_append, hs₁, Option.bind_some, run_cons] at hrun
        have hdlength := congrArg List.length hd
        simp only [List.length_append] at hdlength hlength
        rcases hfed.receive_partial method correct hd.symm (Or.inr (by omega)) with
          hnone | ⟨s₂, hs₂, hbad⟩
        · rw [hnone] at hrun
          cases hrun
        · rw [hs₂, Option.bind_some] at hrun
          exact hno ((receive_calls hreceive).subset ((run_calls hrun).subset hbad))
    · rintro ⟨hreadable, hshort⟩
      obtain ⟨init, last, rfl⟩ := exists_last_chunk hbytes
      rw [List.flatMap_append, List.flatMap_singleton] at hbytes
      rw [List.dropLast_concat] at hshort
      exact likeOneChunk_of_short hbytes hshort hreadable

theorem likeOneChunk_cut_head :
    LikeOneChunk rootPost
      [.text "POST / HT", .text "TP/1.1\r\nContent-Length: 3\r\n\r\na=1"] :=
  (likeOneChunk_iff rootPost _ (by decide) (by decide)).2
    ⟨⟨⟨lengthThree, by simp, rfl⟩, by decide⟩, by decide⟩

/-- The body comes right after the head, and the head alone is answered with 400. -/
theorem body_in_own_chunk_not_likeOneChunk :
    ([.text "POST / HTTP/1.1\r\nContent-Length: 3\r\n\r\n", .text "a=1"] : List Chunk).flatMap
        Chunk.data = rootPost.text ∧
      ¬ LikeOneChunk rootPost
        [.text "POST / HTTP/1.1\r\nContent-Length: 3\r\n\r\n", .text "a=1"] := by
  refine ⟨by decide, ?_⟩
  rintro ⟨init, last, s, s', heq, hrun, hreceive, hno, -⟩
  obtain ⟨rfl, -⟩ := List.append_inj' (show [_] ++ [_] = init ++ [last] from heq) rfl
  have hsent : ((run Session.receive (Session.fresh [])
      [.text "POST / HTTP/1.1\r\nContent-Length: 3\r\n\r\n"]).map fun s =>
        s.calls.map fun e => e.sends badRequestText) = some [true, false] := by
    decide +kernel
  rw [hrun, Option.map_some, Option.some.injEq, List.map_eq_cons_iff] at hsent
  obtain ⟨first, rest, hcalls, hfirst, -⟩ := hsent
  refine hno ((receive_calls hreceive).subset ?_)
  rw [hcalls]
  cases first with
  | send data =>
    obtain rfl := of_decide_eq_true hfirst
    exact List.mem_cons_self
  | shutdown => cases hfirst
  | httpCallback request => cases hfirst

end HydrogenWeb.HttpServer
