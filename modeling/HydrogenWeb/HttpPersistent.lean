import HydrogenWeb.HttpPost
import HydrogenWeb.HttpResume
import HydrogenWeb.HyBufferQueue

set_option autoImplicit false

/-!
# Requests on a persistent connection

Here the input buffer is the one of the code, filled by `readFd`. A GET leaves it and the
context as a fresh connection has them; a body is cleared with one byte too many, which
puts the reader index behind the writer index.
-/
namespace HydrogenWeb.HttpServer
open TransitionRuns HttpContext ByteBuffer WireRequest

structure Delivery where
  request : WireRequest
  receiveTime : ℤ
  callback : HttpCallback

def Delivery.chunk (d : Delivery) : Chunk := ⟨d.request.text, d.receiveTime, d.callback⟩

def answer (s : Session HyBuffer) (d : Delivery) : Option (Session HyBuffer) :=
  (s.inputBuffer.readFd (.delivered d.request.text)).bind fun (_, b) => s.message b d.chunk

/-- The callback gets the request that a fresh connection with an ideal queue would give it,
the indices are in order, and just the bytes of the request are gone. -/
def Independent (s : Session HyBuffer) (d : Delivery) : Option (Session HyBuffer) → Prop
  | none => False
  | some s' => ∃ request, callbacks s'.calls = callbacks s.calls ++ [request] ∧
      (∃ one, (Session.fresh []).receive d.chunk = some one ∧ callbacks one.calls = [request]) ∧
      s'.inputBuffer.readerIndex ≤ s'.inputBuffer.writerIndex ∧
      s.inputBuffer.unread ++ d.request.text = d.request.text ++ s'.inputBuffer.unread

/-- The two buffers that `readv` is given can take the request. -/
def Deliverable (s : Session HyBuffer) (d : Delivery) (_ : Option (Session HyBuffer)) : Prop :=
  HyBuffer.Op.Allowed s.inputBuffer (.readFd (.delivered d.request.text))

def GetWithRoom (s : Session HyBuffer) (d : Delivery) (_ : Option (Session HyBuffer)) : Prop :=
  d.request.isGet = true ∧ HyBuffer.Op.HasRoom s.inputBuffer (.readFd (.delivered d.request.text))

instance (s : Session HyBuffer) (d : Delivery) (o : Option (Session HyBuffer)) :
    Decidable (Deliverable s d o) := by
  unfold Deliverable
  infer_instance

instance (s : Session HyBuffer) (d : Delivery) (o : Option (Session HyBuffer)) :
    Decidable (GetWithRoom s d o) := by
  unfold GetWithRoom
  infer_instance

structure Idle (s : Session HyBuffer) : Prop where
  context : s.context = HttpContext.fresh
  buffer : HyBuffer.Represents s.inputBuffer []

variable {s : Session HyBuffer} {d : Delivery} {n : ℤ} {b : HyBuffer}

theorem answer_eq (hread : s.inputBuffer.readFd (.delivered d.request.text) = some (n, b)) :
    answer s d = (onMessage d.callback s.context b d.receiveTime).map fun (calls, context, b) =>
      ⟨context, b, s.calls ++ calls⟩ := by
  rw [answer, hread]
  rfl

theorem answer_get (h : Idle s) {head : RequestHead} (hget : head.method = .GET)
    (hd : d.request.text = head.text)
    (hread : s.inputBuffer.readFd (.delivered d.request.text) = some (n, b))
    (hb : HyBuffer.Represents b d.request.text) :
    ∃ s', answer s d = some s' ∧ Independent s d (some s') ∧ Idle s' := by
  have hpayload : payload b = head.text ++ [] := by
    show b.unread = _
    rw [hb.contents, hd, List.append_nil]
  have hone : ([] ++ d.request.text : List UInt8) = head.text ++ [] := by
    rw [hd, List.append_nil, List.nil_append]
  obtain ⟨hclear, -⟩ := HyBuffer.call_spec hb (.clear head.text.length) (by
    show head.text.length ≤ b.readableBytes
    rw [hb.readableBytes_eq, ← hb.unread_length, hb.contents, hd])
  obtain ⟨b', hb', hempty⟩ := hclear trivial
  obtain rfl := Option.some.inj hb'
  have hdrop : HyBuffer.Op.ideal d.request.text (.clear head.text.length) = [] := by
    show d.request.text.drop head.text.length = []
    rw [hd, List.drop_length]
  rw [hdrop] at hempty
  refine ⟨⟨HttpContext.fresh, b.clear head.text.length,
      s.calls ++ processRequest d.callback (head.request d.receiveTime HttpRequest.empty)⟩, ?_,
    ⟨head.request d.receiveTime HttpRequest.empty, ?_, ?_, hempty.ordered, ?_⟩, rfl, hempty⟩
  · rw [answer_eq hread, h.context, head.onMessage_get hget _ hpayload]
    rfl
  · rw [callbacks_append, callbacks_processRequest]
  · refine ⟨⟨HttpContext.fresh, clear ([] ++ d.request.text) head.text.length,
      processRequest d.callback (head.request d.receiveTime HttpRequest.empty)⟩, ?_, ?_⟩
    · show (onMessage d.callback HttpContext.fresh ([] ++ d.request.text) d.receiveTime).map _ = _
      rw [head.onMessage_get hget _ hone]
      rfl
    · rw [callbacks_processRequest]
  · rw [h.buffer.contents, hempty.contents, List.append_nil, List.nil_append]

/-- A POST leaves the reader index behind the writer index, or its length is not converted. -/
theorem answer_post (h : Idle s) {head : RequestHead} {p : FormPair} {pairs : List FormPair}
    (hpost : head.method = .POST)
    (hlength : ∀ f ∈ head.fields, f.isContentLength → f.Holds (formText p pairs).length)
    (hd : d.request.text = head.text ++ formText p pairs)
    (hread : s.inputBuffer.readFd (.delivered d.request.text) = some (n, b))
    (hb : HyBuffer.Represents b d.request.text) : ¬ Independent s d (answer s d) := by
  have hpayload : payload b = head.text ++ formText p pairs := by
    show b.unread = _
    rw [hb.contents, hd]
  have hlive : HttpContext.fresh.state ≠ .ALLOK := HttpContext.fresh_live
  rw [answer_eq hread, h.context]
  by_cases hgood : Spelled head ∧ (formText p pairs).length < 2 ^ 31
  · obtain ⟨c', hrun, hok⟩ := parses_complete_post (t := d.receiveTime) (c := HttpContext.fresh)
      hpost hlength hgood.1 hgood.2 (formText_form p pairs) rfl (by decide) hpayload
    rw [onMessage_of_allOk hlive hrun hok]
    rintro ⟨request, -, -, hordered, -⟩
    change b.readerIndex + ((head.text ++ formText p pairs).length + 1) ≤ b.writerIndex at hordered
    have hunread := hb.unread_length
    have hbounds := hb.ordered
    rw [hb.contents, hd] at hunread
    omega
  · obtain ⟨e, c', b', hrun⟩ := (parses_partial_post (t := d.receiveTime) (c := HttpContext.fresh)
      hpost hlength rfl (by decide) hpayload).2 hgood
    rw [onMessage_of_failure hlive hrun (by simp)]
    exact fun hcon => hcon

theorem answer_spec (h : Idle s) (d : Delivery) :
    (Independent s d (answer s d) ↔ GetWithRoom s d (answer s d)) ∧
      ∀ s', answer s d = some s' → Independent s d (some s') → Idle s' := by
  obtain ⟨hroom, hfull⟩ := HyBuffer.readFd_spec h.buffer d.request.text
  by_cases hhas : HyBuffer.Op.HasRoom s.inputBuffer (.readFd (.delivered d.request.text))
  · obtain ⟨b, hread, hb⟩ := hroom hhas
    rw [List.nil_append] at hb
    cases hrequest : d.request with
    | get head hget =>
      have hd : d.request.text = head.text := by
        simp [hrequest, WireRequest.text, WireRequest.head, WireRequest.body]
      obtain ⟨s', hs', hindependent, hidle⟩ := answer_get h hget hd hread hb
      rw [hs']
      refine ⟨iff_of_true hindependent ⟨by rw [hrequest]; rfl, hhas⟩, ?_⟩
      rintro s₂ hs₂ -
      cases hs₂
      exact hidle
    | post head hpost p pairs present correct =>
      have hd : d.request.text = head.text ++ formText p pairs := by
        simp [hrequest, WireRequest.text, WireRequest.head, WireRequest.body]
      have hnot := answer_post h hpost correct hd hread hb
      refine ⟨iff_of_false hnot ?_, fun s' hs' hcon => absurd (hs' ▸ hcon) hnot⟩
      rintro ⟨hget, -⟩
      rw [hrequest] at hget
      cases hget
  · have hnone : answer s d = none := by
      rw [answer, hfull hhas]
      rfl
    rw [hnone]
    exact ⟨iff_of_false (fun hcon => hcon) fun hcon => hhas hcon.2, fun s' hs' => (nomatch hs')⟩

/-- For every sequence of requests that the kernel can deliver in one chunk each: every
request is answered as the first one of a fresh connection if and only if all of them are
GET requests and the buffer has room for each. -/
theorem independent_iff_getWithRoom (requests : List Delivery)
    (hdeliver : Along answer Deliverable (Session.fresh HyBuffer.fresh) requests) :
    Along answer Independent (Session.fresh HyBuffer.fresh) requests ↔
      Along answer GetWithRoom (Session.fresh HyBuffer.fresh) requests := by
  refine along_iff Idle ?_ ?_ requests ⟨rfl, HyBuffer.fresh_represents⟩ hdeliver
  · intro s d h _
    exact (answer_spec h d).1
  · intro s d s' h _ hget hs'
    obtain ⟨hiff, hnext⟩ := answer_spec h d
    rw [hs'] at hiff hget
    exact hnext s' hs' (hiff.2 hget)

theorem independent_two_gets :
    Along answer Independent (Session.fresh HyBuffer.fresh)
      [⟨.get rootGet rfl, 1, fun _ r => r⟩, ⟨.get rootGet rfl, 2, fun _ r => r⟩] :=
  (independent_iff_getWithRoom _ (by decide +kernel)).2 (by decide +kernel)

/-- A POST and then a GET, whose first byte is lost: the callback runs once. -/
theorem post_then_get_not_independent :
    (run answer (Session.fresh HyBuffer.fresh)
        [⟨rootPost, 1, fun _ r => r⟩, ⟨.get rootGet rfl, 2, fun _ r => r⟩]).map
          (fun s => (callbacks s.calls).length) = some 1 ∧
      ¬ Along answer Independent (Session.fresh HyBuffer.fresh)
        [⟨rootPost, 1, fun _ r => r⟩, ⟨.get rootGet rfl, 2, fun _ r => r⟩] := by
  refine ⟨by decide +kernel, fun h => ?_⟩
  have hindices : (answer (Session.fresh HyBuffer.fresh) ⟨rootPost, 1, fun _ r => r⟩).map
      (fun s => decide (s.inputBuffer.readerIndex ≤ s.inputBuffer.writerIndex)) = some false := by
    decide +kernel
  obtain ⟨s, hs, hpast⟩ := Option.map_eq_some_iff.1 hindices
  have hfirst := along_cons.1 h
  clear h hindices
  rw [hs] at hfirst
  obtain ⟨⟨request, -, -, hordered, -⟩, -⟩ := hfirst
  exact of_decide_eq_false hpast hordered

end HydrogenWeb.HttpServer
