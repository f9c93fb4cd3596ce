import HydrogenWeb.HttpResume
import HydrogenWeb.TraceMarks

set_option autoImplicit false

/-!
# After the server has given up

A failed parse leaves the context and the unread bytes as they are, and `onMessage` does
not look at the state of the connection, so a later chunk may still complete a request.
-/
namespace HydrogenWeb.HttpServer
open TransitionRuns TraceMarks HttpContext

/-- No HTTP callback after a call of `shutdown`. -/
def GivenUp (_ : Session (List UInt8)) (_ : Chunk) : Option (Session (List UInt8)) → Prop
  | none => True
  | some s => NoneAfter .shutdown (fun e : Call => e.isCallback = true) s.calls

/-- Once `shutdown` was called, the chunk does not complete a request. -/
def NothingCompleted (s : Session (List UInt8)) (chunk : Chunk)
    (_ : Option (Session (List UInt8))) : Prop :=
  .shutdown ∈ s.calls → ¬ CompletesFrom s.context (s.inputBuffer ++ chunk.data)

structure Serving (s : Session (List UInt8)) : Prop where
  live : s.context.state ≠ .ALLOK
  quiet : NoneAfter .shutdown (fun e : Call => e.isCallback = true) s.calls

theorem quiet_badRequest (correct : Bool) :
    NoneAfter .shutdown (fun e : Call => e.isCallback = true)
      (if correct then [] else badRequest) := by
  cases correct with
  | true => exact noneAfter_of_not_mem List.not_mem_nil
  | false =>
    intro pre post heq e he hcallback
    have hmem : e ∈ badRequest := by
      rw [if_neg (by simp)] at heq
      rw [heq]
      simp [he]
    rcases List.mem_cons.1 hmem with rfl | hmem
    · cases hcallback
    · rw [List.mem_singleton.1 hmem] at hcallback
      cases hcallback

theorem no_callback_badRequest (correct : Bool) :
    ∀ e ∈ (if correct then [] else badRequest), ¬ Call.isCallback e = true := by
  intro e he
  cases correct with
  | true => simp at he
  | false =>
    simp only [badRequest, Bool.false_eq_true, if_false, List.mem_cons, List.not_mem_nil,
      or_false] at he
    rcases he with rfl | rfl <;> simp [Call.isCallback]

/-- The callback comes before the `shutdown` of its own response. -/
theorem quiet_processRequest (callback : HttpCallback) (request : HttpRequest) :
    NoneAfter .shutdown (fun e : Call => e.isCallback = true)
      (processRequest callback request) := by
  obtain ⟨response, nonPersistent, hcalls⟩ := processRequest_eq callback request
  intro pre post heq e he hcallback
  rw [hcalls] at heq
  cases pre with
  | nil => cases heq
  | cons x pre =>
    have htail : e ∈ Call.send response :: if nonPersistent then [Call.shutdown] else [] := by
      rw [List.cons_append, List.cons.injEq] at heq
      rw [heq.2]
      simp [he]
    rcases List.mem_cons.1 htail with rfl | hshut
    · cases hcallback
    · split at hshut
      · rw [List.mem_singleton.1 hshut] at hcallback
        cases hcallback
      · cases hshut

theorem receive_spec {s : Session (List UInt8)} (h : Serving s) (chunk : Chunk) :
    (GivenUp s chunk (s.receive chunk) ↔ NothingCompleted s chunk (s.receive chunk)) ∧
      ∀ s', s.receive chunk = some s' → GivenUp s chunk (some s') → Serving s' := by
  rw [receive_eq]
  rcases onMessage_cases chunk.callback chunk.receiveTime (s.inputBuffer ++ chunk.data) h.live with
    ⟨hcompletes, request, context, b, heq, hstate⟩ |
    ⟨hnot, correct, context, b, heq, hstate⟩ | ⟨hnot, heq⟩
  · rw [heq]
    refine ⟨?_, fun s' hs' hkept => ?_⟩
    · simp only [Option.map_some, GivenUp, NothingCompleted, noneAfter_append]
      constructor
      · rintro ⟨-, -, hcross⟩ hshut
        exact absurd rfl (hcross hshut (.httpCallback request) (by simp [processRequest]))
      · intro hno
        refine ⟨h.quiet, quiet_processRequest _ _, fun hshut => ?_⟩
        exact absurd hcompletes (hno hshut)
    · cases hs'
      exact ⟨by rw [hstate]; simp, hkept⟩
  · rw [heq]
    refine ⟨?_, fun s' hs' hkept => ?_⟩
    · simp only [Option.map_some, GivenUp, NothingCompleted, noneAfter_append]
      refine ⟨fun _ _ => hnot, fun _ => ⟨h.quiet, quiet_badRequest correct, fun _ => ?_⟩⟩
      exact no_callback_badRequest correct
    · cases hs'
      exact ⟨hstate, hkept⟩
  · rw [heq]
    exact ⟨⟨fun _ _ => hnot, fun _ => trivial⟩, fun s' hs' => (nomatch hs')⟩

/-- On every connection and for all chunks: the callback stays away after giving up exactly
if, from then on, no chunk completes a request. -/
theorem givenUp_iff_nothingCompleted (chunks : List Chunk) :
    Along Session.receive GivenUp (Session.fresh []) chunks ↔
      Along Session.receive NothingCompleted (Session.fresh []) chunks := by
  have hfresh : Serving (Session.fresh []) :=
    ⟨by simp [Session.fresh, HttpContext.fresh], noneAfter_of_not_mem List.not_mem_nil⟩
  refine along_iff Serving ?_ ?_ chunks hfresh (along_true _ _ _)
  · intro s chunk h _
    exact (receive_spec h chunk).1
  · intro s chunk s' h _ hno hs'
    obtain ⟨hiff, hnext⟩ := receive_spec h chunk
    rw [hs'] at hiff
    rw [hs'] at hno
    exact hnext s' hs' (hiff.2 hno)

/-- A body one byte short is answered with 400; the byte that comes later completes it. -/
theorem late_byte_not_givenUp :
    ¬ Along Session.receive GivenUp (Session.fresh [])
      [.text "POST / HTTP/1.1\r\nContent-Length: 3\r\n\r\na=", .text "1"] := by
  intro h
  have hcalls : ((run Session.receive (Session.fresh [])
      [.text "POST / HTTP/1.1\r\nContent-Length: 3\r\n\r\na=", .text "1"]).map fun s =>
        s.calls.map fun e => (e.isShutdown, e.isCallback)) =
      some [(false, false), (true, false), (false, true), (false, false)] := by
    decide +kernel
  obtain ⟨s, hrun, hmap⟩ := Option.map_eq_some_iff.1 hcalls
  obtain ⟨u, hquiet⟩ := Along.final (l := [_]) h hrun
  change NoneAfter _ _ s.calls at hquiet
  generalize s.calls = calls at hmap hquiet
  obtain ⟨first, tail, rfl, -, hmap⟩ := List.map_eq_cons_iff.1 hmap
  obtain ⟨second, tail, rfl, hsecond, hmap⟩ := List.map_eq_cons_iff.1 hmap
  obtain ⟨third, tail, rfl, hthird, -⟩ := List.map_eq_cons_iff.1 hmap
  have hshut : second = .shutdown := by
    cases second <;> simp_all [Call.isShutdown]
  subst hshut
  exact hquiet [first] (third :: tail) rfl third List.mem_cons_self (congrArg Prod.snd hthird)

end HydrogenWeb.HttpServer
