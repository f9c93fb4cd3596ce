import HydrogenWeb.HttpGrammar
import HydrogenWeb.HttpServer

set_option autoImplicit false

/-!
# What one message leads to

`onMessage` in terms of the run of the parser: the three ways it can go on, and the calls
that belong to each.
-/
namespace HydrogenWeb.HttpServer
open HttpContext ByteBuffer

def Call.isCallback : Call → Bool
  | .httpCallback _ => true
  | _ => false

def Call.isShutdown : Call → Bool
  | .shutdown => true
  | _ => false

def Call.sends (text : List UInt8) : Call → Bool
  | .send data => data = text
  | _ => false

def callbacks (calls : List Call) : List HttpRequest :=
  calls.filterMap fun
    | .httpCallback request => some request
    | _ => none

@[simp] theorem callbacks_append (xs ys : List Call) :
    callbacks (xs ++ ys) = callbacks xs ++ callbacks ys := List.filterMap_append

theorem processRequest_eq (callback : HttpCallback) (request : HttpRequest) :
    ∃ (response : List UInt8) (nonPersistent : Bool), processRequest callback request =
      .httpCallback request :: .send response :: if nonPersistent then [.shutdown] else [] :=
  ⟨_, _, rfl⟩

@[simp] theorem callbacks_processRequest (callback : HttpCallback) (request : HttpRequest) :
    callbacks (processRequest callback request) = [request] := by
  unfold processRequest
  dsimp only
  split <;> rfl

def Chunk.text (s : String) : Chunk := ⟨bytes s, 0, fun _ response => response⟩

variable {β : Type} [ByteBuffer β] {callback : HttpCallback} {t : ℤ} {c c' : HttpContext} {b b' : β}
  {o : Outcome}

theorem onMessage_of_allOk (hs : c.state ≠ .ALLOK) (h : Parses t .outer c b o c' b')
    (hok : c'.state = .ALLOK) :
    onMessage callback c b t = some (processRequest callback c'.request, c'.reset, b') := by
  obtain rfl := returned_of_allOk h hs hok
  rw [onMessage, (parseRequest_iff hs).2 h]
  simp [allOk, hok]

theorem onMessage_of_waiting {correct : Bool} (hs : c.state ≠ .ALLOK)
    (h : Parses t .outer c b (.returned correct) c' b') (hok : c'.state ≠ .ALLOK) :
    onMessage callback c b t = some (if correct then [] else badRequest, c', b') := by
  rw [onMessage, (parseRequest_iff hs).2 h]
  simp [allOk, hok]

theorem onMessage_of_failure (hs : c.state ≠ .ALLOK) (h : Parses t .outer c b o c' b')
    (ho : ∀ correct, o ≠ .returned correct) : onMessage callback c b t = none := by
  rw [onMessage, (parseRequest_iff hs).2 h]
  cases o with
  | returned correct => exact absurd rfl (ho correct)
  | threw e => rfl
  | badRange => rfl

theorem onMessage_cases (callback : HttpCallback) (t : ℤ) (b : β) (hs : c.state ≠ .ALLOK) :
    (CompletesFrom c (payload b) ∧ ∃ request context b',
      onMessage callback c b t = some (processRequest callback request, context, b') ∧
        context.state = .EXPECTREQUESTLINE) ∨
    (¬ CompletesFrom c (payload b) ∧ ∃ (correct : Bool) (context : HttpContext) (b' : β),
      onMessage callback c b t = some (if correct then [] else badRequest, context, b') ∧
        context.state ≠ .ALLOK) ∨
    (¬ CompletesFrom c (payload b) ∧ onMessage callback c b t = none) := by
  obtain ⟨o, c', b', hrun⟩ := parseRequest_total t b hs
  by_cases hok : c'.state = .ALLOK
  · exact Or.inl ⟨(completes_iff t b hs).2 ⟨o, c', b', hrun, hok⟩, c'.request, c'.reset, b',
      onMessage_of_allOk hs hrun hok, rfl⟩
  · have hnot : ¬ CompletesFrom c (payload b) := by
      intro hcompletes
      obtain ⟨o₂, c₂, b₂, hrun₂, hok₂⟩ := (completes_iff t b hs).1 hcompletes
      obtain ⟨-, rfl, -⟩ := hrun.unique hrun₂
      exact hok hok₂
    cases o with
    | returned correct =>
      exact Or.inr (Or.inl ⟨hnot, correct, c', b', onMessage_of_waiting hs hrun hok, hok⟩)
    | threw e => exact Or.inr (Or.inr ⟨hnot, onMessage_of_failure hs hrun (by simp)⟩)
    | badRange => exact Or.inr (Or.inr ⟨hnot, onMessage_of_failure hs hrun (by simp)⟩)

end HydrogenWeb.HttpServer
