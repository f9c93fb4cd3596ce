import HydrogenWeb.TcpConnectionOutput

set_option autoImplicit false

/-!
# The input side of a connection

Runs of readable events with an arbitrary answer of `readv` to each. The count that
`readFd` returns is signed, and `connectionHandler` keeps it in a `size_t`.
-/
namespace HydrogenWeb.TcpConnection
open TransitionRuns

/-- A readable event: what `readv` did, with a count that fits into `ssize_t`, and what the
message callback leaves of the unread bytes if it runs. -/
structure Readable where
  result : ReadvResult
  counted : ∀ data, result = .delivered data → data.length < 2 ^ 63
  msgCallback : List UInt8 → List UInt8

def readable (c : TcpConnection) (e : Readable) : Option TcpConnection :=
  (c.connectionHandler e.result).map fun (c, effects) =>
    if .msgCallback ∈ effects then { c with inputBuffer := e.msgCallback c.inputBuffer } else c

/-- Each of the three outcomes goes to its own handler: data to the message callback, the end
of the stream to `closeHandler`, and an error to `errorHandler`, with the buffer as it was. -/
def Dispatched (c : TcpConnection) (e : Readable) (_ : Option TcpConnection) : Prop :=
  match e.result with
  | .delivered [] => c.connectionHandler e.result = c.closeHandler
  | .delivered (b :: data) => c.connectionHandler e.result =
      some ({ c with inputBuffer := c.inputBuffer ++ b :: data }, [.msgCallback])
  | .error => c.connectionHandler e.result = some c.errorHandler

theorem sizeOfSsize_of_count {n : ℕ} (h : n < 2 ^ 63) : sizeOfSsize (n : ℤ) = n := by
  rw [sizeOfSsize]
  omega

theorem connectionHandler_data (c : TcpConnection) {b : UInt8} {data : List UInt8}
    (h : (b :: data).length < 2 ^ 63) :
    c.connectionHandler (.delivered (b :: data)) =
      some ({ c with inputBuffer := c.inputBuffer ++ b :: data }, [.msgCallback]) := by
  have hpos : 0 < sizeOfSsize ((b :: data).length : ℤ) := by
    rw [sizeOfSsize_of_count h]
    exact Nat.succ_pos _
  simp only [connectionHandler, readFd]
  exact if_pos hpos

theorem connectionHandler_end (c : TcpConnection) :
    c.connectionHandler (.delivered []) = c.closeHandler := by
  have hsame : ({ c with inputBuffer := c.inputBuffer ++ [] } : TcpConnection) = c := by
    rw [List.append_nil]
  simp only [connectionHandler, readFd, hsame]
  rfl

/-- The error is taken for a message of `2 ^ 64 - 1` bytes. -/
theorem connectionHandler_error (c : TcpConnection) :
    c.connectionHandler .error = some (c, [.msgCallback]) := by
  have hpos : 0 < sizeOfSsize (-1) := by decide
  simp only [connectionHandler, readFd]
  exact if_pos hpos

theorem dispatched_of_event_iff (c : TcpConnection) (e : Readable) (o : Option TcpConnection) :
    Dispatched c e o ↔ e.result ≠ .error := by
  unfold Dispatched
  cases hresult : e.result with
  | error =>
    apply iff_of_false
    · rw [connectionHandler_error, errorHandler]
      simp
    · exact fun hcon => hcon rfl
  | delivered data =>
    refine iff_of_true ?_ (fun hcon => nomatch hcon)
    cases data with
    | nil => exact connectionHandler_end c
    | cons b data => exact connectionHandler_data c (e.counted _ hresult)

/-- Along every run, each event is dispatched faithfully exactly if no `readv` reports an
error. -/
theorem dispatched_iff_no_error (c : TcpConnection) (events : List Readable) :
    Along readable Dispatched c events ↔
      Along readable (fun _ e _ => e.result ≠ .error) c events := by
  refine along_iff (fun _ => True) ?_ (fun _ _ _ _ _ _ _ => trivial) events trivial
    (along_true _ _ _)
  intro c e _ _
  exact dispatched_of_event_iff c e _

/-- `readv` fails once, for example with EAGAIN: the message callback runs without data. -/
theorem failed_readv_not_dispatched :
    ¬ Along readable Dispatched (established "a" 5) [⟨.error, (fun _ h => nomatch h), id⟩] := by
  rintro ⟨h, -⟩
  exact (dispatched_of_event_iff _ _ _).1 h rfl

end HydrogenWeb.TcpConnection
