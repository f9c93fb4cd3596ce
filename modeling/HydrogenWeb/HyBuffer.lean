import HydrogenWeb.TransitionRuns

set_option autoImplicit false

/-!
# HyBuffer

The read/write buffer as the code keeps it: a vector and two indices. A byte is a
`UInt8`. Sums of sizes stay exact, since a byte string fits into the address space;
the subtractions of `size_t` wrap. `none` is a store outside the vector or a failed
assertion.
-/
namespace HydrogenWeb

/-- The bytes of an ASCII text. -/
def bytes (s : String) : List UInt8 := s.toList.map Char.toUInt8

/-- `a - b` on `size_t`. -/
def sizeSub (a b : ℕ) : ℕ := if b ≤ a then a - b else 2 ^ 64 + a - b

theorem sizeSub_of_le {a b : ℕ} (h : b ≤ a) : sizeSub a b = a - b := if_pos h

structure HyBuffer where
  buffer : List UInt8
  readerIndex : ℕ
  writerIndex : ℕ
deriving DecidableEq

inductive ReadvResult where
  | error
  | delivered (data : List UInt8)
deriving DecidableEq

namespace HyBuffer

def PREPENDABLEBYTES : ℕ := 8
def INITIALSIZE : ℕ := 1024
def TEMPSIZE : ℕ := 65536

def fresh : HyBuffer :=
  ⟨List.replicate (PREPENDABLEBYTES + INITIALSIZE) 0, PREPENDABLEBYTES, PREPENDABLEBYTES⟩

def prependableBytes (b : HyBuffer) : ℕ := b.readerIndex
def readableBytes (b : HyBuffer) : ℕ := sizeSub b.writerIndex b.readerIndex
def writableBytes (b : HyBuffer) : ℕ := sizeSub b.buffer.length b.readerIndex

/-- The bytes from `payload()` up to the writer index. -/
def unread (b : HyBuffer) : List UInt8 := (b.buffer.take b.writerIndex).drop b.readerIndex

def clear (b : HyBuffer) (length : ℕ) : HyBuffer :=
  { b with readerIndex := b.readerIndex + length }

def clearAll (b : HyBuffer) : HyBuffer :=
  { b with readerIndex := PREPENDABLEBYTES, writerIndex := PREPENDABLEBYTES }

def readAsString (b : HyBuffer) : List UInt8 × HyBuffer := (b.unread, b.clearAll)

/-- `std::copy` of `data` to `begin() + pos`, or the same store made by `readv`. -/
def store (v : List UInt8) (pos : ℕ) (data : List UInt8) : Option (List UInt8) :=
  if pos + data.length ≤ v.length then
    some (v.take pos ++ data ++ v.drop (pos + data.length))
  else none

def resize (v : List UInt8) (n : ℕ) : List UInt8 := v.take n ++ List.replicate (n - v.length) 0

def reserve (b : HyBuffer) (length : ℕ) : Option HyBuffer :=
  if b.writableBytes < length then
    if b.writableBytes + b.prependableBytes < length + PREPENDABLEBYTES then
      some { b with buffer := resize b.buffer (b.writerIndex + length) }
    else do
      let readable := b.readableBytes
      let moved ← store b.buffer PREPENDABLEBYTES b.unread
      some ⟨moved, PREPENDABLEBYTES, PREPENDABLEBYTES + readable⟩
  else some b

def append (b : HyBuffer) (data : List UInt8) : Option HyBuffer := do
  let b ← b.reserve data.length
  let stored ← store b.buffer b.writerIndex data
  some { b with buffer := stored, writerIndex := b.writerIndex + data.length }

def prepend (b : HyBuffer) (data : List UInt8) : Option HyBuffer :=
  if data.length ≤ b.prependableBytes then do
    let readerIndex := b.readerIndex - data.length
    let stored ← store b.buffer readerIndex data
    some { b with buffer := stored, readerIndex }
  else none

/-- The kernel fills `vec[0]`, the vector from the writer index on, with the first
`writable` bytes and `vec[1]`, the buffer on the stack, with the others. -/
def readFd (b : HyBuffer) : ReadvResult → Option (ℤ × HyBuffer)
  | .error => some (-1, b)
  | .delivered data => do
    let writable := b.writableBytes
    let n := data.length
    let stored ← store b.buffer b.writerIndex (data.take writable)
    if n ≤ writable then
      some (n, { b with buffer := stored, writerIndex := b.writerIndex + n })
    else
      let b ← append { b with buffer := stored, writerIndex := stored.length } (data.drop writable)
      some (n, b)

theorem store_some {v data : List UInt8} {pos : ℕ} (h : pos + data.length ≤ v.length) :
    store v pos data = some (v.take pos ++ data ++ v.drop (pos + data.length)) := if_pos h

theorem store_none {v data : List UInt8} {pos : ℕ} (h : v.length < pos + data.length) :
    store v pos data = none := if_neg (by omega)

/-- A store replaces as many bytes as it has. -/
theorem store_append (l r : List UInt8) {old data : List UInt8} (h : old.length = data.length) :
    store (l ++ old ++ r) l.length data = some (l ++ data ++ r) := by
  have hlen : l.length + data.length = (l ++ old).length := by rw [List.length_append, h]
  have hinside := (List.prefix_append (l ++ old) r).length_le
  rw [store_some (by omega), hlen, List.drop_left, List.append_assoc l old, List.take_left]

def begun (data v : List UInt8) : List UInt8 := data ++ v.drop data.length

theorem store_begun {l data v : List UInt8} (h : l.length + data.length ≤ v.length) :
    store (begun l v) l.length data = some (begun (l ++ data) v) := by
  have hold : ((v.drop l.length).take data.length).length = data.length := by
    rw [List.length_take, List.length_drop]
    omega
  have hsplit : begun l v = l ++ (v.drop l.length).take data.length ++ v.drop (l ++ data).length := by
    rw [begun, List.append_assoc, List.length_append, ← List.drop_drop, List.take_append_drop]
  rw [hsplit, store_append l _ hold]
  rfl

theorem resize_length {v : List UInt8} {n : ℕ} (h : v.length ≤ n) : (resize v n).length = n := by
  simp only [resize, List.length_append, List.length_take, List.length_replicate]
  omega

theorem resize_take {v : List UInt8} {n k : ℕ} (hk : k ≤ v.length) (h : v.length ≤ n) :
    (resize v n).take k = v.take k := by
  rw [resize, List.take_of_length_le h, List.take_append_of_le_length hk]

end HyBuffer
end HydrogenWeb
