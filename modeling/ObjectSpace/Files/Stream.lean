import ObjectSpace.Files.Disk
import ObjectSpace.Text.Utf8

/-!
# Buffered streams

A reader fetches a file in pieces of 64 KiB and hands out bytes from the piece; when the piece is
used up, a request for at least as much goes straight to the file. A read up to a limit is a row of
such requests, each for the room that is free in a store which doubles, so that it depends on the
earlier reads which bytes of the file stay behind in the piece. A writer gathers bytes in a buffer
of 64 KiB: data that does not fit into the free space empties the buffer first, and data of at
least the size of the buffer then goes straight to the file.

A bounded read of text takes up to three more bytes when it would otherwise end inside a character.
-/

namespace ObjectSpace

/-- The size of a stream's buffer. -/
def bufferSize : Nat := 65536

theorem bufferSize_pos : 0 < bufferSize := by decide

/-- A file open for reading. Bytes of `buffer` before `used` have been handed out; `position` is
where the next piece starts. -/
structure Reader where
  place : Place
  position : Nat := 0
  buffer : Array UInt8 := #[]
  used : Nat := 0

/-- A file open for writing, at an offset of its own or always at the end. -/
structure Writer where
  place : Place
  offset : Option Nat
  buffer : Array UInt8 := #[]

/-- What a file value can still do. -/
inductive Stream where
  | reader (r : Reader)
  | writer (w : Writer)
  | closed

namespace Reader

/-- Fetch the next piece of the file. -/
def refill (r : Reader) (content : Array UInt8) : Reader :=
  let piece := content.extract r.position (r.position + bufferSize)
  { r with position := r.position + piece.size, buffer := piece, used := 0 }

/-- Hand out up to `n` bytes of the piece. -/
def handOut (r : Reader) (n : Nat) : Array UInt8 × Reader :=
  let bytes := r.buffer.extract r.used (r.used + n)
  (bytes, { r with used := r.used + bytes.size })

/-- Hand out up to `n` bytes from the file itself, past a piece that is used up. -/
def handOutDirectly (r : Reader) (content : Array UInt8) (n : Nat) : Array UInt8 × Reader :=
  let bytes := content.extract r.position (r.position + n)
  (bytes, { r with position := r.position + bytes.size, buffer := #[], used := 0 })

/-- Hand out up to `n` bytes, those that one request yields: fewer where the piece ends, and for a
positive `n` none only at the end of the file. -/
def request (r : Reader) (content : Array UInt8) (n : Nat) : Array UInt8 × Reader :=
  if n = 0 ∨ r.used < r.buffer.size then r.handOut n
  else if bufferSize ≤ n then r.handOutDirectly content n
  else (r.refill content).handOut n

theorem size_request_le (r : Reader) (content : Array UInt8) (n : Nat) :
    (r.request content n).1.size ≤ n := by
  simp only [request, handOut, handOutDirectly]
  split
  · simp only [Array.size_extract]; omega
  · split <;> simp only [Array.size_extract] <;> omega

/-- The least room for a request. -/
def leastRoom : Nat := 32

/-- The size of a store for the bytes of a read, `filled` of which are there: with less than the
least room it at least doubles. -/
def roomySize (size filled : Nat) : Nat :=
  if size - filled < leastRoom then max (2 * size) (filled + leastRoom) else size

/-- Add up to `n` bytes to those already `taken` into a store of a certain `size`, in requests for
its free room; fewer only at the end of the file. -/
def takeMore (r : Reader) (content : Array UInt8) (taken : Array UInt8) (size n : Nat) :
    Array UInt8 × Reader :=
  let size := roomySize size taken.size
  match _h : r.request content (min n (size - taken.size)) with
  | (bytes, r') =>
    if bytes.size = 0 then (taken, r')
    else r'.takeMore content (taken ++ bytes) size (n - bytes.size)
termination_by n
decreasing_by
  have := size_request_le r content (min n (size - taken.size))
  simp only [_h] at this
  omega

/-- Hand out up to `n` bytes; fewer only at the end of the file. The first request is for the least
room, and the store begins with what it yields. -/
def take (r : Reader) (content : Array UInt8) (n : Nat) : Array UInt8 × Reader :=
  let (bytes, r) := r.request content (min n leastRoom)
  r.takeMore content bytes bytes.size (n - bytes.size)

/-- Hand out all that is left. -/
def takeAll (r : Reader) (content : Array UInt8) : Array UInt8 × Reader :=
  (r.buffer.extract r.used r.buffer.size ++ content.extract r.position content.size,
    { r with position := max r.position content.size, buffer := #[], used := 0 })

/-- Add up to `n` single bytes to `bytes` as long as they end inside a character. -/
def finishCharacter (r : Reader) (content : Array UInt8) (bytes : Array UInt8) :
    Nat → Array UInt8 × Reader
  | 0 => (bytes, r)
  | n + 1 =>
    if Utf8.endsInsideCharacter bytes then
      let (byte, r) := r.request content 1
      if byte.isEmpty then (bytes, r) else r.finishCharacter content (bytes ++ byte) n
    else (bytes, r)

/-- Read up to a limit, or to the end without one. With `text`, whole characters are read. -/
def read (r : Reader) (content : Array UInt8) (limit : Option Nat) (text : Bool) :
    Array UInt8 × Reader :=
  match limit with
  | none => r.takeAll content
  | some n =>
    let (bytes, r) := r.take content n
    if text then r.finishCharacter content bytes 3 else (bytes, r)

end Reader

namespace Writer

/-- Bytes that go to the file at once. -/
def writeThrough (w : Writer) (d : Disk) (data : Array UInt8) : Writer × Disk :=
  ({ w with offset := w.offset.map (· + data.size) }, d.write w.place w.offset data)

/-- Bring the buffered bytes to the file. -/
def flush (w : Writer) (d : Disk) : Writer × Disk :=
  if w.buffer.isEmpty then (w, d)
  else
    let (w, d) := w.writeThrough d w.buffer
    ({ w with buffer := #[] }, d)

/-- Accept bytes, through the buffer where they fit. -/
def write (w : Writer) (d : Disk) (data : Array UInt8) : Writer × Disk :=
  let (w, d) := if bufferSize - w.buffer.size < data.size then w.flush d else (w, d)
  if bufferSize ≤ data.size then w.writeThrough d data
  else ({ w with buffer := w.buffer ++ data }, d)

end Writer

end ObjectSpace
