/-!
# UTF-8

Texts as bytes and back. `decode` accepts exactly well-formed UTF-8. For bytes that are not well
formed, `validLength` is the length of the longest part from the start that is, and
`endsInsideCharacter` tells whether more bytes could still complete the character that follows it.
-/

namespace ObjectSpace.Utf8

/-- The bytes of a text. -/
def encode (s : String) : Array UInt8 := s.toUTF8.data

/-- The text with the given bytes, if they are well formed. -/
def decode (bytes : Array UInt8) : Option String := String.fromUTF8? ⟨bytes⟩

/-- An inclusive range of bytes. -/
structure ByteRange where
  low : UInt8
  high : UInt8

/-- Whether a byte lies in a range. -/
def ByteRange.contains (r : ByteRange) (b : UInt8) : Bool := r.low ≤ b ∧ b ≤ r.high

/-- Any byte that continues a character. -/
def ByteRange.tail : ByteRange := ⟨0x80, 0xbf⟩

/-- The bytes that may follow the first byte of a character; none if no character starts so. -/
def followers? (b : UInt8) : Option (List ByteRange) :=
  if b ≤ 0x7f then some []
  else if 0xc2 ≤ b ∧ b ≤ 0xdf then some [.tail]
  else if b = 0xe0 then some [⟨0xa0, 0xbf⟩, .tail]
  else if b = 0xed then some [⟨0x80, 0x9f⟩, .tail]
  else if 0xe1 ≤ b ∧ b ≤ 0xef then some [.tail, .tail]
  else if b = 0xf0 then some [⟨0x90, 0xbf⟩, .tail, .tail]
  else if 0xf1 ≤ b ∧ b ≤ 0xf3 then some [.tail, .tail, .tail]
  else if b = 0xf4 then some [⟨0x80, 0x8f⟩, .tail, .tail]
  else none

/-- How a character goes on in the bytes that follow its first byte. -/
inductive Continuation where
  /-- The character ends and `rest` follows it. -/
  | complete (rest : List UInt8)
  /-- The bytes end before the character does. -/
  | cut
  /-- A byte cannot belong to the character. -/
  | broken

/-- Match bytes against the ranges that have to follow. -/
def continueWith : List ByteRange → List UInt8 → Continuation
  | [], rest => .complete rest
  | _ :: _, [] => .cut
  | r :: ranges, b :: rest => if r.contains b then continueWith ranges rest else .broken

theorem length_le_of_continueWith {ranges : List ByteRange} {bs rest : List UInt8}
    (h : continueWith ranges bs = .complete rest) : rest.length ≤ bs.length := by
  induction ranges generalizing bs with
  | nil =>
    simp only [continueWith, Continuation.complete.injEq] at h
    simp [h]
  | cons r ranges ih =>
    cases bs with
    | nil => simp [continueWith] at h
    | cons b bs =>
      simp only [continueWith] at h
      split at h
      · exact Nat.le_trans (ih h) (Nat.le_succ _)
      · simp at h

/-- How many bytes of well-formed characters stand at the start, after `done` earlier ones, and
whether the bytes then end inside a character. -/
def scan (done : Nat) (bs : List UInt8) : Nat × Bool :=
  match bs with
  | [] => (done, false)
  | b :: rest =>
    match followers? b with
    | none => (done, false)
    | some ranges =>
      match h : continueWith ranges rest with
      | .complete rest' => scan (done + 1 + ranges.length) rest'
      | .cut => (done, true)
      | .broken => (done, false)
termination_by bs.length
decreasing_by
  have := length_le_of_continueWith h
  simp only [List.length_cons]
  omega

/-- The length of the longest well-formed part from the start. -/
def validLength (bytes : Array UInt8) : Nat := (scan 0 bytes.toList).1

/-- Whether the bytes are well formed up to a last character that is cut off. -/
def endsInsideCharacter (bytes : Array UInt8) : Bool := (scan 0 bytes.toList).2

end ObjectSpace.Utf8
