import Scriptlet.Text.Slice
import Scriptlet.Token.Stream

/-!
A lexer that holds its whole source and stands at an offset in it. The text of a token is a
part of the source, and a token whose text is not one cannot be read. What is read is what a
cursor reads, so none is ever missing.
-/

namespace Scriptlet

structure Scanner where
  source : String
  position : Nat
  readPosition : Nat
  /-- The byte at the position, NUL at the end of the source. -/
  byte : UInt8
  ended : Bool
deriving DecidableEq

namespace Scanner

def size (s : Scanner) : Nat := (Text.bytes s.source).length

def byteAt (s : Scanner) (offset : Nat) : UInt8 :=
  (Text.bytes s.source)[offset]?.getD 0

/-- Moves on by a byte. At the end both offsets stay where they are. -/
def readByte (s : Scanner) : Scanner :=
  { s with
    position := min s.readPosition s.size
    readPosition := min (s.readPosition + 1) (s.size + 1)
    byte := s.byteAt s.readPosition }

def ofSource (source : String) : Scanner :=
  readByte ⟨source, 0, 0, 0, false⟩

def peekByte (s : Scanner) : UInt8 := s.byteAt s.readPosition

def readBytes (s : Scanner) : Nat → Scanner
  | 0 => s
  | n + 1 => s.readByte.readBytes n

def ahead (s : Scanner) : Nat :=
  s.size + 1 - s.readPosition + if isBlank s.byte then 1 else 0

theorem readByte_ahead_lt {s : Scanner} (blank : isBlank s.byte) : s.readByte.ahead < s.ahead := by
  have size : s.readByte.size = s.size := rfl
  have moved : s.readByte.readPosition = min (s.readPosition + 1) (s.size + 1) := rfl
  rw [ahead, ahead, size, moved, if_pos blank]
  by_cases inside : s.readPosition ≤ s.size
  · split <;> omega
  · have none : (Text.bytes s.source)[s.readPosition]? = none :=
      List.getElem?_eq_none (Nat.le_of_not_le inside)
    have nul : s.readByte.byte = 0 := by simp [readByte, byteAt, none]
    rw [nul, if_neg (by decide)]
    omega

def skipBlanks (s : Scanner) : Scanner :=
  if isBlank s.byte then s.readByte.skipBlanks else s
termination_by s.ahead
decreasing_by exact readByte_ahead_lt ‹_›

def remainder? (s : Scanner) : Option (List UInt8) :=
  if s.position ≤ s.size then some ((Text.bytes s.source).drop s.position) else none

def readRun? (s : Scanner) (p : UInt8 → Bool) : Option (String × Span × Scanner) :=
  s.remainder?.bind fun rest =>
    let length := (rest.takeWhile p).length
    let stop := s.position + length
    (Text.slice? s.source s.position stop).map fun literal =>
      (literal, .ofOffsets s.position stop, s.readBytes length)

def single (s : Scanner) (kind : TokenKind) : Token :=
  ⟨kind, Text.ofCodes [s.byte], .ofOffsets s.position (s.position + 1)⟩

/-- A token of two bytes if the second one follows, and one of a single byte otherwise. Its
last byte is still to be moved over. -/
def pairOr? (s : Scanner) (second : UInt8) (pair alone : TokenKind) :
    Option (Token × Scanner) :=
  if s.peekByte = second then
    let t := s.readByte
    let stop := t.position + 1
    (Text.slice? s.source s.position stop).map fun literal =>
      (⟨pair, literal, .ofOffsets s.position stop⟩, t)
  else some (s.single alone, s)

def readSign? (s : Scanner) : Option (Token × Scanner) :=
  match Char.ofUInt8 s.byte with
  | '=' => s.pairOr? '='.toUInt8 .equal .assign
  | '!' => s.pairOr? '='.toUInt8 .notEqual .bang
  | _ => some (s.single ((symbol? s.byte).getD .illegal), s)

/-- The token at the position. Words and numbers have been moved over when they are read, and
so has the end of input, where there is nothing to move over. -/
def read? (s : Scanner) : Option (Token × Scanner) :=
  if s.byte = 0 then some (⟨.endOfInput, "", .ofOffsets s.position s.position⟩, s)
  else if isLetter s.byte then
    (s.readRun? isLetter).map fun (literal, span, t) => (⟨.ofWord literal, literal, span⟩, t)
  else if isDigit s.byte then
    (s.readRun? isDigit).map fun (literal, span, t) => (⟨.integer, literal, span⟩, t)
  else s.readSign?.map fun (token, t) => (token, t.readByte)

def pull? (s : Scanner) : Option (Token × Scanner) := s.skipBlanks.read?

def next? (s : Scanner) : Option (Option Token × Scanner) :=
  if s.ended then some (none, s)
  else s.pull?.map fun (token, t) => (some token, { t with ended := token.kind == .endOfInput })

end Scanner

end Scriptlet
