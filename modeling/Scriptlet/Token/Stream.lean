import Scriptlet.Token.Basic
import Scriptlet.Token.Lexeme

/-!
Tokens pulled one at a time. A cursor stays at the end of its input, so the
token of the end can be pulled again and again. A lexer adds the flag that
ends an iteration after the first of these.
-/

namespace Scriptlet

/-- A place in a source: the bytes from there on, and how many came before. -/
structure Cursor where
  rest : List UInt8
  offset : Nat
deriving DecidableEq

namespace Cursor

def ofSource (source : String) : Cursor :=
  ⟨Text.bytes source, 0⟩

def skipBlanks (c : Cursor) : Cursor :=
  ⟨c.rest.dropWhile isBlank, c.offset + (c.rest.takeWhile isBlank).length⟩

def next (c : Cursor) : Token × Cursor :=
  let c := c.skipBlanks
  match Lexeme.read? c.rest with
  | none => (⟨.endOfInput, "", .ofOffsets c.offset c.offset⟩, c)
  | some (lexeme, rest) =>
    let stop := c.offset + lexeme.text.length
    (⟨lexeme.kind, Text.ofCodes lexeme.text, .ofOffsets c.offset stop⟩, ⟨rest, stop⟩)

theorem skipBlanks_length_le (c : Cursor) : c.skipBlanks.rest.length ≤ c.rest.length :=
  (List.dropWhile_suffix isBlank).length_le

theorem next_length_le (c : Cursor) : c.next.2.rest.length ≤ c.rest.length := by
  have skipped := c.skipBlanks_length_le
  simp only [next]
  split
  · exact skipped
  · next found => exact Nat.le_of_lt (Nat.lt_of_lt_of_le (Lexeme.rest_length_lt found) skipped)

theorem next_length_lt {c : Cursor} (h : c.next.1.kind ≠ .endOfInput) :
    c.next.2.rest.length < c.rest.length := by
  have skipped := c.skipBlanks_length_le
  simp only [next] at h ⊢
  split
  · next ended => simp [ended] at h
  · next found => exact Nat.lt_of_lt_of_le (Lexeme.rest_length_lt found) skipped

theorem skipBlanks_skipBlanks (c : Cursor) : c.skipBlanks.skipBlanks = c.skipBlanks := by
  have stopped : (c.rest.dropWhile isBlank).takeWhile isBlank = [] := by
    induction c.rest with
    | nil => rfl
    | cons b rest ih =>
      rw [List.dropWhile_cons]
      split
      · exact ih
      · simp_all
  have whole := List.takeWhile_append_dropWhile (p := isBlank) (l := c.rest.dropWhile isBlank)
  rw [stopped, List.nil_append] at whole
  simp [skipBlanks, stopped, whole]

theorem next_next_of_end {c : Cursor} (h : c.next.1.kind = .endOfInput) :
    c.next.2.next = c.next := by
  cases found : Lexeme.read? c.skipBlanks.rest with
  | none => simp [next, found, skipBlanks_skipBlanks]
  | some pair =>
    obtain ⟨lexeme, rest⟩ := pair
    refine absurd ?_ (Lexeme.kind_ne_endOfInput found)
    simpa [next, found] using h

def tokens (c : Cursor) : List Token :=
  if c.next.1.kind = .endOfInput then [c.next.1]
  else c.next.1 :: c.next.2.tokens
termination_by c.rest.length
decreasing_by exact next_length_lt ‹_›

end Cursor

/-- The tokens of a source; only the last is the end of input. -/
def tokenize (source : String) : List Token :=
  (Cursor.ofSource source).tokens

structure Lexer where
  cursor : Cursor
  ended : Bool
deriving DecidableEq

namespace Lexer

def ofSource (source : String) : Lexer :=
  ⟨.ofSource source, false⟩

def pull (l : Lexer) : Token × Lexer :=
  (l.cursor.next.1, ⟨l.cursor.next.2, l.ended⟩)

/-- The next token of the iteration, which ends once it has shown the end of
input. -/
def next? (l : Lexer) : Option Token × Lexer :=
  if l.ended then (none, l)
  else (some l.cursor.next.1, ⟨l.cursor.next.2, l.cursor.next.1.kind == .endOfInput⟩)

def remaining (l : Lexer) : Nat :=
  if l.ended then 0 else l.cursor.rest.length + 1

theorem next?_remaining_lt {l m : Lexer} {token : Token} (h : l.next? = (some token, m)) :
    m.remaining < l.remaining := by
  rw [next?] at h
  split at h
  · simp at h
  · next running =>
    simp only [Prod.mk.injEq, Option.some.injEq] at h
    obtain ⟨-, rfl⟩ := h
    by_cases last : l.cursor.next.1.kind = .endOfInput
    · simp [remaining, running, last]
    · have := Cursor.next_length_lt last
      simp [remaining, running, last]
      omega

def drain (l : Lexer) : List Token × Lexer :=
  match _h : l.next? with
  | (none, m) => ([], m)
  | (some token, m) => (token :: m.drain.1, m.drain.2)
termination_by l.remaining
decreasing_by all_goals exact next?_remaining_lt ‹_›

end Lexer

end Scriptlet
