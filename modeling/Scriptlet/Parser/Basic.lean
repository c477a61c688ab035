import Scriptlet.Diagnostic.Basic
import Scriptlet.Token.Stream

/-!
The state of a parser: a window of two tokens over the stream, the count of
tokens pulled so far, and the diagnostics in the order in which they were
found. A parser whose limit is spent is exhausted and never moves again.
-/

namespace Scriptlet

structure Policy where
  /-- Report every token that cannot start a statement. -/
  strict : Bool := false
  /-- Stop once this many tokens have been pulled. -/
  maxTokens : Option Nat := none
deriving DecidableEq

namespace Policy

/-- A limit that no parse reaches which would end without one: every token but
the last takes a byte, and one token is peeked past the end. -/
def boundedBy (policy : Policy) (source : String) : Policy :=
  { policy with maxTokens := some ((Text.bytes source).length + 2) }

def limitedFor (policy : Policy) (source : String) : Policy :=
  match policy.maxTokens with
  | some _ => policy
  | none => policy.boundedBy source

theorem limitedFor_isSome (policy : Policy) (source : String) :
    (policy.limitedFor source).maxTokens.isSome := by
  rw [limitedFor]
  split <;> simp_all [boundedBy]

end Policy

structure Parser where
  policy : Policy
  cursor : Cursor
  current : Token
  peek : Token
  pulled : Nat
  exhausted : Bool
  diagnostics : List Diagnostic
deriving DecidableEq

namespace Parser

/-- Filling the window takes two tokens, whatever the limit. -/
def ofSource (policy : Policy) (source : String) : Parser :=
  let (current, c) := (Cursor.ofSource source).next
  let (peek, c) := c.next
  ⟨policy, c, current, peek, 2, false, []⟩

def record (p : Parser) (d : Diagnostic) : Parser :=
  { p with diagnostics := p.diagnostics ++ [d] }

def shift (p : Parser) : Parser :=
  let (token, c) := p.cursor.next
  { p with cursor := c, current := p.peek, peek := token, pulled := p.pulled + 1 }

def exhaust (p : Parser) (limit : Nat) : Parser :=
  { p.record ⟨.tokenLimitExceeded limit, p.current.span.start⟩ with exhausted := true }

def advance (p : Parser) : Parser :=
  if p.exhausted then p
  else match p.policy.maxTokens with
    | none => p.shift
    | some limit => if p.pulled < limit then p.shift else p.exhaust limit

theorem advance_cases (p : Parser) : p.exhausted ∧ p.advance = p ∨
    p.exhausted = false ∧ (∀ limit ∈ p.policy.maxTokens, p.pulled < limit) ∧
      p.advance = p.shift ∨
    p.exhausted = false ∧ ∃ limit, p.policy.maxTokens = some limit ∧ limit ≤ p.pulled ∧
      p.advance = p.exhaust limit := by
  rw [advance]
  split
  · next spent => exact .inl ⟨spent, rfl⟩
  · next going =>
    have running := Bool.eq_false_iff.2 going
    split
    · next unlimited => exact .inr (.inl ⟨running, by simp [unlimited], rfl⟩)
    · next limit limited =>
      split
      · next lasts => exact .inr (.inl ⟨running, by simpa [limited] using lasts, rfl⟩)
      · next beyond => exact .inr (.inr ⟨running, limit, limited, Nat.le_of_not_lt beyond, rfl⟩)

/-- Advances over a token of the kind. Any other token is reported and stays
in the peek slot. -/
def expectPeek (p : Parser) (kind : TokenKind) : Bool × Parser :=
  if p.peek.kind = kind then (!p.advance.exhausted, p.advance)
  else
    (false, p.record ⟨.unexpectedToken kind p.peek.kind p.peek.literal, p.peek.span.start⟩)

def messages (p : Parser) : List String :=
  p.diagnostics.map Diagnostic.message

end Parser

end Scriptlet
