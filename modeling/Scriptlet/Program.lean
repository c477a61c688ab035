import Scriptlet.Token.Basic

/-!
Programs as lists of statements. Every statement keeps the token that
introduced it. A value is not read from a source yet, so only programs that
were built otherwise have any.
-/

namespace Scriptlet

structure Identifier where
  token : Token
  value : String
deriving DecidableEq

namespace Identifier

def ofToken (token : Token) : Identifier :=
  ⟨token, token.literal⟩

def render (name : Identifier) : String := name.value

def literal (name : Identifier) : String := name.token.literal

end Identifier

inductive Statement
  | letBinding (token : Token) (name : Identifier) (value : Option Identifier)
  | returnValue (token : Token) (value : Option Identifier)
deriving DecidableEq

namespace Statement

def token : Statement → Token
  | letBinding token .. => token
  | returnValue token _ => token

def literal (s : Statement) : String := s.token.literal

def name? : Statement → Option Identifier
  | letBinding _ name _ => some name
  | returnValue .. => none

def value? : Statement → Option Identifier
  | letBinding _ _ value => value
  | returnValue _ value => value

def renderValue (value : Option Identifier) : String :=
  (value.map Identifier.render).getD ""

def render : Statement → String
  | letBinding token name value =>
    token.literal ++ " " ++ name.render ++ " = " ++ renderValue value ++ ";"
  | returnValue token value =>
    token.literal ++ " " ++ renderValue value ++ ";"

end Statement

structure Program where
  statements : List Statement
deriving DecidableEq

namespace Program

def size (p : Program) : Nat := p.statements.length

def isEmpty (p : Program) : Bool := p.statements.isEmpty

def render (p : Program) : String :=
  String.join (p.statements.map Statement.render)

theorem render_cons (s : Statement) (statements : List Statement) :
    render ⟨s :: statements⟩ = s.render ++ render ⟨statements⟩ := by
  simp [render]

def literal (p : Program) : String :=
  (p.statements.head?.map Statement.literal).getD ""

end Program

end Scriptlet
