import Scriptlet.Token.Basic

/-!
What can be wrong with a source, where, and the words for it.
-/

namespace Scriptlet

inductive Fault
  | unexpectedToken (expected received : TokenKind) (literal : String)
  | unrecognisedStatement (kind : TokenKind) (literal : String)
  | tokenLimitExceeded (limit : Nat)
deriving DecidableEq

inductive Tip
  | absent
  | suggestion (text : String)
deriving DecidableEq

def Tip.text : Tip → String
  | absent => ""
  | suggestion text => text

namespace Fault

def name : Fault → String
  | unexpectedToken .. => "UnexpectedToken"
  | unrecognisedStatement .. => "UnrecognisedStatement"
  | tokenLimitExceeded .. => "TokenLimitExceeded"

def message : Fault → String
  | unexpectedToken expected received _ =>
    "next token got=" ++ received.name ++ " want=" ++ expected.name
  | unrecognisedStatement kind literal =>
    "no statement starts with " ++ kind.name ++ " " ++ Text.quoted literal
  | tokenLimitExceeded limit =>
    "token limit of " ++ Text.decimal limit ++ " exceeded"

def tip : Fault → Tip
  | unexpectedToken expected .endOfInput _ =>
    .suggestion ("Unexpected end of input, expected " ++ expected.name)
  | unexpectedToken expected _ literal =>
    .suggestion ("Unexpected token: `" ++ literal ++ "`, expected " ++ expected.name)
  | unrecognisedStatement .. =>
    .suggestion "Only `let` and `return` statements are understood"
  | tokenLimitExceeded .. =>
    .suggestion "Statements must end with `;`, did you miss a semicolon?"

end Fault

structure Diagnostic where
  fault : Fault
  -- the offset of the byte that it is reported at
  position : UInt32
deriving DecidableEq

namespace Diagnostic

def message (d : Diagnostic) : String := d.fault.message

/-- Says that the limit is spent, which is nothing about the source. -/
def isLimit (d : Diagnostic) : Bool :=
  match d.fault with
  | .tokenLimitExceeded _ => true
  | _ => false

def isUnexpected (d : Diagnostic) : Bool :=
  match d.fault with
  | .unexpectedToken .. => true
  | _ => false

def isUnrecognised (d : Diagnostic) : Bool :=
  match d.fault with
  | .unrecognisedStatement .. => true
  | _ => false

theorem not_isLimit_of_isUnexpected (d : Diagnostic) (h : d.isUnexpected) :
    d.isLimit = false := by
  rw [isUnexpected] at h
  split at h
  · next same => rw [isLimit, same]
  · exact absurd h Bool.false_ne_true

theorem not_isUnrecognised_of_isUnexpected (d : Diagnostic) (h : d.isUnexpected) :
    d.isUnrecognised = false := by
  rw [isUnexpected] at h
  split at h
  · next same => rw [isUnrecognised, same]
  · exact absurd h Bool.false_ne_true

end Diagnostic

end Scriptlet
