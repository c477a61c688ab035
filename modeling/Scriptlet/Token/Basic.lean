import Scriptlet.Text.Printed

/-!
What a token can be, with the reserved words among the words, and tokens with the
place they were read from and the two ways to print one.
-/

namespace Scriptlet

inductive TokenKind
  | illegal
  | endOfInput
  | identifier
  | integer
  | assign
  | plus
  | minus
  | bang
  | asterisk
  | slash
  | less
  | greater
  | equal
  | notEqual
  | comma
  | semicolon
  | leftParen
  | rightParen
  | leftBrace
  | rightBrace
  | functionWord
  | letWord
  | trueWord
  | falseWord
  | ifWord
  | elseWord
  | returnWord
deriving DecidableEq

namespace TokenKind

def name : TokenKind → String
  | illegal => "ILLEGAL"
  | endOfInput => "EOF"
  | identifier => "IDENT"
  | integer => "INT"
  | assign => "ASSIGN"
  | plus => "PLUS"
  | minus => "MINUS"
  | bang => "BANG"
  | asterisk => "ASTERISK"
  | slash => "SLASH"
  | less => "LT"
  | greater => "GT"
  | equal => "EQ"
  | notEqual => "NOT_EQ"
  | comma => "COMMA"
  | semicolon => "SEMICOLON"
  | leftParen => "LPAREN"
  | rightParen => "RPAREN"
  | leftBrace => "LBRACE"
  | rightBrace => "RBRACE"
  | functionWord => "FUNCTION"
  | letWord => "LET"
  | trueWord => "TRUE"
  | falseWord => "FALSE"
  | ifWord => "IF"
  | elseWord => "ELSE"
  | returnWord => "RETURN"

def all : List TokenKind :=
  [illegal, endOfInput, identifier, integer, assign, plus, minus, bang, asterisk,
   slash, less, greater, equal, notEqual, comma, semicolon, leftParen, rightParen,
   leftBrace, rightBrace, functionWord, letWord, trueWord, falseWord, ifWord,
   elseWord, returnWord]

def ofName? (text : String) : Option TokenKind :=
  all.find? (·.name == text)

theorem ofName?_name (kind : TokenKind) : ofName? kind.name = some kind := by
  cases kind <;> decide

def reserved : List (String × TokenKind) :=
  [("fn", functionWord), ("let", letWord), ("true", trueWord), ("false", falseWord),
   ("if", ifWord), ("else", elseWord), ("return", returnWord)]

def ofWord (word : String) : TokenKind :=
  (reserved.lookup word).getD identifier

theorem ofWord_ne_endOfInput (word : String) : ofWord word ≠ endOfInput := by
  simp only [ofWord, reserved, List.lookup_cons, List.lookup_nil]
  repeat' split
  all_goals simp

/-- Kinds whose tokens differ in their text. -/
def isOpen (kind : TokenKind) : Bool :=
  kind == identifier || kind == integer || kind == illegal

end TokenKind

/-- The bytes from `start` up to but not including `stop`. Offsets have 32 bits
and wrap. -/
structure Span where
  start : UInt32
  stop : UInt32
deriving DecidableEq

def Span.ofOffsets (start stop : Nat) : Span :=
  ⟨start.toUInt32, stop.toUInt32⟩

structure Token where
  kind : TokenKind
  literal : String
  span : Span
deriving DecidableEq

namespace Token

def render (token : Token) : String :=
  token.kind.name ++ " " ++ Text.quoted token.literal

/-- A line of the token dump. Only open kinds show their text: that of the
others is known from the kind. -/
def dumpLine (token : Token) : String :=
  let shown := if token.kind.isOpen then token.literal else ""
  token.kind.name ++ " (" ++ shown ++ ")"

end Token

end Scriptlet
