import Scriptlet.Text.Bytes
import Scriptlet.Token.Basic

/-!
The lexeme that an input opens with: the longest word or number, an operator
of two bytes before one of a single byte, and any other byte by itself. An
input without a lexeme is at its end. A NUL byte ends the input wherever it
stands.
-/

namespace Scriptlet

def isBlank (b : UInt8) : Bool :=
  b == ' '.toUInt8 || b == '\t'.toUInt8 || b == '\n'.toUInt8 || b == '\r'.toUInt8

def isLetter (b : UInt8) : Bool :=
  ('a'.toUInt8 ≤ b && b ≤ 'z'.toUInt8) || ('A'.toUInt8 ≤ b && b ≤ 'Z'.toUInt8)
    || b == '_'.toUInt8

def isDigit (b : UInt8) : Bool :=
  '0'.toUInt8 ≤ b && b ≤ '9'.toUInt8

def operator? (first second : UInt8) : Option TokenKind :=
  match Char.ofUInt8 first, Char.ofUInt8 second with
  | '=', '=' => some .equal
  | '!', '=' => some .notEqual
  | _, _ => none

def symbol? (b : UInt8) : Option TokenKind :=
  match Char.ofUInt8 b with
  | '=' => some .assign
  | '!' => some .bang
  | '+' => some .plus
  | '-' => some .minus
  | '*' => some .asterisk
  | '/' => some .slash
  | '<' => some .less
  | '>' => some .greater
  | ',' => some .comma
  | ';' => some .semicolon
  | '(' => some .leftParen
  | ')' => some .rightParen
  | '\x7b' => some .leftBrace
  | '\x7d' => some .rightBrace
  | _ => none

structure Lexeme where
  kind : TokenKind
  text : List UInt8
deriving DecidableEq

namespace Lexeme

def word (text : List UInt8) : Lexeme :=
  ⟨TokenKind.ofWord (Text.ofCodes text), text⟩

def symbol (b : UInt8) : Lexeme :=
  ⟨(symbol? b).getD .illegal, [b]⟩

/-- The first lexeme of an input without leading blanks, and what follows it. -/
def read? : List UInt8 → Option (Lexeme × List UInt8)
  | [] => none
  | b :: rest =>
    if b = 0 then none
    else if isLetter b then
      some (word (b :: rest.takeWhile isLetter), rest.dropWhile isLetter)
    else if isDigit b then
      some (⟨.integer, b :: rest.takeWhile isDigit⟩, rest.dropWhile isDigit)
    else match rest with
      | [] => some (symbol b, [])
      | c :: rest =>
        match operator? b c with
        | some kind => some (⟨kind, [b, c]⟩, rest)
        | none => some (symbol b, c :: rest)

theorem text_append_rest {input rest : List UInt8} {lexeme : Lexeme}
    (h : read? input = some (lexeme, rest)) : lexeme.text ++ rest = input := by
  rw [read?.eq_def] at h
  repeat' split at h
  all_goals
    simp only [Option.some.injEq, Prod.mk.injEq, reduceCtorEq] at h
    try obtain ⟨rfl, rfl⟩ := h
    try simp [word, symbol, List.takeWhile_append_dropWhile]

theorem text_ne_nil {input rest : List UInt8} {lexeme : Lexeme}
    (h : read? input = some (lexeme, rest)) : lexeme.text ≠ [] := by
  rw [read?.eq_def] at h
  repeat' split at h
  all_goals
    simp only [Option.some.injEq, Prod.mk.injEq, reduceCtorEq] at h
    try obtain ⟨rfl, rfl⟩ := h
    try simp [word, symbol]

theorem kind_ne_endOfInput {input rest : List UInt8} {lexeme : Lexeme}
    (h : read? input = some (lexeme, rest)) : lexeme.kind ≠ .endOfInput := by
  have alone (b : UInt8) : (symbol b).kind ≠ .endOfInput := by
    simp only [symbol, symbol?]
    split <;> simp
  have pair {b c : UInt8} {kind : TokenKind} (spelled : operator? b c = some kind) :
      kind ≠ .endOfInput := by
    rintro rfl
    rw [operator?] at spelled
    split at spelled <;> simp at spelled
  rw [read?.eq_def] at h
  repeat' split at h
  all_goals
    simp only [Option.some.injEq, Prod.mk.injEq, reduceCtorEq] at h
    try obtain ⟨rfl, rfl⟩ := h
  · exact TokenKind.ofWord_ne_endOfInput _
  · simp
  · exact alone _
  · next spelled => exact pair spelled
  · exact alone _

theorem rest_length_lt {input rest : List UInt8} {lexeme : Lexeme}
    (h : read? input = some (lexeme, rest)) : rest.length < input.length := by
  have size := congrArg List.length (text_append_rest h)
  have := List.length_pos_iff.2 (text_ne_nil h)
  simp only [List.length_append] at size
  omega

end Lexeme

end Scriptlet
