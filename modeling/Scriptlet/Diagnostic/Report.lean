import Scriptlet.Channel
import Scriptlet.Diagnostic.Basic
import Scriptlet.Place

/-!
Diagnostics shown against their source: a headline, the origin of the source,
and the line with a caret under the byte that is meant. The line is shown
without its indentation, and the caret moves with it.
-/

namespace Scriptlet

namespace Text

/-- The code ranges of the Unicode property White_Space, ends included. -/
def whiteSpaceRanges : List (Nat × Nat) :=
  [(0x09, 0x0d), (0x20, 0x20), (0x85, 0x85), (0xa0, 0xa0), (0x1680, 0x1680),
   (0x2000, 0x200a), (0x2028, 0x2029), (0x202f, 0x202f), (0x205f, 0x205f),
   (0x3000, 0x3000)]

def isWhiteSpace (c : Char) : Bool :=
  whiteSpaceRanges.any fun (low, high) => low ≤ c.toNat && c.toNat ≤ high

def trimEnd (cs : List Char) : List Char :=
  (cs.reverse.dropWhile isWhiteSpace).reverse

end Text

namespace Diagnostic

def isIndentation (c : Char) : Bool :=
  c == ' ' || c == '\t'

def trimmed (line : String) : String :=
  String.ofList (Text.trimEnd (line.toList.dropWhile isIndentation))

def indentation (line : String) : Nat :=
  (line.toList.takeWhile isIndentation).length

def headline (d : Diagnostic) : String :=
  match d.fault.tip with
  | .absent => "Error: " ++ d.fault.name
  | .suggestion text => "Error: " ++ d.fault.name ++ " (" ++ text ++ ")"

def row (c : Char) (count : Nat) : String :=
  String.ofList (List.replicate count c)

def dashes (d : Diagnostic) (source : String) : Nat :=
  let place := Place.ofOffset source d.position.toNat
  place.column - indentation place.text

def reportLines (d : Diagnostic) (source origin : String) : List String :=
  let place := Place.ofOffset source d.position.toNat
  let number := Text.decimal place.line
  let gutter := row ' ' (number.length + 1) ++ "|"
  [d.headline,
   "-> " ++ origin,
   gutter,
   number ++ " | " ++ trimmed place.text,
   gutter ++ " " ++ row '-' (d.dashes source) ++ "^"]

def report (d : Diagnostic) (source origin : String) : String :=
  String.join ((d.reportLines source origin).map (· ++ "\n"))

/-- The greatest width that a text can be padded to. A program that asks for more crashes. -/
def maxWidth : Nat := 65535

/-- The report of a diagnostic, if its caret does not stand too far out. The gutter never does:
it is as wide as the number of a line. -/
def printout (d : Diagnostic) (source origin : String) : Printout :=
  if d.dashes source + 1 ≤ maxWidth then .ofText (d.report source origin) else .crash

def reports (found : List Diagnostic) (source origin : String) : Printout :=
  .concat (found.map (·.printout source origin))

end Diagnostic

end Scriptlet
