import Scriptlet.Text.Bytes
import Scriptlet.Text.Lines

/-!
Where a byte of a source stands, as a reader sees it: the number of its line,
the line, and the bytes of the line before it. Offsets past the end stand for
the end itself.
-/

namespace Scriptlet

structure Place where
  line : Nat
  text : String
  column : Nat
deriving DecidableEq

namespace Place

def within? (line : Nat) : List String → Nat → Option Place
  | [], _ => none
  | text :: rest, offset =>
    let size := (Text.bytes text).length
    if offset < size then some ⟨line, text, offset⟩
    else within? (line + 1) rest (offset - size)

/-- The end of a source, which lies in none of its lines. A line feed in front of it
begins a line with nothing in it, and else it is still on the last line. -/
def ofEnd (source : String) : Place :=
  let count := (Text.lines source).length
  match Text.afterLast? (· == '\n') source.toList with
  | none => ⟨1, source, (Text.bytes source).length⟩
  | some [] => ⟨count + 1, "", 0⟩
  | some last => ⟨count, String.ofList last, (Text.bytes (String.ofList last)).length⟩

def ofOffset (source : String) (offset : Nat) : Place :=
  let offset := min offset (Text.bytes source).length
  (within? 1 (Text.lines source) offset).getD (ofEnd source)

end Place

end Scriptlet
