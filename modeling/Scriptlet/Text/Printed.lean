/-!
Numbers and texts as they are printed. Numbers are printed in decimal digits, and reading
allows one plus sign and leading zeros, so every number has its printed form and others.
Texts in quotes stay on one line: quotes, backslashes and control characters are escaped.
-/

namespace Scriptlet.Text

def decimal (n : Nat) : String :=
  String.ofList (Nat.toDigits 10 n)

theorem isDigit_of_mem_decimal {n : Nat} {c : Char} (h : c ∈ (decimal n).toList) : c.isDigit := by
  rw [decimal, String.toList_ofList] at h
  exact Nat.isDigit_of_mem_toDigits (by decide) (by decide) h

theorem not_mem_decimal {n : Nat} {c : Char} (other : c.isDigit = false) :
    c ∉ (decimal n).toList := by
  intro found
  rw [isDigit_of_mem_decimal found] at other
  exact absurd other (by decide)

theorem ascii_decimal {n : Nat} : ∀ c ∈ (decimal n).toList, c.toNat < 128 := by
  intro c found
  have digit := Char.isDigit_iff_toNat.1 (isDigit_of_mem_decimal found)
  exact Nat.lt_of_le_of_lt digit.2 (by decide)

def digitValue (c : Char) : Nat :=
  c.toNat - '0'.toNat

def readDigits? (cs : List Char) : Option Nat :=
  if cs.isEmpty || !cs.all Char.isDigit then none
  else some (cs.foldl (fun n c => 10 * n + digitValue c) 0)

def readNatural? (bound : Nat) (text : String) : Option Nat :=
  let digits := match text.toList with
    | '+' :: rest => rest
    | all => all
  (readDigits? digits).filter (· < bound)

-- Control characters, the no-break space and the soft hyphen: what is invisible up to U+00FF.
-- What is quoted is the text of a token, and no text has a character beyond that
-- (`Token.Spelled.narrow`, `Parser.literal_narrow`).
def isInvisible (c : Char) : Bool :=
  c.toNat < 0x20 || (0x7f ≤ c.toNat && c.toNat ≤ 0xa0) || c.toNat == 0xad

def escape : Char → List Char
  | '"' => ['\\', '"']
  | '\\' => ['\\', '\\']
  | '\t' => ['\\', 't']
  | '\r' => ['\\', 'r']
  | '\n' => ['\\', 'n']
  | '\x00' => ['\\', '0']
  | c =>
    if isInvisible c then
      ['\\', 'u', '\x7b'] ++ Nat.toDigits 16 c.toNat ++ ['\x7d']
    else [c]

def quoted (text : String) : String :=
  String.ofList ('"' :: text.toList.flatMap escape ++ ['"'])

end Scriptlet.Text
