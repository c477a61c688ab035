import Scriptlet.Text.Printed

/-!
What the arguments of a command line ask for. Flags may stand before and after
the word that names the task, but only once on either side. A limit that is
given on both sides counts as given after the word.
-/

namespace Scriptlet.Command

inductive Flag
  | strict
  | verbose
  | source
  | tokens
deriving DecidableEq

namespace Flag

def ofLong? : String → Option Flag
  | "strict" => some strict
  | "verbose" => some verbose
  | "source" => some source
  | "tokens" => some tokens
  | _ => none

def ofLetter? : Char → Option Flag
  | 'v' => some verbose
  | 's' => some source
  | 't' => some tokens
  | _ => none

def isGlobal : Flag → Bool
  | strict | verbose => true
  | source | tokens => false

end Flag

inductive Word
  | parse
  | repl
deriving DecidableEq

def Word.ofText? : String → Option Word
  | "parse" => some .parse
  | "repl" => some .repl
  | _ => none

inductive Argument
  | separator
  | long (name : String) (value : Option String)
  | letters (letters : List Char)
  | plain (text : String)
deriving DecidableEq

namespace Argument

def ofText (text : String) : Argument :=
  match text.toList with
  | ['-', '-'] => separator
  | '-' :: '-' :: rest =>
    let name := String.ofList (rest.takeWhile (· ≠ '='))
    match rest.dropWhile (· ≠ '=') with
    | [] => long name none
    | _ :: value => long name (some (String.ofList value))
  | '-' :: c :: rest => letters (c :: rest)
  | _ => plain text

end Argument

structure Given where
  flags : List Flag
  maxTokens : Option Nat
deriving DecidableEq

/-- What has been read so far: all before the word, the word, all after it. -/
structure Reading where
  before : Given
  word : Option Word
  after : Given
  input : Option String
deriving DecidableEq

namespace Reading

def start : Reading := ⟨⟨[], none⟩, none, ⟨[], none⟩, none⟩

def side (r : Reading) : Given :=
  match r.word with
  | none => r.before
  | some _ => r.after

def setSide (r : Reading) (given : Given) : Reading :=
  match r.word with
  | none => { r with before := given }
  | some _ => { r with after := given }

def flag? (r : Reading) (flag : Flag) : Option Reading :=
  let known := flag.isGlobal || r.word == some .parse
  if known && !r.side.flags.contains flag then
    some (r.setSide { r.side with flags := flag :: r.side.flags })
  else none

def limit? (r : Reading) (text : String) : Option Reading :=
  match r.side.maxTokens, Text.readNatural? UInt64.size text with
  | none, some limit => some (r.setSide { r.side with maxTokens := some limit })
  | _, _ => none

def input? (r : Reading) (text : String) : Option Reading :=
  if r.word == some .parse && r.input.isNone then some { r with input := some text }
  else none

def plain? (r : Reading) (text : String) : Option Reading :=
  match r.word with
  | none => (Word.ofText? text).map fun word => { r with word := some word }
  | some _ => r.input? text

def arguments? : List String → Reading → Option Reading
  | [], r => some r
  | argument :: rest, r =>
    match Argument.ofText argument with
    | .separator => rest.foldlM input? r
    | .long "max-tokens" (some value) => r.limit? value >>= arguments? rest
    | .long "max-tokens" none =>
      match rest with
      | [] => none
      | value :: rest => r.limit? value >>= arguments? rest
    | .long _ (some _) => none
    | .long name none => Flag.ofLong? name >>= r.flag? >>= arguments? rest
    | .letters letters =>
      letters.foldlM (fun r letter => Flag.ofLetter? letter >>= r.flag?) r >>= arguments? rest
    | .plain text => r.plain? text >>= arguments? rest

def has (r : Reading) (flag : Flag) : Bool :=
  r.before.flags.contains flag || r.after.flags.contains flag

end Reading

inductive Task
  | converse
  /-- The input is the source itself if `inline`, else the name of its file. -/
  | parse (input : String) (inline dump : Bool)
deriving DecidableEq

structure Invocation where
  task : Task
  strict : Bool
  verbose : Bool
  maxTokens : Option Nat
deriving DecidableEq

namespace Invocation

def ofReading? (r : Reading) : Option Invocation :=
  let invoke (task : Task) : Invocation :=
    ⟨task, r.has .strict, r.has .verbose, r.after.maxTokens <|> r.before.maxTokens⟩
  match r.word with
  | some .parse => r.input.map fun input =>
    invoke (.parse input (r.has .source) (r.has .tokens))
  | _ => some (invoke .converse)

/-- What the arguments ask for, unless they are not understood. -/
def ofArguments? (arguments : List String) : Option Invocation :=
  Reading.start.arguments? arguments >>= ofReading?

end Invocation

end Scriptlet.Command
