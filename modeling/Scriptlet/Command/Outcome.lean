import Scriptlet.Command.FileTree
import Scriptlet.Command.Invocation
import Scriptlet.Session

/-!
What an invocation does: the exit code, all that goes to standard output, and
what goes to standard error.
-/

namespace Scriptlet.Command

/-- All that an invocation can see besides its arguments. -/
structure World where
  user : Option String
  input : List UInt8
  read : String → Except Failure (List UInt8)

def World.ofFiles (user : Option String) (input : List UInt8)
    (files : List (String × List UInt8)) : World :=
  ⟨user, input, (FileTree.ofFiles input files).read⟩

structure Outcome where
  code : Nat
  output : List UInt8
  /-- A line about the work done, which is printed with the time it took. -/
  summary : Option String
  complaints : String

namespace Outcome

def errors (o : Outcome) (elapsed : String) : String :=
  match o.summary with
  | none => o.complaints
  | some work => work ++ " in " ++ elapsed ++ "\n" ++ o.complaints

def ofFailure (output : List UInt8) (failure : Failure) : Outcome :=
  ⟨1, output, none, failure.message ++ "\n"⟩

end Outcome

def refusalCode : Nat := 2

def crashCode : Nat := 101

def greeting (user : Option String) : String :=
  "hello " ++ user.getD "there" ++ "! this is the monkey programming language!\n"

namespace Invocation

def policy (i : Invocation) : Policy :=
  ⟨i.strict, i.maxTokens⟩

def summary (i : Invocation) (text : String) : Option String :=
  if i.verbose then some text else none

def converse (i : Invocation) (world : World) : Outcome :=
  let (ending, written) := Session.run i.policy none world.input
  let output := Text.bytes (greeting world.user) ++ written
  match ending with
  | .ok () => ⟨0, output, none, ""⟩
  | .error (.failed failure) => .ofFailure output failure
  | .error .crashed => ⟨crashCode, output, none, ""⟩

def dump (i : Invocation) (source : String) : Outcome :=
  let tokens := tokenize source
  let count := Text.decimal tokens.length
  ⟨0, Text.bytes (String.join (tokens.map (·.dumpLine ++ "\n"))),
   i.summary ("Tokenized " ++ count ++ " tokens"), ""⟩

/-- Prints the program of a source that has no faults, and else only reports. What is printed
about a crash itself is left out. -/
def parse (i : Invocation) (origin source : String) : Outcome :=
  let (program, p) := Scriptlet.parse i.policy source
  let summary := i.summary ("Parsed " ++ Text.decimal program.size
    ++ " statement(s) from " ++ Text.decimal p.pulled ++ " tokens")
  if p.diagnostics.isEmpty then ⟨0, Text.bytes (program.render ++ "\n"), summary, ""⟩
  else
    let reports := Diagnostic.reports p.diagnostics source origin
    let count := Text.decimal p.diagnostics.length
    match reports.ending with
    | .ok () => ⟨1, [], summary, reports.text ++ count ++ " parse error(s)\n"⟩
    | .error _ => ⟨crashCode, [], summary, reports.text⟩

theorem parse_code {i : Invocation} {origin source : String} :
    (i.parse origin source).code = 0 ↔ (Scriptlet.parse i.policy source).2.diagnostics = [] := by
  rw [parse, ← List.isEmpty_iff]
  dsimp only
  split
  · next clean => simp [clean]
  · next found =>
    split
    · simp [found]
    · simp [found, crashCode]

theorem parse_output {i : Invocation} {origin source : String}
    (clean : (Scriptlet.parse i.policy source).2.diagnostics = []) :
    (i.parse origin source).output =
      Text.bytes ((Scriptlet.parse i.policy source).1.render ++ "\n") := by
  rw [← List.isEmpty_iff] at clean
  simp only [parse, clean, if_true]

def readFile (world : World) (name : String) : Except Failure String :=
  match world.read name with
  | .error failure => .error failure
  | .ok bs =>
    match Text.ofBytes? bs with
    | none => .error .invalidText
    | some text => .ok text

def run (i : Invocation) (world : World) : Outcome :=
  match i.task with
  | .converse => i.converse world
  | .parse input inline dump =>
    let named := if inline then .ok ("<source>", input)
      else (readFile world input).map fun source => (input, source)
    match named with
    | .error failure => .ofFailure [] failure
    | .ok (origin, source) => if dump then i.dump source else i.parse origin source

/-- The task is about a text, which reports show under a name: the contents of a file,
or what was given in their place. -/
inductive Takes (i : Invocation) (world : World) (dump : Bool) : (origin text : String) → Prop
  | file {name text : String} (task : i.task = .parse name false dump)
      (held : world.read name = .ok (Text.bytes text)) : Takes i world dump name text
  | inline {text : String} (task : i.task = .parse text true dump) :
      Takes i world dump "<source>" text

theorem Takes.run_eq {i : Invocation} {world : World} {dump : Bool} {origin text : String}
    (h : i.Takes world dump origin text) :
    i.run world = if dump then i.dump text else i.parse origin text := by
  cases h with
  | file task held =>
    simp only [run, task, readFile, held, Text.ofBytes?_bytes]
    rfl
  | inline task =>
    simp only [run, task]
    rfl

end Invocation

end Scriptlet.Command
