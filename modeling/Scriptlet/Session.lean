import Scriptlet.Diagnostic.Report
import Scriptlet.Parser.Program

/-!
A conversation over lines of input. Each line is parsed on its own, always
under a limit, and answered with its program or with its diagnostics, piece by
piece for as long as there is room. The first line that is not a text ends the
conversation, after its prompt, and so does the first report that cannot be
printed, after what was said before it.
-/

namespace Scriptlet.Session

def prompt : String := ">> "

def origin : String := "repl"

def answer (policy : Policy) (line : String) : Printout :=
  let (program, p) := parse policy line
  if p.diagnostics.isEmpty then .ofText (program.render ++ "\n")
  else
    (Printout.ofText "parser errors:\n").andThen <|
      (Printout.concat (p.messages.map fun message => .ofText ("\t" ++ message ++ "\n"))).andThen
        (Diagnostic.reports p.diagnostics line origin)

abbrev Talk := ExceptT Halt (StateM Sink)

def say (text : String) : Talk Unit := do
  let (whole, sink) := (← get).write (Text.bytes text)
  set sink
  unless whole do throw (.failed .fullSink)

theorem bind_run {α β : Type} (a : Talk α) (f : α → Talk β) (sink : Sink) :
    (a >>= f).run.run sink = match a.run.run sink with
      | (.ok x, s) => (f x).run.run s
      | (.error halt, s) => (.error halt, s) := by
  rw [ExceptT.run_bind, StateT.run_bind]
  rcases a.run.run sink with ⟨_ | _, s⟩ <;> rfl

theorem say_run (text : String) (sink : Sink) : (say text).run.run sink =
    (if (sink.write (Text.bytes text)).1 then .ok () else .error (.failed .fullSink),
      (sink.write (Text.bytes text)).2) := by
  change (if (sink.write (Text.bytes text)).1 then pure () else throw (.failed .fullSink) :
    Talk Unit).run.run _ = _
  split <;> rfl

def utter (part : Printout) : Talk Unit := do
  say part.text
  match part.ending with
  | .ok () => pure ()
  | .error halt => throw halt

/-- Gives the answer to a line, the messages and the reports one at a time. -/
def reply (policy : Policy) (line : String) : Talk Unit := do
  let (program, p) := parse policy line
  if p.diagnostics.isEmpty then say (program.render ++ "\n")
  else
    say "parser errors:\n"
    p.messages.forM fun message => say ("\t" ++ message ++ "\n")
    p.diagnostics.forM fun d => utter (d.printout line origin)

def converse (policy : Policy) : List (List UInt8) → Talk Unit
  | [] => do
    say prompt
    say "\n"
  | line :: lines => do
    say prompt
    match Text.ofBytes? line with
    | none => throw (.failed .invalidText)
    | some text =>
      reply policy text
      converse policy lines

def inputLines (input : List UInt8) : List (List UInt8) :=
  Text.cutAfter (· == '\n'.toUInt8) input

/-- How the conversation over an input ends, and what it has written. -/
def run (policy : Policy) (capacity : Option Nat) (input : List UInt8) :
    Except Halt Unit × List UInt8 :=
  let (ending, sink) := (converse policy (inputLines input)).run.run (.ofCapacity capacity)
  (ending, sink.written)

end Scriptlet.Session
