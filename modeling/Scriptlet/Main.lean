import Scriptlet.Command.Outcome

/-!
The command line. Lines of a conversation are answered as they come in, so it
is held here with the same prompt and the same answers that a session has.
-/

open Scriptlet

namespace Scriptlet.Console

partial def readLine (input : IO.FS.Stream) (line : ByteArray) : IO ByteArray := do
  let next ← input.read 1
  let line := line ++ next
  if next.isEmpty || next.data.back? == some '\n'.toUInt8 then return line
  readLine input line

partial def converse (policy : Policy) (input output : IO.FS.Stream) :
    IO (Except Halt Unit) := do
  output.putStr Session.prompt
  output.flush
  let line ← readLine input ByteArray.empty
  if line.isEmpty then
    output.putStr "\n"
    return .ok ()
  match Text.ofBytes? line.data.toList with
  | none => return .error (.failed .invalidText)
  | some text =>
    let answer := Session.answer policy text
    output.putStr answer.text
    match answer.ending with
    | .ok () => converse policy input output
    | .error halt => return .error halt

/-- The file system's number for a failure, which comes with either sign. -/
def number (number : UInt32) : Nat :=
  min number.toNat (0 - number).toNat

def failure : IO.Error → Failure
  | .permissionDenied _ code _ => .ofNumber (number code)
  | .inappropriateType _ code _ => .ofNumber (number code)
  | .invalidArgument _ code _ => .ofNumber (number code)
  | _ => .missingFile

def contents (task : Command.Task) : IO (Except Failure (List UInt8)) := do
  match task with
  | .parse name false _ =>
    try
      return .ok (← IO.FS.readBinFile name).data.toList
    catch error => return .error (failure error)
  | _ => return .error .missingFile

end Scriptlet.Console

def main (arguments : List String) : IO UInt32 := do
  match Command.Invocation.ofArguments? arguments with
  | none =>
    IO.eprintln "arguments not understood"
    return Command.refusalCode.toUInt32
  | some invocation =>
    if invocation.task = .converse then
      IO.print (Command.greeting (← IO.getEnv "USER"))
      match ← Console.converse invocation.policy (← IO.getStdin) (← IO.getStdout) with
      | .ok () => return 0
      | .error (.failed failure) =>
        IO.eprintln failure.message
        return 1
      | .error .crashed => return Command.crashCode.toUInt32
    else
      let found ← Console.contents invocation.task
      let begun ← IO.monoNanosNow
      let outcome := invocation.run ⟨none, [], fun _ => found⟩
      (← IO.getStdout).write outcome.output.toByteArray
      let spent := (← IO.monoNanosNow) - begun
      IO.eprint (outcome.errors (Text.decimal spent ++ "ns"))
      return outcome.code.toUInt32
