import Lox.Command

/-!
# The program

Reads the arguments, the script or the standard input, and shows what the library answers.
-/

namespace Lox.Main

/-- More rounds than any loop can make. -/
def bound : Nat := 1 <<< 62

/-- The text of a file. -/
def readScript (path : String) : IO (Except ReadFailure String) := do
  try
    let bytes ← IO.FS.readBinFile path
    return match Text.decode? bytes.toList with
      | some text => .ok text
      | none => .error .notText
  catch e =>
    return .error <| match e with
      | .noFileOrDirectory .. => .notFound
      | .inappropriateType .. => .isDirectory
      | e => .other (toString e)

/-- The bytes of the next line of the standard input, the latest first; none at its end. -/
partial def readLine (stdin : IO.FS.Stream) (line : List UInt8) : IO (List UInt8) := do
  match (← stdin.read 1).toList with
  | [] => return line
  | b :: _ => if b == Text.newline then return b :: line else readLine stdin (b :: line)

/-- Shows what a command leaves behind. -/
def finish : Option Transcript → IO UInt32
  | some shown => do
    IO.print shown.stdout
    IO.eprint shown.stderr
    return shown.status.toUInt32
  | none => return Status.runtimeError.exitCode.toUInt32

/-- A conversation with the user. -/
partial def converse (mode : Mode) (session : Session) : IO UInt32 := do
  IO.print Prompt.question
  (← IO.getStdout).flush
  let line ← readLine (← IO.getStdin) []
  let input := (Prompt.inputs line.reverse).headD .ended
  match Prompt.reply bound mode session input with
  | some (.more out err session) =>
    IO.print out
    IO.eprint err
    converse mode session
  | some (.stop status err) =>
    IO.eprint err
    return status.toUInt32
  | none => finish none

/-- Carries out what the arguments ask for. -/
def run (args : List String) : IO UInt32 := do
  match Command.ofArgs args with
  | .prompt mode => converse mode Command.freshSession
  | .script path mode =>
    let text ← readScript path
    finish (Command.run bound (fun _ => text) [] (.script path mode))
  | command => finish (Command.run bound (fun _ => .error .notFound) [] command)

end Lox.Main

def main (args : List String) : IO UInt32 := Lox.Main.run args
