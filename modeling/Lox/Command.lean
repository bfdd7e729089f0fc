import Lox.Prompt

/-!
# The command line

* `Command`, `Command.ofArgs`: what the arguments ask for;
* `ReadFailure`: why a file cannot be read;
* `Command.run`: what the command leaves behind, given the files and the standard input.
-/

namespace Lox

/-- What the arguments ask for. -/
inductive Command where
  | help
  /-- More than one script. -/
  | misuse
  | prompt (mode : Mode)
  | script (path : String) (mode : Mode)
  deriving DecidableEq, Repr

/-- Why a file cannot be read. -/
inductive ReadFailure where
  | notFound
  | isDirectory
  | notText
  /-- Any other reason, in the words of the system. -/
  | other (reason : String)
  deriving DecidableEq, Repr

/-- The words for a reason. -/
def ReadFailure.message : ReadFailure → String
  | notFound => "No such file or directory (os error 2)"
  | isDirectory => "Is a directory (os error 21)"
  | notText => "stream did not contain valid UTF-8"
  | other reason => reason

namespace Command

/-- An option may stand anywhere, and the plea for help wins over everything else. -/
def ofArgs (args : List String) : Command :=
  if args.any fun a => a == "-h" || a == "--help" then help
  else
    let mode := if args.contains "--ast" then Mode.trees else Mode.execute
    match args.filter (· != "--ast") with
    | [] => prompt mode
    | [path] => script path mode
    | _ => misuse

/-- The exit status for wrong arguments. -/
def misuseStatus : Nat := 64

/-- How to call the command. -/
def usage : String :=
  "Usage: lox [--ast] [script]\n\nOptions:\n" ++
  "  --ast    Print the syntax tree of each statement instead of running it\n\n" ++
  "Set RUST_LOG (e.g. RUST_LOG=debug) to enable logging on stderr.\n"

/-- A session whose errors are shown at once. -/
def freshSession : Session := { log := { emitter := .stderr } }

/-- Processes a script. -/
def runScript (bound : Nat) (mode : Mode) (source : String) : Option Transcript :=
  (freshSession.process bound mode source).map fun (status, session) =>
    { status := status.exitCode
      stdout := session.state.output.text
      stderr := session.log.rendered }

/-- The report of a script that cannot be read. -/
def unreadable (path : String) (failure : ReadFailure) : Transcript :=
  { status := inputFailure
    stderr := "error: could not read '" ++ path ++ "': " ++ failure.message ++ "\n" }

/-- What the command leaves behind; `none` if a loop exceeds the bound. -/
def run (bound : Nat) (read : String → Except ReadFailure String) (stdin : List UInt8)
    (command : Command) : Option Transcript :=
  match command with
  | help => some { stderr := usage }
  | misuse => some { status := misuseStatus, stderr := usage }
  | prompt mode => Prompt.run bound mode freshSession {} (Prompt.inputs stdin)
  | script path mode =>
    match read path with
    | .ok source => runScript bound mode source
    | .error failure => some (unreadable path failure)

end Command

end Lox
