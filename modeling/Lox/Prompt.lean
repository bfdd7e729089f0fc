import Lox.Session
import Lox.Text

/-!
# The prompt

* `Mode`, `Session.process`: a text is run, or its trees are printed;
* `Prompt.Input`, `Prompt.Reply`, `Prompt.reply`: what the prompt does with one line;
* `Prompt.run`: a whole conversation, a fold of `reply` over the lines.
-/

namespace Lox

/-- What is done with a text. -/
inductive Mode where
  | execute
  | trees
  deriving DecidableEq, Repr

/-- Runs a text or prints its trees. -/
def Session.process (bound : Nat) (mode : Mode) (session : Session) (source : String) :
    Option (Status × Session) :=
  match mode with
  | .execute => session.run bound source
  | .trees => some (session.dump source)

/-- What a command leaves behind. -/
structure Transcript where
  status : Nat := 0
  stdout : String := ""
  stderr : String := ""
  deriving DecidableEq, Repr

/-- The exit status when a file or the standard input cannot be read. -/
def inputFailure : Nat := 74

namespace Prompt

/-- What the prompt gets for an answer. -/
inductive Input where
  | line (text : String)
  /-- A line that is not valid UTF-8. -/
  | unreadable
  | ended
  deriving DecidableEq, Repr

/-- The inputs that a byte sequence stands for. -/
def inputs (bytes : List UInt8) : List Input :=
  (Text.cutLines bytes).map fun line => (Text.decode? line).elim .unreadable .line

/-- The text that asks for a line. -/
def question : String := "> "

/-- The words that end a conversation. -/
def farewells : List (List Char) := ["quit".toList, "q".toList]

/-- What the prompt does with an input. -/
inductive Reply where
  /-- It shows texts on both outputs and asks again. -/
  | more (stdout stderr : String) (session : Session)
  /-- It shows a text on the error output and ends. -/
  | stop (status : Nat) (stderr : String)

/-- A line is trimmed to see whether it is blank or a farewell; any other is processed as it is.
Variables are kept for the next line, errors and printed text are not. The answer is `none` if a
loop exceeds the bound. -/
def reply (bound : Nat) (mode : Mode) (session : Session) : Input → Option Reply
  | .ended => some (.stop 0 "")
  | .unreadable =>
    some (.stop inputFailure
      "error: could not read input: stream did not contain valid UTF-8\n")
  | .line text =>
    let word := Text.trim text.toList
    if word ∈ farewells then some (.stop 0 "")
    else if word = [] then some (.more "" "" session)
    else
      (session.process bound mode text).map fun (_, session) =>
        .more session.state.output.text session.log.rendered session.reset.clear

/-- A conversation: every input is preceded by the question, and the input ends at last. -/
def run (bound : Nat) (mode : Mode) (session : Session) (shown : Transcript) :
    List Input → Option Transcript
  | [] => some { shown with stdout := shown.stdout ++ question }
  | input :: rest =>
    match reply bound mode session input with
    | some (.more out err session) =>
      run bound mode session
        { shown with stdout := shown.stdout ++ question ++ out, stderr := shown.stderr ++ err } rest
    | some (.stop status err) =>
      some { status, stdout := shown.stdout ++ question, stderr := shown.stderr ++ err }
    | none => none

end Prompt

end Lox
