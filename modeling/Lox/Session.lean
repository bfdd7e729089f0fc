import Lox.Source.Scan
import Lox.Parse.Reader
import Lox.Eval.Stmt
import Lox.Diagnostic.Log

/-!
# Sessions

* `interpret`: runs statements and reports the first error;
* `Program.ofSource`: a program text with all its static errors;
* `Session`: variables, printed text and reported errors, kept from one text to the next;
* `Session.run`, `Session.dump`: runs a text, or prints its trees, unless a static error is
  pending; `Session.reset` forgets the errors.
-/

namespace Lox

open Eval (State)

/-- Runs statements in order; an error stops them and is reported. -/
def interpret (bound : Nat) (ss : List Stmt) (s : State) (log : Log) :
    Option (Except Eval.Error Unit × State × Log) :=
  match Stmt.execAll bound ss s with
  | some (.ok (), s) => some (.ok (), s, log)
  | some (.error e, s) => some (.error e, s, log.emit e.diagnostic)
  | none => none

/-- The program of a text and its errors, the lexical ones first. -/
def Parse.Program.ofSource (source : String) : Parse.Program × List Diagnostic :=
  let (tokens, lexical) := Source.scan source
  let p := Parse.parse tokens
  (p, lexical ++ p.diagnostics)

/-- The statements of a text, or all its errors. -/
def statements (source : String) : Except (List Diagnostic) (List Stmt) :=
  match Parse.Program.ofSource source with
  | (p, []) => .ok (p.statements?.getD [])
  | (_, errors) => .error errors

/-- How the work on a text ended. -/
inductive Status where
  | success
  /-- The text or one before it has an error. Nothing was run. -/
  | staticError
  | runtimeError
  deriving DecidableEq, Repr

/-- The exit status of a script, after the conventions of `sysexits`. -/
def Status.exitCode : Status → Nat
  | success => 0
  | staticError => 65
  | runtimeError => 70

/-- Variables, printed text and reported errors. -/
structure Session where
  state : State := {}
  log : Log := {}
  deriving DecidableEq

namespace Session

/-- Reads a text and reports its errors. There are no statements while a static error is
pending. -/
def read (session : Session) (source : String) : Option (List Stmt) × Session :=
  let (p, errors) := Parse.Program.ofSource source
  let log := session.log.emitAll errors
  (if log.staticFault then none else p.statements?, { session with log })

/-- Runs a text; `none` if a loop exceeds the bound. -/
def run (bound : Nat) (session : Session) (source : String) : Option (Status × Session) :=
  match session.read source with
  | (none, session) => some (.staticError, session)
  | (some ss, session) =>
    match interpret bound ss session.state session.log with
    | some (.ok (), state, log) => some (.success, { state, log })
    | some (.error _, state, log) => some (.runtimeError, { state, log })
    | none => none

/-- Prints the trees of a text, one a line, and runs nothing. -/
def dump (session : Session) (source : String) : Status × Session :=
  match session.read source with
  | (none, session) => (.staticError, session)
  | (some ss, session) =>
    let state := ss.foldl (fun (s : State) t => s.println t.text) session.state
    (.success, { session with state })

/-- Forgets the reported errors. -/
def reset (session : Session) : Session := { session with log := session.log.reset }

/-- Forgets the printed text. -/
def clear (session : Session) : Session :=
  { session with state := { session.state with output := session.state.output.clear } }

end Session

end Lox
