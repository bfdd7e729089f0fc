import Lox.Eval.Expr
import Lox.Syntax.Stmt
import Lox.Output

/-!
# Running statements

* `Eval.State`: the scopes and the output of a running program;
* `Eval.Outcome`: how running ended: normally or with an error, or not within the given bound;
* `Stmt.exec`, `Stmt.execAll`: running a statement, and several in order up to the first error.

A loop may not end, so running takes a bound on the rounds of each single loop. Everything else
follows the statement's structure.
-/

namespace Lox

namespace Eval

/-- What a running program acts on. -/
structure State where
  chain : Chain := {}
  output : Output := .empty
  deriving DecidableEq, Inhabited

/-- How running ended, and the state then; `none` if some loop exceeded the bound. -/
abbrev Outcome := Option (Except Error Unit × State)

namespace State

/-- Evaluates an expression, which prints nothing. -/
def eval (s : State) (e : Expr) : Except Error Value × State :=
  match e.eval s.chain with
  | (result, chain) => (result, { s with chain })

/-- Enters a block. -/
def push (s : State) : State := { s with chain := s.chain.push }

/-- Leaves a block. -/
def pop (s : State) : State := { s with chain := s.chain.pop }

/-- Prints a line. -/
def println (s : State) (line : String) : State := { s with output := s.output.println line }

/-- Declares a variable. -/
def define (s : State) (name : String) (v : Value) : State :=
  { s with chain := s.chain.define name v }

end State

/-- Runs a loop's body as long as its condition holds, for at most the given number of rounds. -/
def iterate (condition : Expr) (body : State → Outcome) : Nat → State → Outcome
  | 0, _ => none
  | rounds + 1, s =>
    match s.eval condition with
    | (.error e, s) => some (.error e, s)
    | (.ok v, s) =>
      if v.truthy then
        match body s with
        | some (.ok (), s) => iterate condition body rounds s
        | stopped => stopped
      else some (.ok (), s)

end Eval

open Eval (Outcome State iterate)

namespace Stmt

mutual

/-- Runs a statement, each loop for at most `bound` rounds. A block leaves its scope also when an
error stops it. -/
def exec (bound : Nat) : Stmt → State → Outcome
  | expression e, s =>
    match s.eval e with
    | (.ok _, s) => some (.ok (), s)
    | (.error err, s) => some (.error err, s)
  | print e, s =>
    match s.eval e with
    | (.ok v, s) => some (.ok (), s.println v.text)
    | (.error err, s) => some (.error err, s)
  | declare n none, s => some (.ok (), s.define n.text .nil)
  | declare n (some e), s =>
    match s.eval e with
    | (.ok v, s) => some (.ok (), s.define n.text v)
    | (.error err, s) => some (.error err, s)
  | block ss, s =>
    match execAll bound ss s.push with
    | some (result, s) => some (result, s.pop)
    | none => none
  | ifThen c t, s =>
    match s.eval c with
    | (.ok v, s) => if v.truthy then exec bound t s else some (.ok (), s)
    | (.error err, s) => some (.error err, s)
  | ifElse c t f, s =>
    match s.eval c with
    | (.ok v, s) => if v.truthy then exec bound t s else exec bound f s
    | (.error err, s) => some (.error err, s)
  | loop c b, s => iterate c (exec bound b) bound s

/-- Runs statements in order up to the first error. -/
def execAll (bound : Nat) : List Stmt → State → Outcome
  | [], s => some (.ok (), s)
  | t :: ts, s =>
    match exec bound t s with
    | some (.ok (), s) => execAll bound ts s
    | stopped => stopped

end

end Stmt

end Lox
