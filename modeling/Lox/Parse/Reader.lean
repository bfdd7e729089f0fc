import Lox.Parse.ExprReader
import Lox.Syntax.Stmt

/-!
# Reading programs

A program is read token by token. Around the current statement stand the clauses that wait for
it, and around these the open blocks.

* `Clause`, `OpenBlock`, `Mode`, `Reader`: what is known between two tokens;
* `Reader.complete`: a statement has been read;
* `Reader.fail`: a declaration is given up, and tokens are skipped up to the next boundary;
* `Reader.read`, `Reader.finish`: one more token, and the end of the program.
-/

namespace Lox.Parse

open Token (Kind KindSet)

/-- What an expression is read for. -/
inductive Use where
  | value
  | statement
  | initializer (name : Name)
  | ifCondition
  | loopCondition
  deriving DecidableEq

namespace Use

/-- The kind of token that must follow the expression. -/
def closer : Use → Kind
  | value | statement | initializer _ => .semicolon
  | ifCondition | loopCondition => .rightParen

/-- The cause of a fault if another token follows. -/
def cause : Use → Cause
  | value => .semicolonAfterValue
  | statement => .semicolonAfterExpression
  | initializer _ => .semicolonAfterDeclaration
  | ifCondition => .parenAfterIfCondition
  | loopCondition => .parenAfterCondition

end Use

/-- A part of an `if` or `while` that waits for the statement being read. -/
inductive Clause where
  | thenBranch (condition : Expr)
  | elseBranch (condition : Expr) (thenBranch : Stmt)
  | loopBody (condition : Expr)

/-- The statement that a clause and its statement make up, if no `else` follows. -/
def Clause.enclose (s : Stmt) : Clause → Stmt
  | thenBranch condition => .ifThen condition s
  | elseBranch condition t => .ifElse condition t s
  | loopBody condition => .loop condition s

/-- A block that has not been closed: its statements so far, the latest first, and the clauses
that wait for the block, the innermost first. -/
structure OpenBlock where
  done : List Stmt := []
  around : List Clause

/-- What must come next. -/
inductive Mode where
  | declaration
  /-- A statement that is no declaration. -/
  | statement
  | variableName
  /-- An initializer or the end of the declaration. -/
  | initializer (name : Name)
  /-- The parenthesis before the condition of an `if`. -/
  | ifHeader
  /-- The parenthesis before the condition of a `while`. -/
  | loopHeader
  | expression (use : Use) (reader : ExprReader)
  /-- An `else`, or whatever may follow the `if` statement. -/
  | maybeElse (condition : Expr) (thenBranch : Stmt)
  /-- Tokens are skipped after a fault; the latest had the given kind. -/
  | skipping (latest : Kind)

/-- How far a program has been read. -/
structure Reader where
  /-- The declarations outside all blocks, the latest first; `none` for one at fault. -/
  slots : List (Option Stmt) := []
  /-- The open blocks, the innermost first. -/
  blocks : List OpenBlock := []
  /-- The clauses around the current statement, the innermost first. -/
  clauses : List Clause := []
  mode : Mode := .declaration
  /-- The latest first. -/
  faults : List Fault := []

namespace Reader

/-- Puts a statement with no clauses around it into the innermost block or the program. -/
def deliver (r : Reader) (s : Stmt) : Reader :=
  match r.blocks with
  | [] => { r with slots := some s :: r.slots, clauses := [], mode := .declaration }
  | b :: bs =>
    { r with blocks := { b with done := s :: b.done } :: bs, clauses := [], mode := .declaration }

/-- A statement has been read, with the given clauses around it. An `if` without `else` is left
open. -/
def completeIn (r : Reader) (s : Stmt) : List Clause → Reader
  | [] => r.deliver s
  | .thenBranch condition :: rest => { r with clauses := rest, mode := .maybeElse condition s }
  | .elseBranch condition t :: rest => r.completeIn (.ifElse condition t s) rest
  | .loopBody condition :: rest => r.completeIn (.loop condition s) rest

/-- A statement has been read. -/
def complete (r : Reader) (s : Stmt) : Reader := r.completeIn s r.clauses

/-- No `else` follows the statement, and so none follows those around it. -/
def settle (r : Reader) (s : Stmt) : Reader := r.deliver (r.clauses.foldl Clause.enclose s)

/-- Gives up the current declaration at a token. Outside all blocks it leaves a gap. -/
def fail (r : Reader) (t : Placed) (cause : Cause) : Reader :=
  { r with
    slots := if r.blocks.isEmpty then none :: r.slots else r.slots
    clauses := []
    mode := .skipping t.kind
    faults := ⟨t, cause⟩ :: r.faults }

/-- The expression read for a use is followed by its closer. -/
def completeUse (r : Reader) (e : Expr) : Use → Reader
  | .value => r.complete (.print e)
  | .statement => r.complete (.expression e)
  | .initializer name => r.complete (.declare name (some e))
  | .ifCondition => { r with clauses := .thenBranch e :: r.clauses, mode := .statement }
  | .loopCondition => { r with clauses := .loopBody e :: r.clauses, mode := .statement }

/-- One more token while an expression is read. -/
def readExpression (r : Reader) (use : Use) (reader : ExprReader) (t : Placed) : Reader :=
  match reader.read t with
  | .next reader faults =>
    { r with mode := .expression use reader, faults := faults.reverse ++ r.faults }
  | .ended e faults =>
    let r := { r with faults := faults.reverse ++ r.faults }
    if t.kind = use.closer then r.completeUse e use else r.fail t use.cause
  | .failed cause faults => { r with faults := faults.reverse ++ r.faults }.fail t cause

/-- The first token of a statement that is no declaration. -/
def readStatement (r : Reader) (t : Placed) : Reader :=
  match t.kind with
  | .printKw => { r with mode := .expression .value .start }
  | .leftBrace =>
    { r with blocks := { around := r.clauses } :: r.blocks, clauses := [], mode := .declaration }
  | .ifKw => { r with mode := .ifHeader }
  | .whileKw => { r with mode := .loopHeader }
  | _ => r.readExpression .statement .start t

/-- The first token of a declaration, or the end of the innermost block. -/
def readDeclaration (r : Reader) (t : Placed) : Reader :=
  match t.kind, r.blocks with
  | .varKw, _ => { r with mode := .variableName }
  | .rightBrace, b :: bs =>
    { r with blocks := bs, clauses := b.around }.complete (.block b.done.reverse)
  | _, _ => r.readStatement t

/-- Skipping stops after a semicolon and before a keyword that begins a statement. -/
def isBoundary (latest : Kind) (t : Placed) : Bool :=
  latest == .semicolon || KindSet.statementStart.contains t.kind

/-- One more token. -/
def read (r : Reader) (t : Placed) : Reader :=
  match r.mode with
  | .declaration => r.readDeclaration t
  | .statement => r.readStatement t
  | .variableName =>
    if t.kind = .identifier then { r with mode := .initializer ⟨t.lexeme, t.line⟩ }
    else r.fail t .variableName
  | .initializer name =>
    match t.kind with
    | .equal => { r with mode := .expression (.initializer name) .start }
    | .semicolon => r.complete (.declare name none)
    | _ => r.fail t .semicolonAfterDeclaration
  | .ifHeader =>
    if t.kind = .leftParen then { r with mode := .expression .ifCondition .start }
    else r.fail t .parenAfterIf
  | .loopHeader =>
    if t.kind = .leftParen then { r with mode := .expression .loopCondition .start }
    else r.fail t .parenAfterWhile
  | .expression use reader => r.readExpression use reader t
  | .maybeElse condition s =>
    if t.kind = .elseKw then
      { r with clauses := .elseBranch condition s :: r.clauses, mode := .statement }
    else (r.settle (.ifThen condition s)).readDeclaration t
  | .skipping latest =>
    if isBoundary latest t then { r with mode := .declaration }.readDeclaration t
    else { r with mode := .skipping t.kind }

/-- Every open block misses its brace, and the outermost is a declaration at fault. -/
def closeBlocks (r : Reader) (t : Placed) : Reader :=
  match r.blocks with
  | [] => r
  | bs =>
    { r with
      slots := none :: r.slots
      blocks := []
      faults := bs.map (fun _ => ⟨t, .braceAfterBlock⟩) ++ r.faults }

/-- The program ends at the token `t`, which ends the current declaration, if there is one, and
with it the blocks. -/
def finish (r : Reader) (t : Placed) : Reader :=
  match r.mode with
  | .declaration | .skipping _ => r.closeBlocks t
  | .maybeElse condition s => (r.settle (.ifThen condition s)).closeBlocks t
  | _ => (r.read t).closeBlocks t

end Reader

/-- What a token sequence says as a program: a statement for each declaration outside all blocks,
`none` for one at fault, and the faults in order. -/
structure Program where
  slots : List (Option Stmt)
  faults : List Fault

/-- The program that a token sequence makes up. -/
def parse (tokens : List Token) : Program :=
  let r := ((body tokens).foldl Reader.read {}).finish (ending tokens)
  ⟨r.slots.reverse, r.faults.reverse⟩

namespace Program

/-- The errors reported for a program. -/
def diagnostics (p : Program) : List Diagnostic := p.faults.map Fault.diagnostic

/-- The statements, if no declaration is at fault. -/
def statements? (p : Program) : Option (List Stmt) := p.slots.mapM id

end Program

end Lox.Parse
