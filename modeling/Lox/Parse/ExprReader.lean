import Lox.Parse.Fault
import Lox.Syntax.Expr

/-!
# Reading expressions

An expression is read token by token. What has been read and waits for an operand is kept on a
stack, and an operator first completes what binds at least as tightly as itself.

* `Pending`: an operator, assignment or parenthesis that waits for its operand;
* `close`: completes what waits, down to a level of binding;
* `ExprReader`, `ExprReader.read`: the reader between two tokens, and one more token;
* `parseExpr`: the expression that a token sequence makes up.
-/

namespace Lox.Parse

open Token (Kind)

/-- What waits for its operand. -/
inductive Pending where
  | unary (op : UnaryOp) (line : Nat)
  | binary (op : BinaryOp) (line : Nat) (left : Expr)
  | logical (op : LogicalOp) (line : Nat) (left : Expr)
  /-- The expression left of an assignment's `=`. -/
  | assign (target : Expr) (equals : Placed)
  | paren

/-- An operand with what still waits for it, and the faults found on the way. -/
structure Closed where
  value : Expr
  pending : List Pending
  faults : List Fault := []

/-- Completes what waits for the operand `e`, the innermost first, and stops at what binds looser
than `level` and at a parenthesis. Level 0 completes assignments too; one whose target is not a
name leaves the target alone. -/
def close (level : Nat) (e : Expr) : List Pending → Closed
  | .unary op line :: rest => close level (.unary op line e) rest
  | .binary op line left :: rest =>
    if level ≤ op.level then close level (.binary op line left e) rest
    else ⟨e, .binary op line left :: rest, []⟩
  | .logical op line left :: rest =>
    if level ≤ op.level then close level (.logical op line left e) rest
    else ⟨e, .logical op line left :: rest, []⟩
  | .assign target equals :: rest =>
    if level = 0 then
      match target with
      | .var name => close level (.assign name e) rest
      | _ =>
        let closed := close level target rest
        { closed with faults := ⟨equals, .assignmentTarget⟩ :: closed.faults }
    else ⟨e, .assign target equals :: rest, []⟩
  | .paren :: rest => ⟨e, .paren :: rest, []⟩
  | [] => ⟨e, [], []⟩

/-- Above level 0 no assignment is completed, so none is found at fault. -/
theorem close_faults {level : Nat} (h : 0 < level) (e : Expr) (pending : List Pending) :
    (close level e pending).faults = [] := by
  induction pending generalizing e with
  | nil => rfl
  | cons p rest ih =>
    cases p with
    | unary op line => exact ih _
    | binary op line left =>
      rw [close]
      split
      · exact ih _
      · rfl
    | logical op line left =>
      rw [close]
      split
      · exact ih _
      · rfl
    | assign target equals =>
      unfold close
      rw [if_neg (by omega)]
    | paren => rfl

/-- How far an expression has been read. -/
inductive ExprReader where
  /-- An operand must come next. -/
  | operand (pending : List Pending)
  /-- An operand has been read. -/
  | operator (value : Expr) (pending : List Pending)

/-- What one more token leads to. -/
inductive ExprStep where
  /-- The token belongs to the expression. -/
  | next (reader : ExprReader) (faults : List Fault)
  /-- The expression ends before the token. -/
  | ended (value : Expr) (faults : List Fault)
  /-- No expression goes on with the token. -/
  | failed (cause : Cause) (faults : List Fault)

/-- The expression that a token is by itself. A number or string without a value counts as
`nil`. -/
def atom? (t : Token) : Option Expr :=
  match t.kind with
  | .falseKw => some (.literal (.bool false))
  | .trueKw => some (.literal (.bool true))
  | .nilKw => some (.literal .nil)
  | .number | .string => some (.literal (t.literal.getD .nil))
  | .identifier => some (.var ⟨t.lexeme, t.line⟩)
  | _ => none

namespace ExprReader

/-- The reader of a new expression. -/
def start : ExprReader := operand []

/-- A token where an operand must come. -/
def readOperand (pending : List Pending) (t : Placed) : ExprStep :=
  match UnaryOp.ofKind? t.kind with
  | some op => .next (operand (.unary op t.line :: pending)) []
  | none =>
    if t.kind = .leftParen then .next (operand (.paren :: pending)) []
    else
      match atom? t.toToken with
      | some e => .next (operator e pending) []
      | none => .failed .expression []

/-- A token that is no operator, after an operand: it closes a parenthesis or ends the
expression. -/
def readClosing (e : Expr) (pending : List Pending) (t : Placed) : ExprStep :=
  let closed := close 0 e pending
  match closed.pending with
  | .paren :: rest =>
    if t.kind = .rightParen then .next (operator (.grouping closed.value) rest) closed.faults
    else .failed .closingParen closed.faults
  | _ => .ended closed.value closed.faults

/-- A token after an operand. -/
def readOperator (e : Expr) (pending : List Pending) (t : Placed) : ExprStep :=
  match BinaryOp.ofKind? t.kind with
  | some op =>
    let closed := close op.level e pending
    .next (operand (.binary op t.line closed.value :: closed.pending)) []
  | none =>
    match LogicalOp.ofKind? t.kind with
    | some op =>
      let closed := close op.level e pending
      .next (operand (.logical op t.line closed.value :: closed.pending)) []
    | none =>
      if t.kind = .equal then
        let closed := close 1 e pending
        .next (operand (.assign closed.value t :: closed.pending)) []
      else readClosing e pending t

/-- One more token. -/
def read : ExprReader → Placed → ExprStep
  | operand pending, t => readOperand pending t
  | operator e pending, t => readOperator e pending t

/-- What has been read when the token sequence ends: an expression, or the cause why it is none. -/
def finish : ExprReader → Except Cause Expr × List Fault
  | operand _ => (.error .expression, [])
  | operator e pending =>
    let closed := close 0 e pending
    match closed.pending with
    | .paren :: _ => (.error .closingParen, closed.faults)
    | _ => (.ok closed.value, closed.faults)

end ExprReader

/-- The reading of an expression that must span a whole token sequence. -/
structure ExprRun where
  /-- The fault that ended the reading, or the reader. -/
  progress : Except Fault ExprReader := .ok .start
  /-- The latest first. -/
  faults : List Fault := []

namespace ExprRun

/-- Ends the reading with a fault. -/
def fail (run : ExprRun) (f : Fault) (before : List Fault) : ExprRun :=
  ⟨.error f, f :: (before.reverse ++ run.faults)⟩

/-- One more token. After a fault nothing is read. -/
def read (run : ExprRun) (t : Placed) : ExprRun :=
  match run.progress with
  | .error _ => run
  | .ok reader =>
    match reader.read t with
    | .next reader faults => ⟨.ok reader, faults.reverse ++ run.faults⟩
    | .ended _ faults => run.fail ⟨t, .endOfExpression⟩ faults
    | .failed cause faults => run.fail ⟨t, cause⟩ faults

/-- The outcome when the token sequence ends at `t`, and all faults in order. -/
def finish (run : ExprRun) (t : Placed) : Except Fault Expr × List Fault :=
  match run.progress with
  | .error f => (.error f, run.faults.reverse)
  | .ok reader =>
    match reader.finish with
    | (.ok e, faults) => (.ok e, run.faults.reverse ++ faults)
    | (.error cause, faults) =>
      (.error ⟨t, cause⟩, run.faults.reverse ++ (faults ++ [⟨t, cause⟩]))

end ExprRun

/-- The expression that a token sequence makes up, or the fault that prevents one, and all faults
in order. -/
def parseExpr (tokens : List Token) : Except Fault Expr × List Fault :=
  ((body tokens).foldl ExprRun.read {}).finish (ending tokens)

end Lox.Parse
