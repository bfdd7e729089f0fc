import Lox.Token.Kind

/-!
# Operators

* `UnaryOp`, `BinaryOp`, `LogicalOp`: the operators of expressions;
* `symbol`: the text of an operator;
* `kind`, `ofKind?`: the kind of token that stands for an operator (`ofKind?_eq_some_iff`);
* `BinaryOp.level`, `LogicalOp.level`: how tightly an operator binds, the tightest highest.
-/

namespace Lox

open Token (Kind)

/-- Operators before an operand. -/
inductive UnaryOp where
  | not
  | negate
  deriving DecidableEq, Repr

/-- Operators between two operands that are both evaluated. -/
inductive BinaryOp where
  | add | subtract | multiply | divide
  | greater | greaterEqual | less | lessEqual
  | equal | notEqual
  deriving DecidableEq, Repr

/-- Operators that may leave their right operand alone. -/
inductive LogicalOp where
  | and
  | or
  deriving DecidableEq, Repr

namespace UnaryOp

/-- The text of the operator. -/
def symbol : UnaryOp → String
  | not => "!"
  | negate => "-"

/-- The kind of token that stands for the operator. -/
def kind : UnaryOp → Kind
  | not => .bang
  | negate => .minus

/-- The operator that a kind of token stands for. -/
def ofKind? : Kind → Option UnaryOp
  | .bang => some not
  | .minus => some negate
  | _ => none

theorem ofKind?_eq_some_iff {k : Kind} {op : UnaryOp} : ofKind? k = some op ↔ k = op.kind := by
  cases k <;> cases op <;> decide

end UnaryOp

namespace BinaryOp

/-- The text of the operator. -/
def symbol : BinaryOp → String
  | add => "+"
  | subtract => "-"
  | multiply => "*"
  | divide => "/"
  | greater => ">"
  | greaterEqual => ">="
  | less => "<"
  | lessEqual => "<="
  | equal => "=="
  | notEqual => "!="

/-- The kind of token that stands for the operator. -/
def kind : BinaryOp → Kind
  | add => .plus
  | subtract => .minus
  | multiply => .star
  | divide => .slash
  | greater => .greater
  | greaterEqual => .greaterEqual
  | less => .less
  | lessEqual => .lessEqual
  | equal => .equalEqual
  | notEqual => .bangEqual

/-- The operator that a kind of token stands for. -/
def ofKind? : Kind → Option BinaryOp
  | .plus => some add
  | .minus => some subtract
  | .star => some multiply
  | .slash => some divide
  | .greater => some greater
  | .greaterEqual => some greaterEqual
  | .less => some less
  | .lessEqual => some lessEqual
  | .equalEqual => some equal
  | .bangEqual => some notEqual
  | _ => none

theorem ofKind?_eq_some_iff {k : Kind} {op : BinaryOp} : ofKind? k = some op ↔ k = op.kind := by
  cases k <;> cases op <;> decide

/-- Products bind tighter than sums, sums than comparisons, comparisons than equations. -/
def level : BinaryOp → Nat
  | multiply | divide => 6
  | add | subtract => 5
  | greater | greaterEqual | less | lessEqual => 4
  | equal | notEqual => 3

end BinaryOp

namespace LogicalOp

/-- The text of the operator. -/
def symbol : LogicalOp → String
  | and => "and"
  | or => "or"

/-- The kind of token that stands for the operator. -/
def kind : LogicalOp → Kind
  | and => .andKw
  | or => .orKw

/-- The operator that a kind of token stands for. -/
def ofKind? : Kind → Option LogicalOp
  | .andKw => some and
  | .orKw => some or
  | _ => none

theorem ofKind?_eq_some_iff {k : Kind} {op : LogicalOp} : ofKind? k = some op ↔ k = op.kind := by
  cases k <;> cases op <;> decide

/-- Both bind looser than every binary operator. -/
def level : LogicalOp → Nat
  | and => 2
  | or => 1

end LogicalOp

end Lox
