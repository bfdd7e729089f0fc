import Lox.Eval.Fault
import Lox.Syntax.Operator

/-!
# What operators do

* `UnaryOp.apply`, `BinaryOp.apply`: the value of an operator for given operands, or a fault;
* `LogicalOp.decides`: a left operand that makes the right one irrelevant.
-/

namespace Lox

open Eval (Fault)

/-- The value of a unary operator. Negation applies to every value, a sign change to numbers. -/
def UnaryOp.apply : UnaryOp → Value → Except Fault Value
  | not, v => .ok (.bool !v.truthy)
  | negate, .number x => .ok (.number (-x))
  | negate, _ => .error .operandNotNumber

namespace BinaryOp

/-- An operation on two numbers. -/
def onNumbers (f : Float → Float → Value) : Value → Value → Except Fault Value
  | .number x, .number y => .ok (f x y)
  | _, _ => .error .operandsNotNumbers

/-- The value of a binary operator. Sums join strings, equations compare any two values, and the
others apply to numbers. -/
def apply : BinaryOp → Value → Value → Except Fault Value
  | add, .number x, .number y => .ok (.number (x + y))
  | add, .string s, .string t => .ok (.string (s ++ t))
  | add, _, _ => .error .operandsNotAddable
  | equal, v, w => .ok (.bool (v.equals w))
  | notEqual, v, w => .ok (.bool !(v.equals w))
  | subtract, v, w => onNumbers (fun x y => .number (x - y)) v w
  | multiply, v, w => onNumbers (fun x y => .number (x * y)) v w
  | divide, v, w => onNumbers (fun x y => .number (x / y)) v w
  | greater, v, w => onNumbers (fun x y => .bool (y < x)) v w
  | greaterEqual, v, w => onNumbers (fun x y => .bool (y ≤ x)) v w
  | less, v, w => onNumbers (fun x y => .bool (x < y)) v w
  | lessEqual, v, w => onNumbers (fun x y => .bool (x ≤ y)) v w

end BinaryOp

/-- The left operand is the value, and the right one is left alone. -/
def LogicalOp.decides : LogicalOp → Value → Bool
  | and, v => !v.truthy
  | or, v => v.truthy

end Lox
