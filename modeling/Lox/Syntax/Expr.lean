import Lox.Syntax.Operator
import Lox.Value

/-!
# Expressions

* `Name`: a variable as it is written, with its line;
* `Expr`: expressions; operators carry the line of their token;
* `Expr.same`: equality of trees with the language's equality on literals;
* `Expr.write`, `Expr.text`: a tree in parenthesised form, its operator first.
-/

namespace Lox

/-- A variable's name as written on a line. -/
structure Name where
  text : String
  line : Nat
  deriving DecidableEq, Repr

/-- Expressions. -/
inductive Expr where
  | literal (value : Value)
  | grouping (inner : Expr)
  | unary (op : UnaryOp) (line : Nat) (operand : Expr)
  | binary (op : BinaryOp) (line : Nat) (left right : Expr)
  | logical (op : LogicalOp) (line : Nat) (left right : Expr)
  | var (name : Name)
  | assign (name : Name) (value : Expr)
  deriving DecidableEq, Inhabited

namespace Expr

/-- The two trees have the same shape, names and lines, and literals that are equal as values. -/
def same : Expr → Expr → Bool
  | literal v, literal w => v.equals w
  | grouping e, grouping f => e.same f
  | unary op line e, unary op' line' f => op == op' && line == line' && e.same f
  | binary op line l r, binary op' line' l' r' =>
    op == op' && line == line' && l.same l' && r.same r'
  | logical op line l r, logical op' line' l' r' =>
    op == op' && line == line' && l.same l' && r.same r'
  | var n, var n' => n == n'
  | assign n e, assign n' f => n == n' && e.same f
  | _, _ => false

/-- A parenthesis, the head of a form, and what follows. -/
def opening (head : String) (rest : List Char) : List Char := '(' :: head.toList ++ rest

theorem opening_append (head : String) (xs ys : List Char) :
    opening head (xs ++ ys) = opening head xs ++ ys := by
  simp only [opening, List.cons_append, List.append_assoc]

/-- The characters of a tree, followed by `rest`. -/
def write : Expr → List Char → List Char
  | literal v, rest => v.text.toList ++ rest
  | grouping e, rest => opening "group" (' ' :: e.write (')' :: rest))
  | unary op _ e, rest => opening op.symbol (' ' :: e.write (')' :: rest))
  | binary op _ l r, rest => opening op.symbol (' ' :: l.write (' ' :: r.write (')' :: rest)))
  | logical op _ l r, rest => opening op.symbol (' ' :: l.write (' ' :: r.write (')' :: rest)))
  | var n, rest => n.text.toList ++ rest
  | assign n e, rest => opening "=" (' ' :: n.text.toList ++ ' ' :: e.write (')' :: rest))

/-- A tree in parenthesised form, such as `(+ 1 (* 2 3))`. -/
def text (e : Expr) : String := String.ofList (e.write [])

/-- What follows a tree does not change how the tree is written. -/
theorem write_append (e : Expr) (xs ys : List Char) : e.write (xs ++ ys) = e.write xs ++ ys := by
  induction e generalizing xs ys with
  | literal v => simp only [write, List.append_assoc]
  | grouping e ih | unary op line e ih =>
    simp only [write]
    rw [← List.cons_append, ih, ← List.cons_append, opening_append]
  | binary op line l r ihl ihr | logical op line l r ihl ihr =>
    simp only [write]
    rw [← List.cons_append, ihr, ← List.cons_append, ihl, ← List.cons_append, opening_append]
  | var n => simp only [write, List.append_assoc]
  | assign n e ih =>
    simp only [write]
    rw [← List.cons_append, ih, ← opening_append]
    simp only [List.cons_append, List.append_assoc]

end Expr

end Lox
