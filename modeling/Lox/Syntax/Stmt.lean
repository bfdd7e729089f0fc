import Lox.Syntax.Expr

/-!
# Statements

* `Stmt`: statements;
* `Stmt.same`: equality of trees with the language's equality on literals;
* `Stmt.write`, `Stmt.text`: a tree in parenthesised form.
-/

namespace Lox

/-- Statements. A declaration without initializer makes its variable `nil`. -/
inductive Stmt where
  | expression (e : Expr)
  | print (e : Expr)
  | declare (name : Name) (initializer : Option Expr)
  | block (body : List Stmt)
  | ifThen (condition : Expr) (thenBranch : Stmt)
  | ifElse (condition : Expr) (thenBranch elseBranch : Stmt)
  | loop (condition : Expr) (body : Stmt)
  deriving Inhabited

namespace Stmt

mutual

/-- The two trees have the same shape, names and lines, and literals that are equal as values. -/
def same : Stmt → Stmt → Bool
  | expression e, expression f => e.same f
  | print e, print f => e.same f
  | declare n none, declare n' none => n == n'
  | declare n (some e), declare n' (some f) => n == n' && e.same f
  | block ss, block ts => sameAll ss ts
  | ifThen c s, ifThen c' s' => c.same c' && s.same s'
  | ifElse c s t, ifElse c' s' t' => c.same c' && s.same s' && t.same t'
  | loop c s, loop c' s' => c.same c' && s.same s'
  | _, _ => false

/-- The statements of two lists are the same one by one. -/
def sameAll : List Stmt → List Stmt → Bool
  | [], [] => true
  | s :: ss, t :: ts => s.same t && sameAll ss ts
  | _, _ => false

end

mutual

/-- The characters of a tree, followed by `rest`. -/
def write : Stmt → List Char → List Char
  | expression e, rest => Expr.opening ";" (' ' :: e.write (')' :: rest))
  | print e, rest => Expr.opening "print" (' ' :: e.write (')' :: rest))
  | declare n none, rest => Expr.opening "var" (' ' :: n.text.toList ++ ')' :: rest)
  | declare n (some e), rest =>
    Expr.opening "var" (' ' :: n.text.toList ++ ' ' :: e.write (')' :: rest))
  | block ss, rest => Expr.opening "block" (writeAll ss (')' :: rest))
  | ifThen c s, rest => Expr.opening "if" (' ' :: c.write (' ' :: s.write (')' :: rest)))
  | ifElse c s t, rest =>
    Expr.opening "if" (' ' :: c.write (' ' :: s.write (' ' :: t.write (')' :: rest))))
  | loop c s, rest => Expr.opening "while" (' ' :: c.write (' ' :: s.write (')' :: rest)))

/-- The statements of a block, each after a space, followed by `rest`. -/
def writeAll : List Stmt → List Char → List Char
  | [], rest => rest
  | s :: ss, rest => ' ' :: s.write (writeAll ss rest)

end

/-- A tree in parenthesised form, such as `(print (+ 1 2))`. -/
def text (s : Stmt) : String := String.ofList (s.write [])

end Stmt

end Lox
