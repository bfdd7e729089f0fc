import Lox.Eval.Fault
import Lox.Syntax.Stmt

/-!
# The names in a tree

* `Expr.names`, `Stmt.names`: the names that occur in it;
* `Expr.targets`, `Stmt.targets`: those that it assigns;
* `Stmt.exposed`: those that it declares outside all blocks in it;
* `Expr.rename`, `Stmt.rename`, `Eval.Error.rename`: other names for them.

The versions for lists of statements have `All` behind their names.
-/

namespace Lox

open Eval (Error)

namespace Expr

/-- The names that occur in the expression. -/
def names : Expr → List String
  | literal _ => []
  | var n => [n.text]
  | grouping e | unary _ _ e => e.names
  | binary _ _ l r | logical _ _ l r => l.names ++ r.names
  | assign n e => n.text :: e.names

/-- The names that the expression assigns. -/
def targets : Expr → List String
  | literal _ | var _ => []
  | grouping e | unary _ _ e => e.targets
  | binary _ _ l r | logical _ _ l r => l.targets ++ r.targets
  | assign n e => n.text :: e.targets

end Expr

namespace Stmt

mutual

/-- The names that occur in the statement. -/
def names : Stmt → List String
  | expression e | print e => e.names
  | declare n none => [n.text]
  | declare n (some e) => n.text :: e.names
  | block ss => namesAll ss
  | ifThen c s | loop c s => c.names ++ s.names
  | ifElse c s t => c.names ++ (s.names ++ t.names)

/-- The names that occur in the statements. -/
def namesAll : List Stmt → List String
  | [] => []
  | s :: ss => s.names ++ namesAll ss

end

mutual

/-- The names that the statement assigns. -/
def targets : Stmt → List String
  | expression e | print e | declare _ (some e) => e.targets
  | declare _ none => []
  | block ss => targetsAll ss
  | ifThen c s | loop c s => c.targets ++ s.targets
  | ifElse c s t => c.targets ++ (s.targets ++ t.targets)

/-- The names that the statements assign. -/
def targetsAll : List Stmt → List String
  | [] => []
  | s :: ss => s.targets ++ targetsAll ss

end

/-- The names that the statement declares outside all blocks in it. -/
def exposed : Stmt → List String
  | declare n _ => [n.text]
  | ifThen _ s | loop _ s => s.exposed
  | ifElse _ s t => s.exposed ++ t.exposed
  | expression _ | print _ | block _ => []

/-- The names that the statements declare outside all blocks in them. -/
def exposedAll (ss : List Stmt) : List String := ss.flatMap exposed

end Stmt

/-! ## Other names -/

section

variable (r : String → String)

/-- The name with another text. -/
def Name.rename (n : Name) : Name := { n with text := r n.text }

/-- The expression with other names. -/
def Expr.rename : Expr → Expr
  | literal v => literal v
  | grouping e => grouping e.rename
  | unary op line e => unary op line e.rename
  | binary op line a b => binary op line a.rename b.rename
  | logical op line a b => logical op line a.rename b.rename
  | var n => var (n.rename r)
  | assign n e => assign (n.rename r) e.rename

namespace Stmt

mutual

/-- The statement with other names. -/
def rename : Stmt → Stmt
  | expression e => expression (e.rename r)
  | print e => print (e.rename r)
  | declare n initializer => declare (n.rename r) (initializer.map (·.rename r))
  | block ss => block (renameAll ss)
  | ifThen c s => ifThen (c.rename r) s.rename
  | ifElse c s t => ifElse (c.rename r) s.rename t.rename
  | loop c s => loop (c.rename r) s.rename

/-- The statements with other names. -/
def renameAll : List Stmt → List Stmt
  | [] => []
  | s :: ss => s.rename :: renameAll ss

end

end Stmt

/-- The error as it is met with other names. -/
def Eval.Error.rename (e : Error) : Error :=
  { e with fault := match e.fault with
      | .undefined n => .undefined (r n)
      | f => f }

end

end Lox
