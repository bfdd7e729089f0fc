import Lox.Eval.Stmt

/-!
# The rules of evaluation

How programs run, rule by rule. Nothing bounds the rounds of a loop: a program that does not end
has no derivation.

* `Value.Falsy`, `Value.Equal`: conditions and equality;
* `UnaryOp.Gives`, `BinaryOp.Gives`, `LogicalOp.Decided`: what operators do with values;
* `Chain.scopes`, `Chain.Nearest`: the active scopes, and the one that answers for a name;
* `Evaluates`: the rules for expressions;
* `Runs`, `RunsAll`: the rules for statements, with the text that they print.
-/

namespace Lox

open Eval (Fault Error)

/-! ## Values -/

namespace Value

/-- `nil` and `false` count as false, and every other value as true. -/
def Falsy (v : Value) : Prop := v = .nil ∨ v = .bool false

/-- Values are equal within one type only; numbers are compared as IEEE 754 has it. -/
inductive Equal : Value → Value → Prop
  | nil : Equal nil nil
  | bool (b : Bool) : Equal (bool b) (bool b)
  | number {x y : Float} : (x == y) = true → Equal (number x) (number y)
  | string (s : String) : Equal (string s) (string s)

/-- Two values of which one at least is no number. -/
def NotNumbers (v w : Value) : Prop := ∀ x y : Float, ¬ (v = .number x ∧ w = .number y)

/-- Two values of which one at least is no string. -/
def NotStrings (v w : Value) : Prop := ∀ s t : String, ¬ (v = .string s ∧ w = .string t)

end Value

/-! ## Operators -/

/-- What a unary operator gives for a value. -/
inductive UnaryOp.Gives : UnaryOp → Value → Except Fault Value → Prop
  | negate (x : Float) : Gives .negate (.number x) (.ok (.number (-x)))
  | negateOther {v : Value} : (∀ x, v ≠ .number x) → Gives .negate v (.error .operandNotNumber)
  | notFalsy {v : Value} : v.Falsy → Gives .not v (.ok (.bool true))
  | notTruthy {v : Value} : ¬ v.Falsy → Gives .not v (.ok (.bool false))

namespace BinaryOp

/-- What arithmetic and comparisons, sums aside, give for two numbers. -/
inductive OfNumbers : BinaryOp → Float → Float → Value → Prop
  | subtract (x y : Float) : OfNumbers .subtract x y (.number (x - y))
  | multiply (x y : Float) : OfNumbers .multiply x y (.number (x * y))
  | divide (x y : Float) : OfNumbers .divide x y (.number (x / y))
  | greater (x y : Float) : OfNumbers .greater x y (.bool (x > y))
  | greaterEqual (x y : Float) : OfNumbers .greaterEqual x y (.bool (x ≥ y))
  | less (x y : Float) : OfNumbers .less x y (.bool (x < y))
  | lessEqual (x y : Float) : OfNumbers .lessEqual x y (.bool (x ≤ y))

/-- What a binary operator gives for two values. -/
inductive Gives : BinaryOp → Value → Value → Except Fault Value → Prop
  | addNumbers (x y : Float) : Gives .add (.number x) (.number y) (.ok (.number (x + y)))
  | addStrings (s t : String) : Gives .add (.string s) (.string t) (.ok (.string (s ++ t)))
  | addOther {v w : Value} : v.NotNumbers w → v.NotStrings w →
      Gives .add v w (.error .operandsNotAddable)
  | numbers {op : BinaryOp} {x y : Float} {v : Value} : op.OfNumbers x y v →
      Gives op (.number x) (.number y) (.ok v)
  | notNumbers {op : BinaryOp} {v w : Value} : op ∉ [.add, .equal, .notEqual] → v.NotNumbers w →
      Gives op v w (.error .operandsNotNumbers)
  | equal {v w : Value} : v.Equal w → Gives .equal v w (.ok (.bool true))
  | equalNot {v w : Value} : ¬ v.Equal w → Gives .equal v w (.ok (.bool false))
  | notEqual {v w : Value} : v.Equal w → Gives .notEqual v w (.ok (.bool false))
  | notEqualNot {v w : Value} : ¬ v.Equal w → Gives .notEqual v w (.ok (.bool true))

end BinaryOp

/-- The left operand decides, and the right one is not evaluated. -/
def LogicalOp.Decided : LogicalOp → Value → Prop
  | .and, v => v.Falsy
  | .or, v => ¬ v.Falsy

/-! ## Scopes -/

namespace Chain

/-- The active scopes, the innermost first and the global one last. -/
def scopes (c : Chain) : List Scope := c.locals ++ [c.globals]

/-- The scope `s` is the innermost that has the name. -/
structure Nearest (c : Chain) (name : String) (inner : List Scope) (s : Scope)
    (outer : List Scope) : Prop where
  split : c.scopes = inner ++ s :: outer
  has : s.contains name = true
  passed : ∀ t ∈ inner, t.contains name = false

/-- No active scope has the name. -/
def Unbound (c : Chain) (name : String) : Prop := ∀ s ∈ c.scopes, s.contains name = false

/-- The chain `d` is `c` with the name bound in the innermost scope. -/
def Binds (c : Chain) (name : String) (v : Value) (d : Chain) : Prop :=
  ∃ s outer, c.scopes = s :: outer ∧ d.scopes = s.define name v :: outer

end Chain

namespace Eval

/-! ## Expressions -/

/-- The expression, evaluated in the scopes `c`, has the value or ends in the error, and leaves
the scopes `d`. -/
inductive Evaluates : Expr → Chain → Except Error Value → Chain → Prop
  | literal (v : Value) (c : Chain) : Evaluates (.literal v) c (.ok v) c
  | grouping {e : Expr} {c d : Chain} {r : Except Error Value} : Evaluates e c r d →
      Evaluates (.grouping e) c r d
  | unary {op : UnaryOp} {line : Nat} {e : Expr} {c d : Chain} {v w : Value} :
      Evaluates e c (.ok v) d → op.Gives v (.ok w) → Evaluates (.unary op line e) c (.ok w) d
  | unaryFault {op : UnaryOp} {line : Nat} {e : Expr} {c d : Chain} {v : Value} {f : Fault} :
      Evaluates e c (.ok v) d → op.Gives v (.error f) →
      Evaluates (.unary op line e) c (.error ⟨f, line⟩) d
  | unaryOperand {op : UnaryOp} {line : Nat} {e : Expr} {c d : Chain} {err : Error} :
      Evaluates e c (.error err) d → Evaluates (.unary op line e) c (.error err) d
  | binary {op : BinaryOp} {line : Nat} {l r : Expr} {c d d' : Chain} {v w u : Value} :
      Evaluates l c (.ok v) d → Evaluates r d (.ok w) d' → op.Gives v w (.ok u) →
      Evaluates (.binary op line l r) c (.ok u) d'
  | binaryFault {op : BinaryOp} {line : Nat} {l r : Expr} {c d d' : Chain} {v w : Value}
      {f : Fault} : Evaluates l c (.ok v) d → Evaluates r d (.ok w) d' →
      op.Gives v w (.error f) → Evaluates (.binary op line l r) c (.error ⟨f, line⟩) d'
  | binaryLeft {op : BinaryOp} {line : Nat} {l r : Expr} {c d : Chain} {err : Error} :
      Evaluates l c (.error err) d → Evaluates (.binary op line l r) c (.error err) d
  | binaryRight {op : BinaryOp} {line : Nat} {l r : Expr} {c d d' : Chain} {v : Value}
      {err : Error} : Evaluates l c (.ok v) d → Evaluates r d (.error err) d' →
      Evaluates (.binary op line l r) c (.error err) d'
  | logicalDecided {op : LogicalOp} {line : Nat} {l r : Expr} {c d : Chain} {v : Value} :
      Evaluates l c (.ok v) d → op.Decided v → Evaluates (.logical op line l r) c (.ok v) d
  | logicalRight {op : LogicalOp} {line : Nat} {l r : Expr} {c d d' : Chain} {v : Value}
      {result : Except Error Value} : Evaluates l c (.ok v) d → ¬ op.Decided v →
      Evaluates r d result d' → Evaluates (.logical op line l r) c result d'
  | logicalLeft {op : LogicalOp} {line : Nat} {l r : Expr} {c d : Chain} {err : Error} :
      Evaluates l c (.error err) d → Evaluates (.logical op line l r) c (.error err) d
  | var {n : Name} {c : Chain} {inner outer : List Scope} {s : Scope} {v : Value} :
      c.Nearest n.text inner s outer → s.get? n.text = some v → Evaluates (.var n) c (.ok v) c
  | varUnbound {n : Name} {c : Chain} : c.Unbound n.text →
      Evaluates (.var n) c (.error ⟨.undefined n.text, n.line⟩) c
  | assign {n : Name} {e : Expr} {c d d' : Chain} {inner outer : List Scope} {s : Scope}
      {v : Value} : Evaluates e c (.ok v) d → d.Nearest n.text inner s outer →
      d'.scopes = inner ++ s.define n.text v :: outer → Evaluates (.assign n e) c (.ok v) d'
  | assignUnbound {n : Name} {e : Expr} {c d : Chain} {v : Value} : Evaluates e c (.ok v) d →
      d.Unbound n.text → Evaluates (.assign n e) c (.error ⟨.undefined n.text, n.line⟩) d
  | assignValue {n : Name} {e : Expr} {c d : Chain} {err : Error} :
      Evaluates e c (.error err) d → Evaluates (.assign n e) c (.error err) d

/-! ## Statements -/

mutual

/-- The statement, run in the scopes `c`, ends well or in the error, leaves the scopes `d` and has
printed the text. -/
inductive Runs : Stmt → Chain → Except Error Unit → Chain → String → Prop
  | expression {e : Expr} {c d : Chain} {v : Value} : Evaluates e c (.ok v) d →
      Runs (.expression e) c (.ok ()) d ""
  | expressionFails {e : Expr} {c d : Chain} {err : Error} : Evaluates e c (.error err) d →
      Runs (.expression e) c (.error err) d ""
  | print {e : Expr} {c d : Chain} {v : Value} : Evaluates e c (.ok v) d →
      Runs (.print e) c (.ok ()) d (v.text ++ "\n")
  | printFails {e : Expr} {c d : Chain} {err : Error} : Evaluates e c (.error err) d →
      Runs (.print e) c (.error err) d ""
  | declare {n : Name} {c d : Chain} : c.Binds n.text .nil d →
      Runs (.declare n none) c (.ok ()) d ""
  | declareValue {n : Name} {e : Expr} {c d d' : Chain} {v : Value} : Evaluates e c (.ok v) d →
      d.Binds n.text v d' → Runs (.declare n (some e)) c (.ok ()) d' ""
  | declareFails {n : Name} {e : Expr} {c d : Chain} {err : Error} :
      Evaluates e c (.error err) d → Runs (.declare n (some e)) c (.error err) d ""
  /-- Whatever the result, the fresh scope is gone afterwards. -/
  | block {ss : List Stmt} {c c' d d' : Chain} {s : Scope} {result : Except Error Unit}
      {out : String} : c'.scopes = {} :: c.scopes → RunsAll ss c' result d' out →
      d'.scopes = s :: d.scopes → Runs (.block ss) c result d out
  | ifThen {e : Expr} {t : Stmt} {c d d' : Chain} {v : Value} {result : Except Error Unit}
      {out : String} : Evaluates e c (.ok v) d → ¬ v.Falsy → Runs t d result d' out →
      Runs (.ifThen e t) c result d' out
  | ifThenSkips {e : Expr} {t : Stmt} {c d : Chain} {v : Value} : Evaluates e c (.ok v) d →
      v.Falsy → Runs (.ifThen e t) c (.ok ()) d ""
  | ifThenFails {e : Expr} {t : Stmt} {c d : Chain} {err : Error} : Evaluates e c (.error err) d →
      Runs (.ifThen e t) c (.error err) d ""
  | ifElse {e : Expr} {t u : Stmt} {c d d' : Chain} {v : Value} {result : Except Error Unit}
      {out : String} : Evaluates e c (.ok v) d → ¬ v.Falsy → Runs t d result d' out →
      Runs (.ifElse e t u) c result d' out
  | ifElseOther {e : Expr} {t u : Stmt} {c d d' : Chain} {v : Value} {result : Except Error Unit}
      {out : String} : Evaluates e c (.ok v) d → v.Falsy → Runs u d result d' out →
      Runs (.ifElse e t u) c result d' out
  | ifElseFails {e : Expr} {t u : Stmt} {c d : Chain} {err : Error} :
      Evaluates e c (.error err) d → Runs (.ifElse e t u) c (.error err) d ""
  | loopEnds {e : Expr} {t : Stmt} {c d : Chain} {v : Value} : Evaluates e c (.ok v) d →
      v.Falsy → Runs (.loop e t) c (.ok ()) d ""
  | loopRound {e : Expr} {t : Stmt} {c d d' d'' : Chain} {v : Value} {result : Except Error Unit}
      {out out' : String} : Evaluates e c (.ok v) d → ¬ v.Falsy → Runs t d (.ok ()) d' out →
      Runs (.loop e t) d' result d'' out' → Runs (.loop e t) c result d'' (out ++ out')
  | loopBodyFails {e : Expr} {t : Stmt} {c d d' : Chain} {v : Value} {err : Error}
      {out : String} : Evaluates e c (.ok v) d → ¬ v.Falsy → Runs t d (.error err) d' out →
      Runs (.loop e t) c (.error err) d' out
  | loopFails {e : Expr} {t : Stmt} {c d : Chain} {err : Error} : Evaluates e c (.error err) d →
      Runs (.loop e t) c (.error err) d ""

/-- The same for statements one after the other: an error keeps the rest from being run. -/
inductive RunsAll : List Stmt → Chain → Except Error Unit → Chain → String → Prop
  | nil (c : Chain) : RunsAll [] c (.ok ()) c ""
  | cons {t : Stmt} {ts : List Stmt} {c d d' : Chain} {result : Except Error Unit}
      {out out' : String} : Runs t c (.ok ()) d out → RunsAll ts d result d' out' →
      RunsAll (t :: ts) c result d' (out ++ out')
  | fails {t : Stmt} {ts : List Stmt} {c d : Chain} {err : Error} {out : String} :
      Runs t c (.error err) d out → RunsAll (t :: ts) c (.error err) d out

end

end Eval

end Lox
