import Lox.Parse.Reader

/-!
# Recursive descent

The rules that read a program by calling each other, with a cursor into the tokens. A call begins
at a place of the cursor; it returns with a tree or without one, at another place, having found
faults in order.

* `current`, `advance`: the token under the cursor, and the next place;
* `Reads`: expressions, with a level for each rank of operators;
* `Expects`: an expression and the token that must follow it;
* `Boundary`: tokens are skipped up to the next boundary;
* `Parses`: statements, declarations and blocks;
* `Collects`: the declarations up to the end.
-/

namespace Lox.Descent

open Token (Kind)
open Parse (Placed Cause Fault Use atom?)

variable (tokens : List Token)

/-! ## The cursor -/

/-- The number of tokens before the first end. -/
def size : Nat := (Parse.before tokens).length

/-- The token under the cursor. Behind the last token there is an end. -/
def current (p : Nat) : Placed :=
  ⟨tokens[p]?.getD (.endOn ((tokens.getLast?.map (·.line)).getD 1)), p⟩

/-- The kind of the token under the cursor. -/
def kind (p : Nat) : Kind := (current tokens p).kind

/-- The next place. No end is passed. -/
def advance (p : Nat) : Nat := if kind tokens p = .eof then p else p + 1

/-! ## Expressions -/

/-- The level of an operator that stands between operands, and the tree that it makes of them. -/
def operator? (t : Token) : Option (Nat × (Expr → Expr → Expr)) :=
  match BinaryOp.ofKind? t.kind with
  | some op => some (op.level, .binary op t.line)
  | none => (LogicalOp.ofKind? t.kind).map fun op => (op.level, .logical op t.line)

/-- What is read of an expression. -/
inductive Part where
  /-- An expression, be it an assignment or not. -/
  | expression
  /-- Operators of a level and above. -/
  | level (n : Nat)
  /-- More operators of a level, behind a left operand. -/
  | chain (n : Nat) (left : Expr)
  /-- What stands above all levels. -/
  | operand

/-- A call for the part of an expression returns with the tree, or with none, at the second place
and with the faults. -/
inductive Reads : Part → Nat → Option Expr → Nat → List Fault → Prop
  | atom {p : Nat} {e : Expr} : atom? (current tokens p).toToken = some e →
      Reads .operand p (some e) (p + 1) []
  | unary {p q : Nat} {op : UnaryOp} {out : Option Expr} {fs : List Fault} :
      UnaryOp.ofKind? (kind tokens p) = some op → Reads .operand (p + 1) out q fs →
      Reads .operand p (out.map (.unary op (current tokens p).line)) q fs
  | grouping {p q : Nat} {e : Expr} {fs : List Fault} : kind tokens p = .leftParen →
      Reads .expression (p + 1) (some e) q fs → kind tokens q = .rightParen →
      Reads .operand p (some (.grouping e)) (q + 1) fs
  | groupingOpen {p q : Nat} {e : Expr} {fs : List Fault} : kind tokens p = .leftParen →
      Reads .expression (p + 1) (some e) q fs → kind tokens q ≠ .rightParen →
      Reads .operand p none q (fs ++ [⟨current tokens q, .closingParen⟩])
  | groupingFails {p q : Nat} {fs : List Fault} : kind tokens p = .leftParen →
      Reads .expression (p + 1) none q fs → Reads .operand p none q fs
  | noOperand {p : Nat} : atom? (current tokens p).toToken = none →
      UnaryOp.ofKind? (kind tokens p) = none → kind tokens p ≠ .leftParen →
      Reads .operand p none p [⟨current tokens p, .expression⟩]
  | above {p q : Nat} {out : Option Expr} {fs : List Fault} : Reads .operand p out q fs →
      Reads (.level 7) p out q fs
  | level {n p q q' : Nat} {left : Expr} {out : Option Expr} {fs gs : List Fault} : n < 7 →
      Reads (.level (n + 1)) p (some left) q fs → Reads (.chain n left) q out q' gs →
      Reads (.level n) p out q' (fs ++ gs)
  | levelFails {n p q : Nat} {fs : List Fault} : n < 7 → Reads (.level (n + 1)) p none q fs →
      Reads (.level n) p none q fs
  | more {n p q q' : Nat} {tree : Expr → Expr → Expr} {left right : Expr} {out : Option Expr}
      {fs gs : List Fault} : operator? (current tokens p).toToken = some (n, tree) →
      Reads (.level (n + 1)) (p + 1) (some right) q fs →
      Reads (.chain n (tree left right)) q out q' gs →
      Reads (.chain n left) p out q' (fs ++ gs)
  | moreFails {n p q : Nat} {tree : Expr → Expr → Expr} {left : Expr} {fs : List Fault} :
      operator? (current tokens p).toToken = some (n, tree) →
      Reads (.level (n + 1)) (p + 1) none q fs → Reads (.chain n left) p none q fs
  | noMore {n p : Nat} {left : Expr} :
      (∀ tree, operator? (current tokens p).toToken ≠ some (n, tree)) →
      Reads (.chain n left) p (some left) p []
  | plain {p q : Nat} {e : Expr} {fs : List Fault} : Reads (.level 1) p (some e) q fs →
      kind tokens q ≠ .equal → Reads .expression p (some e) q fs
  | plainFails {p q : Nat} {fs : List Fault} : Reads (.level 1) p none q fs →
      Reads .expression p none q fs
  | assign {p q q' : Nat} {name : Name} {value : Expr} {fs gs : List Fault} :
      Reads (.level 1) p (some (.var name)) q fs → kind tokens q = .equal →
      Reads .expression (q + 1) (some value) q' gs →
      Reads .expression p (some (.assign name value)) q' (fs ++ gs)
  | noTarget {p q q' : Nat} {e value : Expr} {fs gs : List Fault} :
      Reads (.level 1) p (some e) q fs → (∀ name, e ≠ .var name) → kind tokens q = .equal →
      Reads .expression (q + 1) (some value) q' gs →
      Reads .expression p (some e) q' (fs ++ gs ++ [⟨current tokens q, .assignmentTarget⟩])
  | valueFails {p q q' : Nat} {e : Expr} {fs gs : List Fault} :
      Reads (.level 1) p (some e) q fs → kind tokens q = .equal →
      Reads .expression (q + 1) none q' gs → Reads .expression p none q' (fs ++ gs)

/-- An expression and the token that must follow it. -/
inductive Expects (use : Use) : Nat → Option Expr → Nat → List Fault → Prop
  | closed {p q : Nat} {e : Expr} {fs : List Fault} : Reads tokens .expression p (some e) q fs →
      kind tokens q = use.closer → Expects use p (some e) (q + 1) fs
  | missing {p q : Nat} {e : Expr} {fs : List Fault} : Reads tokens .expression p (some e) q fs →
      kind tokens q ≠ use.closer → Expects use p none q (fs ++ [⟨current tokens q, use.cause⟩])
  | fails {p q : Nat} {fs : List Fault} : Reads tokens .expression p none q fs →
      Expects use p none q fs

/-! ## Statements -/

/-- Tokens are skipped from the first place, whose token has been passed before, up to the next
boundary: the end, a place behind a semicolon, or a keyword that begins a statement. -/
inductive Boundary : Nat → Nat → Prop
  | ended {p : Nat} : kind tokens p = .eof → Boundary p p
  | found {p : Nat} : kind tokens p ≠ .eof →
      Parse.Reader.isBoundary (kind tokens (p - 1)) (current tokens p) = true → Boundary p p
  | next {p q : Nat} : kind tokens p ≠ .eof →
      Parse.Reader.isBoundary (kind tokens (p - 1)) (current tokens p) = false →
      Boundary (p + 1) q → Boundary p q

/-- What is read of a program. -/
inductive Task where
  | statement
  /-- A declaration, up to its first fault. -/
  | attempt
  /-- A declaration; after a fault the cursor is moved to the next boundary. -/
  | declaration
  /-- A block from behind its brace, or from behind some of its statements. -/
  | block (done : List Stmt)

/-- A call for the task returns with the tree, or with none, at the second place and with the
faults. -/
inductive Parses : Task → Nat → Option Stmt → Nat → List Fault → Prop
  | print {p q : Nat} {out : Option Expr} {fs : List Fault} : kind tokens p = .printKw →
      Expects tokens .value (p + 1) out q fs → Parses .statement p (out.map .print) q fs
  | block {p q : Nat} {out : Option Stmt} {fs : List Fault} : kind tokens p = .leftBrace →
      Parses (.block []) (p + 1) out q fs → Parses .statement p out q fs
  | ifOpen {p : Nat} : kind tokens p = .ifKw → kind tokens (p + 1) ≠ .leftParen →
      Parses .statement p none (p + 1) [⟨current tokens (p + 1), .parenAfterIf⟩]
  | ifFails {p q : Nat} {fs : List Fault} : kind tokens p = .ifKw →
      kind tokens (p + 1) = .leftParen → Expects tokens .ifCondition (p + 2) none q fs →
      Parses .statement p none q fs
  | thenFails {p q q' : Nat} {c : Expr} {fs gs : List Fault} : kind tokens p = .ifKw →
      kind tokens (p + 1) = .leftParen → Expects tokens .ifCondition (p + 2) (some c) q fs →
      Parses .statement q none q' gs → Parses .statement p none q' (fs ++ gs)
  | ifThen {p q q' : Nat} {c : Expr} {s : Stmt} {fs gs : List Fault} : kind tokens p = .ifKw →
      kind tokens (p + 1) = .leftParen → Expects tokens .ifCondition (p + 2) (some c) q fs →
      Parses .statement q (some s) q' gs → kind tokens q' ≠ .elseKw →
      Parses .statement p (some (.ifThen c s)) q' (fs ++ gs)
  | ifElse {p q q' q'' : Nat} {c : Expr} {s : Stmt} {out : Option Stmt} {fs gs hs : List Fault} :
      kind tokens p = .ifKw → kind tokens (p + 1) = .leftParen →
      Expects tokens .ifCondition (p + 2) (some c) q fs →
      Parses .statement q (some s) q' gs → kind tokens q' = .elseKw →
      Parses .statement (q' + 1) out q'' hs →
      Parses .statement p (out.map (.ifElse c s)) q'' (fs ++ gs ++ hs)
  | whileOpen {p : Nat} : kind tokens p = .whileKw → kind tokens (p + 1) ≠ .leftParen →
      Parses .statement p none (p + 1) [⟨current tokens (p + 1), .parenAfterWhile⟩]
  | whileFails {p q : Nat} {fs : List Fault} : kind tokens p = .whileKw →
      kind tokens (p + 1) = .leftParen → Expects tokens .loopCondition (p + 2) none q fs →
      Parses .statement p none q fs
  | loop {p q q' : Nat} {c : Expr} {out : Option Stmt} {fs gs : List Fault} :
      kind tokens p = .whileKw → kind tokens (p + 1) = .leftParen →
      Expects tokens .loopCondition (p + 2) (some c) q fs → Parses .statement q out q' gs →
      Parses .statement p (out.map (.loop c)) q' (fs ++ gs)
  | expression {p q : Nat} {out : Option Expr} {fs : List Fault} :
      kind tokens p ∉ [Kind.printKw, .leftBrace, .ifKw, .whileKw] →
      Expects tokens .statement p out q fs → Parses .statement p (out.map .expression) q fs
  | nameless {p : Nat} : kind tokens p = .varKw → kind tokens (p + 1) ≠ .identifier →
      Parses .attempt p none (p + 1) [⟨current tokens (p + 1), .variableName⟩]
  | unended {p : Nat} : kind tokens p = .varKw → kind tokens (p + 1) = .identifier →
      kind tokens (p + 2) ∉ [Kind.equal, .semicolon] →
      Parses .attempt p none (p + 2) [⟨current tokens (p + 2), .semicolonAfterDeclaration⟩]
  | declared {p : Nat} : kind tokens p = .varKw → kind tokens (p + 1) = .identifier →
      kind tokens (p + 2) = .semicolon → Parses .attempt p
        (some (.declare ⟨(current tokens (p + 1)).lexeme, (current tokens (p + 1)).line⟩ none))
        (p + 3) []
  | initialized {p q : Nat} {name : Name} {out : Option Expr} {fs : List Fault} :
      kind tokens p = .varKw → kind tokens (p + 1) = .identifier →
      name = ⟨(current tokens (p + 1)).lexeme, (current tokens (p + 1)).line⟩ →
      kind tokens (p + 2) = .equal → Expects tokens (.initializer name) (p + 3) out q fs →
      Parses .attempt p (out.map fun e => .declare name (some e)) q fs
  | undeclared {p q : Nat} {out : Option Stmt} {fs : List Fault} : kind tokens p ≠ .varKw →
      Parses .statement p out q fs → Parses .attempt p out q fs
  | succeeds {p q : Nat} {s : Stmt} {fs : List Fault} : Parses .attempt p (some s) q fs →
      Parses .declaration p (some s) q fs
  | recovers {p q q' : Nat} {fs : List Fault} : Parses .attempt p none q fs →
      Boundary tokens (advance tokens q) q' → Parses .declaration p none q' fs
  | closed {p : Nat} {done : List Stmt} : kind tokens p = .rightBrace →
      Parses (.block done) p (some (.block done)) (p + 1) []
  | missing {p : Nat} {done : List Stmt} : kind tokens p = .eof →
      Parses (.block done) p none p [⟨current tokens p, .braceAfterBlock⟩]
  | next {p q q' : Nat} {done : List Stmt} {slot out : Option Stmt} {fs gs : List Fault} :
      kind tokens p ∉ [Kind.rightBrace, .eof] → Parses .declaration p slot q fs →
      Parses (.block (done ++ slot.toList)) q out q' gs →
      Parses (.block done) p out q' (fs ++ gs)

/-- The declarations from a place to the end: a slot for each, the place where they end, and the
faults. -/
inductive Collects : Nat → List (Option Stmt) → Nat → List Fault → Prop
  | ended {p : Nat} : kind tokens p = .eof → Collects p [] p []
  | next {p q q' : Nat} {slot : Option Stmt} {slots : List (Option Stmt)} {fs gs : List Fault} :
      kind tokens p ≠ .eof → Parses tokens .declaration p slot q fs → Collects q slots q' gs →
      Collects p (slot :: slots) q' (fs ++ gs)

end Lox.Descent
