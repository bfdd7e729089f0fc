import Lox.Token.Basic
import Lox.Syntax.Stmt

/-!
# The grammar

Which token sequences are expressions, statements and programs, and with which tree.

* `Rung`, `Rung.next`, `Rung.rank`: the nine rungs of the ladder of expressions;
* `Atom`, `Expression`: expressions of a rung. In a chain of operators of one rung the left
  operand may be a chain and the right one stands higher, so the chain associates to the left;
* `Statement`, `Declaration`, `Declarations`: statements, and programs as lists of declarations.
  An `else` may belong to any `if` before it (see `Lox.Proofs.Grammar.Else`);
* `Expression.first`, `Declaration.first`: the tokens that may come first.
-/

namespace Lox.Grammar

open Token (Kind)

/-! ## Expressions -/

/-- The rungs of the ladder of expressions; operators bind tighter on a higher rung. -/
inductive Rung where
  | assignment | disjunction | conjunction | equality | comparison | term | factor | unary | primary
  deriving DecidableEq, Repr

namespace Rung

/-- The rung above, on which the operands of the operators of a rung stand. -/
def next : Rung → Rung
  | assignment => disjunction
  | disjunction => conjunction
  | conjunction => equality
  | equality => comparison
  | comparison => term
  | term => factor
  | factor => unary
  | unary | primary => primary

/-- The number of rungs below. -/
def rank : Rung → Nat
  | assignment => 0
  | disjunction => 1
  | conjunction => 2
  | equality => 3
  | comparison => 4
  | term => 5
  | factor => 6
  | unary => 7
  | primary => 8

theorem rank_le (g : Rung) : g.rank ≤ 8 := by cases g <;> decide

theorem rank_next (g : Rung) : g.next.rank = min (g.rank + 1) 8 := by cases g <;> rfl

theorem rank_injective {g h : Rung} (e : g.rank = h.rank) : g = h := by
  cases g <;> cases h <;> first | rfl | cases e

end Rung

/-- The rung of an operator. -/
def binaryRung : BinaryOp → Rung
  | .equal | .notEqual => .equality
  | .greater | .greaterEqual | .less | .lessEqual => .comparison
  | .add | .subtract => .term
  | .multiply | .divide => .factor

/-- The rung of a logical operator. -/
def logicalRung : LogicalOp → Rung
  | .or => .disjunction
  | .and => .conjunction

theorem rank_binaryRung (op : BinaryOp) : (binaryRung op).rank = op.level := by cases op <;> rfl

theorem rank_logicalRung (op : LogicalOp) : (logicalRung op).rank = op.level := by cases op <;> rfl

/-- A token that is an expression by itself. A number or string that carries no value stands for
`nil`. -/
inductive Atom : Token → Expr → Prop
  | ofFalse {t : Token} : t.kind = .falseKw → Atom t (.literal (.bool false))
  | ofTrue {t : Token} : t.kind = .trueKw → Atom t (.literal (.bool true))
  | ofNil {t : Token} : t.kind = .nilKw → Atom t (.literal .nil)
  | number {t : Token} : t.kind = .number → Atom t (.literal (t.literal.getD .nil))
  | string {t : Token} : t.kind = .string → Atom t (.literal (t.literal.getD .nil))
  | name {t : Token} : t.kind = .identifier → Atom t (.var ⟨t.lexeme, t.line⟩)

/-- The tokens of an expression of a rung, with its tree. Every operator and name lies on the
line of its own token. -/
inductive Expression : Rung → List Token → Expr → Prop
  | atom {t : Token} {e : Expr} : Atom t e → Expression .primary [t] e
  | grouping {l r : Token} {ts : List Token} {e : Expr} : l.kind = .leftParen →
      Expression .assignment ts e → r.kind = .rightParen →
      Expression .primary (l :: (ts ++ [r])) (.grouping e)
  | unary {t : Token} {ts : List Token} {op : UnaryOp} {e : Expr} : t.kind = op.kind →
      Expression .unary ts e → Expression .unary (t :: ts) (.unary op t.line e)
  | binary {t : Token} {us vs : List Token} {op : BinaryOp} {l r : Expr} :
      Expression (binaryRung op) us l → t.kind = op.kind → Expression (binaryRung op).next vs r →
      Expression (binaryRung op) (us ++ t :: vs) (.binary op t.line l r)
  | logical {t : Token} {us vs : List Token} {op : LogicalOp} {l r : Expr} :
      Expression (logicalRung op) us l → t.kind = op.kind →
      Expression (logicalRung op).next vs r →
      Expression (logicalRung op) (us ++ t :: vs) (.logical op t.line l r)
  | assign {n q : Token} {ts : List Token} {e : Expr} : n.kind = .identifier → q.kind = .equal →
      Expression .assignment ts e →
      Expression .assignment (n :: q :: ts) (.assign ⟨n.lexeme, n.line⟩ e)
  | above {g : Rung} {ts : List Token} {e : Expr} : Expression g.next ts e → Expression g ts e

namespace Expression

variable {g h : Rung} {ts : List Token} {e : Expr}

/-- An expression of a rung is one of every rung below. -/
theorem lower (hgh : h.rank ≤ g.rank) (hd : Expression g ts e) : Expression h ts e := by
  obtain ⟨n, hn⟩ := Nat.exists_eq_add_of_le hgh
  induction n generalizing h with
  | zero => exact Rung.rank_injective hn ▸ hd
  | succ n ih =>
    have hg := g.rank_le
    have hnext := h.rank_next
    exact .above (ih (by omega) (by omega))

/-- The kinds of the tokens with which an expression begins. -/
def firstKinds : List Kind :=
  [.bang, .minus, .leftParen, .falseKw, .trueKw, .nilKw, .number, .string, .identifier]

theorem first (hd : Expression g ts e) : ∃ t rest, ts = t :: rest ∧ t.kind ∈ firstKinds := by
  induction hd with
  | atom ha => exact ⟨_, _, rfl, by cases ha <;> simp_all [firstKinds]⟩
  | grouping hl _ _ _ => exact ⟨_, _, rfl, by simp [hl, firstKinds]⟩
  | @unary t ts op e hk _ _ =>
    exact ⟨_, _, rfl, by cases op <;> simp [hk, firstKinds, UnaryOp.kind]⟩
  | binary _ _ _ ihl _ | logical _ _ _ ihl _ =>
    obtain ⟨t, rest, rfl, ht⟩ := ihl
    exact ⟨t, _, rfl, ht⟩
  | assign hn _ _ _ => exact ⟨_, _, rfl, by simp [hn, firstKinds]⟩
  | above _ ih => exact ih

/-- Above the assignments only a lone identifier is a variable. -/
theorem eq_of_var {n : Name} (hd : Expression g ts (.var n)) :
    ∃ t, ts = [t] ∧ t.kind = .identifier ∧ n = ⟨t.lexeme, t.line⟩ := by
  generalize he : Expr.var n = e at hd
  induction hd with
  | atom ha =>
    cases ha with
    | name hk => exact ⟨_, rfl, hk, by cases he; rfl⟩
    | _ => cases he
  | above _ ih => exact ih he
  | _ => cases he

/-- An expression whose tree is a group stands in parentheses. -/
theorem eq_of_grouping (hd : Expression g ts (.grouping e)) : ∃ l us r, ts = l :: (us ++ [r]) ∧
    l.kind = .leftParen ∧ Expression .assignment us e ∧ r.kind = .rightParen := by
  generalize he : Expr.grouping e = e' at hd
  induction hd with
  | atom ha => cases ha <;> cases he
  | grouping hl hinner hr =>
    cases he
    exact ⟨_, _, _, rfl, hl, hinner, hr⟩
  | above _ ih => exact ih he
  | _ => cases he

end Expression

/-! ## Statements -/

mutual

/-- The tokens of a statement that declares nothing, with its tree. -/
inductive Statement : List Token → Stmt → Prop
  | expression {ts : List Token} {t : Token} {e : Expr} : Expression .assignment ts e →
      t.kind = .semicolon → Statement (ts ++ [t]) (.expression e)
  | print {p t : Token} {ts : List Token} {e : Expr} : p.kind = .printKw →
      Expression .assignment ts e → t.kind = .semicolon → Statement (p :: (ts ++ [t])) (.print e)
  | block {l r : Token} {ts : List Token} {ss : List Stmt} : l.kind = .leftBrace →
      Declarations ts ss → r.kind = .rightBrace → Statement (l :: (ts ++ [r])) (.block ss)
  | ifThen {i l r : Token} {us vs : List Token} {c : Expr} {s : Stmt} : i.kind = .ifKw →
      l.kind = .leftParen → Expression .assignment us c → r.kind = .rightParen →
      Statement vs s → Statement (i :: l :: (us ++ r :: vs)) (.ifThen c s)
  | ifElse {i l r f : Token} {us vs ws : List Token} {c : Expr} {s t : Stmt} : i.kind = .ifKw →
      l.kind = .leftParen → Expression .assignment us c → r.kind = .rightParen →
      Statement vs s → f.kind = .elseKw → Statement ws t →
      Statement (i :: l :: (us ++ r :: (vs ++ f :: ws))) (.ifElse c s t)
  | loop {w l r : Token} {us vs : List Token} {c : Expr} {s : Stmt} : w.kind = .whileKw →
      l.kind = .leftParen → Expression .assignment us c → r.kind = .rightParen →
      Statement vs s → Statement (w :: l :: (us ++ r :: vs)) (.loop c s)

/-- The tokens of a declaration, with its tree. A statement counts as one. -/
inductive Declaration : List Token → Stmt → Prop
  | plain {v n t : Token} : v.kind = .varKw → n.kind = .identifier → t.kind = .semicolon →
      Declaration [v, n, t] (.declare ⟨n.lexeme, n.line⟩ none)
  | initialized {v n q t : Token} {ts : List Token} {e : Expr} : v.kind = .varKw →
      n.kind = .identifier → q.kind = .equal → Expression .assignment ts e →
      t.kind = .semicolon →
      Declaration (v :: n :: q :: (ts ++ [t])) (.declare ⟨n.lexeme, n.line⟩ (some e))
  | statement {ts : List Token} {s : Stmt} : Statement ts s → Declaration ts s

/-- The tokens of several declarations in order, with their trees. -/
inductive Declarations : List Token → List Stmt → Prop
  | nil : Declarations [] []
  | cons {us vs : List Token} {s : Stmt} {ss : List Stmt} : Declaration us s →
      Declarations vs ss → Declarations (us ++ vs) (s :: ss)

end

theorem Statement.first {ts : List Token} {s : Stmt} (h : Statement ts s) :
    ∃ t rest, ts = t :: rest ∧ t.kind ≠ .elseKw := by
  cases h with
  | expression he _ =>
    obtain ⟨t, rest, rfl, ht⟩ := he.first
    exact ⟨t, _, rfl, fun hk => by simp [hk, Expression.firstKinds] at ht⟩
  | print hk _ _ => exact ⟨_, _, rfl, by simp [hk]⟩
  | block hk _ _ => exact ⟨_, _, rfl, by simp [hk]⟩
  | ifThen hk _ _ _ _ => exact ⟨_, _, rfl, by simp [hk]⟩
  | ifElse hk _ _ _ _ _ _ => exact ⟨_, _, rfl, by simp [hk]⟩
  | loop hk _ _ _ _ => exact ⟨_, _, rfl, by simp [hk]⟩

theorem Declaration.first {ts : List Token} {s : Stmt} (h : Declaration ts s) :
    ∃ t rest, ts = t :: rest ∧ t.kind ≠ .elseKw := by
  cases h with
  | plain hk _ _ => exact ⟨_, _, rfl, by simp [hk]⟩
  | initialized hk _ _ _ _ => exact ⟨_, _, rfl, by simp [hk]⟩
  | statement hs => exact hs.first

end Lox.Grammar
