import Lox.Proofs.Grammar.Rules

/-!
# Expressions with all parentheses

Any expression tree can be written with its operators between their operands, when every operand
that is no word of its own stands in parentheses. No operator then competes for an operand.

* `Infix`, `Operand`: the tokens that write a tree so (`Infix.exists_tokens`);
* `Expr.ungrouped`: a tree without its parentheses;
* `Infix.expression`: what is written so derives from the grammar, and the tree derived has the
  tree written, but for parentheses.
-/

namespace Lox

open Token (Kind)

/-- The tree without its groupings. -/
def Expr.ungrouped : Expr → Expr
  | grouping e => e.ungrouped
  | unary op line e => unary op line e.ungrouped
  | binary op line l r => binary op line l.ungrouped r.ungrouped
  | logical op line l r => logical op line l.ungrouped r.ungrouped
  | assign n e => assign n e.ungrouped
  | e => e

namespace Grammar

/-! ## Writing a tree -/

mutual

/-- The tokens write the tree with its operators between their operands. Every operator, name and
literal has a token of its own, on whose line an operator or name lies. -/
inductive Infix : List Token → Expr → Prop
  | atom {t : Token} {e : Expr} : Atom t e → Infix [t] e
  | grouping {l r : Token} {ts : List Token} {e : Expr} : l.kind = .leftParen → Infix ts e →
      r.kind = .rightParen → Infix (l :: (ts ++ [r])) (.grouping e)
  | unary {t : Token} {ts : List Token} {op : UnaryOp} {e : Expr} : t.kind = op.kind →
      Operand ts e → Infix (t :: ts) (.unary op t.line e)
  | binary {t : Token} {us vs : List Token} {op : BinaryOp} {l r : Expr} : Operand us l →
      t.kind = op.kind → Operand vs r → Infix (us ++ t :: vs) (.binary op t.line l r)
  | logical {t : Token} {us vs : List Token} {op : LogicalOp} {l r : Expr} : Operand us l →
      t.kind = op.kind → Operand vs r → Infix (us ++ t :: vs) (.logical op t.line l r)
  | assign {n q : Token} {ts : List Token} {e : Expr} : n.kind = .identifier → q.kind = .equal →
      Operand ts e → Infix (n :: q :: ts) (.assign ⟨n.lexeme, n.line⟩ e)

/-- The same for an operand or an assigned value: in parentheses, unless it is a literal or a
variable. -/
inductive Operand : List Token → Expr → Prop
  | atom {t : Token} {e : Expr} : Atom t e → Operand [t] e
  | paren {l r : Token} {ts : List Token} {e : Expr} : (∀ t, ¬ Atom t e) → l.kind = .leftParen →
      Infix ts e → r.kind = .rightParen → Operand (l :: (ts ++ [r])) e

end

theorem Operand.exists_tokens {e : Expr} (h : ∃ ts, Infix ts e) : ∃ ts, Operand ts e := by
  by_cases hatom : ∃ t, Atom t e
  · obtain ⟨t, ht⟩ := hatom
    exact ⟨[t], .atom ht⟩
  · obtain ⟨ts, hts⟩ := h
    let l : Token := { kind := .leftParen, lexeme := "(", line := 1 }
    let r : Token := { kind := .rightParen, lexeme := ")", line := 1 }
    exact ⟨_, .paren (l := l) (r := r) (not_exists.mp hatom) rfl hts rfl⟩

/-- There are tokens for every tree. -/
theorem Infix.exists_tokens (e : Expr) : ∃ ts, Infix ts e := by
  induction e with
  | literal v =>
    let t : Token := { kind := .number, lexeme := v.text, literal := some v, line := 1 }
    have ht : Atom t (.literal v) := .number rfl
    exact ⟨[t], .atom ht⟩
  | var n =>
    let t : Token := { kind := .identifier, lexeme := n.text, line := n.line }
    have ht : Atom t (.var n) := .name rfl
    exact ⟨[t], .atom ht⟩
  | grouping e ih =>
    obtain ⟨ts, hts⟩ := ih
    let l : Token := { kind := .leftParen, lexeme := "(", line := 1 }
    let r : Token := { kind := .rightParen, lexeme := ")", line := 1 }
    exact ⟨_, .grouping (l := l) (r := r) rfl hts rfl⟩
  | unary op line e ih =>
    obtain ⟨ts, hts⟩ := Operand.exists_tokens ih
    let t : Token := { kind := op.kind, lexeme := op.symbol, line }
    exact ⟨_, .unary (t := t) rfl hts⟩
  | binary op line l r ihl ihr =>
    obtain ⟨us, hus⟩ := Operand.exists_tokens ihl
    obtain ⟨vs, hvs⟩ := Operand.exists_tokens ihr
    let t : Token := { kind := op.kind, lexeme := op.symbol, line }
    exact ⟨_, .binary (t := t) hus rfl hvs⟩
  | logical op line l r ihl ihr =>
    obtain ⟨us, hus⟩ := Operand.exists_tokens ihl
    obtain ⟨vs, hvs⟩ := Operand.exists_tokens ihr
    let t : Token := { kind := op.kind, lexeme := op.symbol, line }
    exact ⟨_, .logical (t := t) hus rfl hvs⟩
  | assign n e ih =>
    obtain ⟨ts, hts⟩ := Operand.exists_tokens ih
    let t : Token := { kind := .identifier, lexeme := n.text, line := n.line }
    let q : Token := { kind := .equal, lexeme := "=", line := 1 }
    exact ⟨_, .assign (n := t) (q := q) rfl rfl hts⟩

/-! ## What the grammar makes of it -/

/-- The tokens derive the tree on the rung, but for parentheses. -/
def Expression.Ungrouped (g : Rung) (ts : List Token) (e : Expr) : Prop :=
  ∃ e', Expression g ts e' ∧ e'.ungrouped = e.ungrouped

theorem ungrouped_of_atom {g : Rung} {t : Token} {e : Expr} (h : Atom t e) :
    Expression.Ungrouped g [t] e := by
  have hle : g.rank ≤ Rung.primary.rank := g.rank_le
  exact ⟨e, (Expression.atom h).lower hle, rfl⟩

mutual

theorem Infix.expression : ∀ {ts : List Token} {e : Expr}, Infix ts e →
    Expression.Ungrouped .assignment ts e
  | _, _, .atom ha => ungrouped_of_atom ha
  | _, _, .grouping hl he hr => by
    obtain ⟨e', he', heq⟩ := he.expression
    exact ⟨_, (Expression.grouping hl he' hr).lower (Nat.zero_le _), heq⟩
  | _, _, .unary hk he => by
    obtain ⟨e', he', heq⟩ := he.expression
    have hop := Expression.unary hk (he'.lower (by decide))
    exact ⟨_, hop.lower (Nat.zero_le _), by rw [Expr.ungrouped, heq]; rfl⟩
  | _, _, .binary hl hk hr => by
    obtain ⟨l', hl', hleft⟩ := hl.expression
    obtain ⟨r', hr', hright⟩ := hr.expression
    have hop := Expression.binary (hl'.lower (Rung.rank_le _)) hk (hr'.lower (Rung.rank_le _))
    exact ⟨_, hop.lower (Nat.zero_le _), by rw [Expr.ungrouped, hleft, hright]; rfl⟩
  | _, _, .logical hl hk hr => by
    obtain ⟨l', hl', hleft⟩ := hl.expression
    obtain ⟨r', hr', hright⟩ := hr.expression
    have hop := Expression.logical (hl'.lower (Rung.rank_le _)) hk (hr'.lower (Rung.rank_le _))
    exact ⟨_, hop.lower (Nat.zero_le _), by rw [Expr.ungrouped, hleft, hright]; rfl⟩
  | _, _, .assign hn hq he => by
    obtain ⟨e', he', heq⟩ := he.expression
    have hassign := Expression.assign hn hq (he'.lower (Nat.zero_le _))
    exact ⟨_, hassign, by rw [Expr.ungrouped, heq]; rfl⟩

theorem Operand.expression : ∀ {ts : List Token} {e : Expr}, Operand ts e →
    Expression.Ungrouped .primary ts e
  | _, _, .atom ha => ungrouped_of_atom ha
  | _, _, .paren _ hl he hr => by
    obtain ⟨e', he', heq⟩ := he.expression
    exact ⟨_, .grouping hl he' hr, heq⟩

end

end Grammar

end Lox
