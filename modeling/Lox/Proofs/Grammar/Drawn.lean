import Lox.Proofs.Grammar.Rules

/-!
# What trees are made of

* `Expr.nodes`, `Stmt.nodes`, `Stmt.nodesAll`: the expressions in a tree;
* `Expr.Drawn`, `Stmt.Drawn`, `Stmt.DrawnAll`: the names, values and operators of a tree stand in
  tokens, and on the lines of these;
* `Stmt.Drawn.of_mem_nodes`: so do those of every expression in it.
-/

namespace Lox

open Token (Kind)
open Grammar (Atom)

/-! ## The expressions in a tree -/

/-- The expression and all expressions in it. -/
def Expr.nodes : Expr → List Expr
  | literal v => [literal v]
  | var n => [var n]
  | grouping e => grouping e :: e.nodes
  | unary op line e => unary op line e :: e.nodes
  | binary op line l r => binary op line l r :: (l.nodes ++ r.nodes)
  | logical op line l r => logical op line l r :: (l.nodes ++ r.nodes)
  | assign n e => assign n e :: e.nodes

theorem Expr.mem_nodes_self (e : Expr) : e ∈ e.nodes := by
  cases e <;> exact List.mem_cons_self

namespace Stmt

mutual

/-- The expressions in the statement. -/
def nodes : Stmt → List Expr
  | expression e | print e | declare _ (some e) => e.nodes
  | declare _ none => []
  | block ss => nodesAll ss
  | ifThen c s | loop c s => c.nodes ++ s.nodes
  | ifElse c s t => c.nodes ++ (s.nodes ++ t.nodes)

/-- The expressions in the statements. -/
def nodesAll : List Stmt → List Expr
  | [] => []
  | s :: ss => s.nodes ++ nodesAll ss

end

end Stmt

/-! ## Trees drawn from tokens -/

section

variable (ts : List Token)

/-- A token of the kind stands on the line. -/
def Token.Marks (k : Kind) (line : Nat) : Prop := ∃ t ∈ ts, t.kind = k ∧ t.line = line

/-- An identifier with the name's text stands on its line. -/
def Name.Drawn (n : Name) : Prop := ∃ t ∈ ts, t.kind = .identifier ∧ n = ⟨t.lexeme, t.line⟩

/-- Every name, value and operator of the expression stands in a token. -/
def Expr.Drawn : Expr → Prop
  | literal v => ∃ t ∈ ts, Atom t (literal v)
  | var n => n.Drawn ts
  | grouping e => e.Drawn
  | unary op line e => Token.Marks ts op.kind line ∧ e.Drawn
  | binary op line l r => Token.Marks ts op.kind line ∧ l.Drawn ∧ r.Drawn
  | logical op line l r => Token.Marks ts op.kind line ∧ l.Drawn ∧ r.Drawn
  | assign n e => n.Drawn ts ∧ e.Drawn

namespace Stmt

mutual

/-- Every name, value and operator of the statement stands in a token. -/
def Drawn : Stmt → Prop
  | expression e | print e => e.Drawn ts
  | declare n none => n.Drawn ts
  | declare n (some e) => n.Drawn ts ∧ e.Drawn ts
  | block ss => DrawnAll ss
  | ifThen c s | loop c s => c.Drawn ts ∧ s.Drawn
  | ifElse c s t => c.Drawn ts ∧ s.Drawn ∧ t.Drawn

/-- The same for every statement of a list. -/
def DrawnAll : List Stmt → Prop
  | [] => True
  | s :: ss => s.Drawn ∧ DrawnAll ss

end

end Stmt

end

variable {ts : List Token}

theorem Stmt.drawnAll_iff {ss : List Stmt} : DrawnAll ts ss ↔ ∀ s ∈ ss, s.Drawn ts := by
  induction ss with
  | nil => simp [DrawnAll]
  | cons s ss ih => rw [DrawnAll, ih, List.forall_mem_cons]

theorem Expr.Drawn.of_mem_nodes {e x : Expr} (h : e.Drawn ts) (hx : x ∈ e.nodes) :
    x.Drawn ts := by
  induction e with
  | literal | var =>
    obtain rfl := List.mem_singleton.mp hx
    exact h
  | grouping e ih =>
    rcases List.mem_cons.mp hx with rfl | hx
    · exact h
    · exact ih h hx
  | unary op line e ih | assign n e ih =>
    rcases List.mem_cons.mp hx with rfl | hx
    · exact h
    · exact ih h.2 hx
  | binary op line l r ihl ihr | logical op line l r ihl ihr =>
    rcases List.mem_cons.mp hx with rfl | hx
    · exact h
    · rcases List.mem_append.mp hx with hx | hx
      · exact ihl h.2.1 hx
      · exact ihr h.2.2 hx

namespace Stmt

mutual

theorem Drawn.of_mem_nodes {x : Expr} : ∀ {s : Stmt}, s.Drawn ts → x ∈ s.nodes → x.Drawn ts
  | expression _, h, hx | print _, h, hx => Expr.Drawn.of_mem_nodes h hx
  | declare _ none, _, hx => nomatch hx
  | declare _ (some _), h, hx => h.2.of_mem_nodes hx
  | block _, h, hx => DrawnAll.of_mem_nodes h hx
  | ifThen _ _, h, hx | loop _ _, h, hx =>
    (List.mem_append.mp hx).elim h.1.of_mem_nodes (Drawn.of_mem_nodes h.2)
  | ifElse _ _ _, h, hx => (List.mem_append.mp hx).elim h.1.of_mem_nodes fun hx =>
    (List.mem_append.mp hx).elim (Drawn.of_mem_nodes h.2.1) (Drawn.of_mem_nodes h.2.2)

theorem DrawnAll.of_mem_nodes {x : Expr} : ∀ {ss : List Stmt}, DrawnAll ts ss →
    x ∈ nodesAll ss → x.Drawn ts
  | [], _, hx => nomatch hx
  | _ :: _, h, hx => (List.mem_append.mp hx).elim (Drawn.of_mem_nodes h.1)
    (DrawnAll.of_mem_nodes h.2)

end

end Stmt

end Lox
