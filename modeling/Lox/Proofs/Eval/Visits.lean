import Mathlib.Logic.Relation
import Lox.Proofs.Eval.Adequate
import Lox.Proofs.Grammar.Drawn

/-!
# What a run visits

* `Node`, `Visit`: an expression or a statement, and the scopes in which it is evaluated or run;
* `ComesTo`: the statements of a list to which a run comes, one after the other;
* `Begins`: a visit makes another one, of a part or of a loop once more;
* `Reached`: the visits of a run, with all that they lead to;
* `Begins.fails`, `Reached.fails`: an error of a visit is one of the visits before it;
* `Reached.mem_nodes`: a run visits the expressions in it.
-/

namespace Lox.Eval

/-- An expression or a statement. -/
inductive Node where
  | expr (e : Expr)
  | stmt (t : Stmt)

/-- An expression or a statement is evaluated or run from these scopes on. -/
structure Visit where
  node : Node
  chain : Chain

/-- The visit ends in the error. -/
def Visit.Fails (v : Visit) (err : Error) : Prop :=
  match v.node with
  | .expr e => ∃ d, Evaluates e v.chain (.error err) d
  | .stmt t => ∃ d out, Runs t v.chain (.error err) d out

/-- Statements run from the scopes `c` on come to the statement `t` in the scopes `d`. -/
inductive ComesTo : List Stmt → Chain → Stmt → Chain → Prop
  | head {t : Stmt} {ts : List Stmt} {c : Chain} : ComesTo (t :: ts) c t c
  | tail {t u : Stmt} {ts : List Stmt} {c d d' : Chain} {out : String} :
      Runs t c (.ok ()) d out → ComesTo ts d u d' → ComesTo (t :: ts) c u d'

/-- The first visit makes the second one itself, not by way of another. -/
inductive Begins : Visit → Visit → Prop
  | grouping {e : Expr} {c : Chain} : Begins ⟨.expr (.grouping e), c⟩ ⟨.expr e, c⟩
  | operand {op : UnaryOp} {line : Nat} {e : Expr} {c : Chain} :
      Begins ⟨.expr (.unary op line e), c⟩ ⟨.expr e, c⟩
  | binaryLeft {op : BinaryOp} {line : Nat} {l r : Expr} {c : Chain} :
      Begins ⟨.expr (.binary op line l r), c⟩ ⟨.expr l, c⟩
  | binaryRight {op : BinaryOp} {line : Nat} {l r : Expr} {c d : Chain} {v : Value} :
      Evaluates l c (.ok v) d → Begins ⟨.expr (.binary op line l r), c⟩ ⟨.expr r, d⟩
  | logicalLeft {op : LogicalOp} {line : Nat} {l r : Expr} {c : Chain} :
      Begins ⟨.expr (.logical op line l r), c⟩ ⟨.expr l, c⟩
  | logicalRight {op : LogicalOp} {line : Nat} {l r : Expr} {c d : Chain} {v : Value} :
      Evaluates l c (.ok v) d → ¬ op.Decided v →
      Begins ⟨.expr (.logical op line l r), c⟩ ⟨.expr r, d⟩
  | assigned {n : Name} {e : Expr} {c : Chain} : Begins ⟨.expr (.assign n e), c⟩ ⟨.expr e, c⟩
  | expression {e : Expr} {c : Chain} : Begins ⟨.stmt (.expression e), c⟩ ⟨.expr e, c⟩
  | print {e : Expr} {c : Chain} : Begins ⟨.stmt (.print e), c⟩ ⟨.expr e, c⟩
  | initializer {n : Name} {e : Expr} {c : Chain} :
      Begins ⟨.stmt (.declare n (some e)), c⟩ ⟨.expr e, c⟩
  | block {ss : List Stmt} {t : Stmt} {c d : Chain} : ComesTo ss c.push t d →
      Begins ⟨.stmt (.block ss), c⟩ ⟨.stmt t, d⟩
  | ifThenCondition {e : Expr} {t : Stmt} {c : Chain} :
      Begins ⟨.stmt (.ifThen e t), c⟩ ⟨.expr e, c⟩
  | ifThen {e : Expr} {t : Stmt} {c d : Chain} {v : Value} : Evaluates e c (.ok v) d →
      ¬ v.Falsy → Begins ⟨.stmt (.ifThen e t), c⟩ ⟨.stmt t, d⟩
  | ifElseCondition {e : Expr} {t u : Stmt} {c : Chain} :
      Begins ⟨.stmt (.ifElse e t u), c⟩ ⟨.expr e, c⟩
  | ifElse {e : Expr} {t u : Stmt} {c d : Chain} {v : Value} : Evaluates e c (.ok v) d →
      ¬ v.Falsy → Begins ⟨.stmt (.ifElse e t u), c⟩ ⟨.stmt t, d⟩
  | ifElseOther {e : Expr} {t u : Stmt} {c d : Chain} {v : Value} : Evaluates e c (.ok v) d →
      v.Falsy → Begins ⟨.stmt (.ifElse e t u), c⟩ ⟨.stmt u, d⟩
  | loopCondition {e : Expr} {t : Stmt} {c : Chain} : Begins ⟨.stmt (.loop e t), c⟩ ⟨.expr e, c⟩
  | loopBody {e : Expr} {t : Stmt} {c d : Chain} {v : Value} : Evaluates e c (.ok v) d →
      ¬ v.Falsy → Begins ⟨.stmt (.loop e t), c⟩ ⟨.stmt t, d⟩
  | loopAgain {e : Expr} {t : Stmt} {c d d' : Chain} {v : Value} {out : String} :
      Evaluates e c (.ok v) d → ¬ v.Falsy → Runs t d (.ok ()) d' out →
      Begins ⟨.stmt (.loop e t), c⟩ ⟨.stmt (.loop e t), d'⟩

/-- Running the statements from the scopes `c` on leads to the visit. -/
def Reached (ss : List Stmt) (c : Chain) (v : Visit) : Prop :=
  ∃ t d, ComesTo ss c t d ∧ Relation.ReflTransGen Begins ⟨.stmt t, d⟩ v

variable {v w : Visit} {ss : List Stmt} {c d : Chain} {t : Stmt} {err : Error}

/-! ## Errors -/

theorem ComesTo.fails {out : String} (h : ComesTo ss c t d) {d' : Chain}
    (ht : Runs t d (.error err) d' out) : ∃ d' out, RunsAll ss c (.error err) d' out := by
  induction h with
  | head => exact ⟨_, _, .fails ht⟩
  | tail hu _ ih =>
    obtain ⟨d', out, hts⟩ := ih ht
    exact ⟨_, _, .cons hu hts⟩

theorem RunsAll.block {d : Chain} {r : Except Error Unit} {out : String}
    (h : RunsAll ss c.push r d out) : Runs (.block ss) c r d.pop out := by
  have hlen : 1 < d.scopes.length := by
    rw [h.length_scopes]
    simp [Chain.push, Chain.scopes]
  obtain ⟨fresh, hpop⟩ := Chain.exists_scopes_pop hlen
  exact .block (Chain.scopes_push c) h hpop

theorem Begins.fails (h : Begins v w) (hw : w.Fails err) : v.Fails err := by
  cases h with
  | grouping =>
    obtain ⟨d, he⟩ := hw
    exact ⟨d, .grouping he⟩
  | operand =>
    obtain ⟨d, he⟩ := hw
    exact ⟨d, .unaryOperand he⟩
  | binaryLeft =>
    obtain ⟨d, hl⟩ := hw
    exact ⟨d, .binaryLeft hl⟩
  | binaryRight hl =>
    obtain ⟨d, hr⟩ := hw
    exact ⟨d, .binaryRight hl hr⟩
  | logicalLeft =>
    obtain ⟨d, hl⟩ := hw
    exact ⟨d, .logicalLeft hl⟩
  | logicalRight hl hop =>
    obtain ⟨d, hr⟩ := hw
    exact ⟨d, .logicalRight hl hop hr⟩
  | assigned =>
    obtain ⟨d, he⟩ := hw
    exact ⟨d, .assignValue he⟩
  | expression =>
    obtain ⟨d, he⟩ := hw
    exact ⟨d, "", .expressionFails he⟩
  | print =>
    obtain ⟨d, he⟩ := hw
    exact ⟨d, "", .printFails he⟩
  | initializer =>
    obtain ⟨d, he⟩ := hw
    exact ⟨d, "", .declareFails he⟩
  | block hcomes =>
    obtain ⟨d, out, ht⟩ := hw
    obtain ⟨d, out, hss⟩ := hcomes.fails ht
    exact ⟨d.pop, out, hss.block⟩
  | ifThenCondition =>
    obtain ⟨d, he⟩ := hw
    exact ⟨d, "", .ifThenFails he⟩
  | ifThen he hv =>
    obtain ⟨d, out, ht⟩ := hw
    exact ⟨d, out, .ifThen he hv ht⟩
  | ifElseCondition =>
    obtain ⟨d, he⟩ := hw
    exact ⟨d, "", .ifElseFails he⟩
  | ifElse he hv =>
    obtain ⟨d, out, ht⟩ := hw
    exact ⟨d, out, .ifElse he hv ht⟩
  | ifElseOther he hv =>
    obtain ⟨d, out, hu⟩ := hw
    exact ⟨d, out, .ifElseOther he hv hu⟩
  | loopCondition =>
    obtain ⟨d, he⟩ := hw
    exact ⟨d, "", .loopFails he⟩
  | loopBody he hv =>
    obtain ⟨d, out, ht⟩ := hw
    exact ⟨d, out, .loopBodyFails he hv ht⟩
  | loopAgain he hv ht =>
    obtain ⟨d, out, hrest⟩ := hw
    exact ⟨d, _, .loopRound he hv ht hrest⟩

theorem fails_of_path (h : Relation.ReflTransGen Begins v w) (hw : w.Fails err) :
    v.Fails err := by
  induction h using Relation.ReflTransGen.head_induction_on with
  | refl => exact hw
  | head hstep _ ih => exact hstep.fails ih

/-- A run ends in the error of a visit to which it leads. -/
theorem Reached.fails (h : Reached ss c v) (hv : v.Fails err) :
    ∃ d out, RunsAll ss c (.error err) d out := by
  obtain ⟨t, d, hcomes, hpath⟩ := h
  obtain ⟨d', out, ht⟩ := fails_of_path hpath hv
  exact hcomes.fails ht

/-! ## Parts -/

/-- The expressions in what is visited. -/
def Visit.nodes (v : Visit) : List Expr :=
  match v.node with
  | .expr e => e.nodes
  | .stmt t => t.nodes

theorem ComesTo.nodes_subset (h : ComesTo ss c t d) : t.nodes ⊆ Stmt.nodesAll ss := by
  induction h with
  | head => exact List.subset_append_left ..
  | tail _ _ ih => exact List.subset_append_of_subset_right _ ih

theorem Begins.nodes_subset (h : Begins v w) : w.nodes ⊆ v.nodes := by
  cases h with
  | grouping | operand | assigned => exact List.subset_cons_self ..
  | binaryLeft | logicalLeft =>
    exact List.subset_cons_of_subset _ (List.subset_append_left ..)
  | binaryRight | logicalRight =>
    exact List.subset_cons_of_subset _ (List.subset_append_right ..)
  | expression | print | initializer | loopAgain => exact List.Subset.refl _
  | block hcomes => exact hcomes.nodes_subset
  | ifThenCondition | ifElseCondition | loopCondition => exact List.subset_append_left ..
  | ifThen | loopBody => exact List.subset_append_right ..
  | ifElse =>
    exact List.subset_append_of_subset_right _ (List.subset_append_left ..)
  | ifElseOther =>
    exact List.subset_append_of_subset_right _ (List.subset_append_right ..)

theorem nodes_subset_of_path (h : Relation.ReflTransGen Begins v w) : w.nodes ⊆ v.nodes := by
  induction h with
  | refl => exact List.Subset.refl _
  | tail _ hstep ih => exact List.Subset.trans hstep.nodes_subset ih

theorem Reached.mem_nodes {e : Expr} (h : Reached ss c ⟨.expr e, d⟩) : e ∈ Stmt.nodesAll ss := by
  obtain ⟨t, c', hcomes, hpath⟩ := h
  exact hcomes.nodes_subset (nodes_subset_of_path hpath e.mem_nodes_self)

end Lox.Eval
