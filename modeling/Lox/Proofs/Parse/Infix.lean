import Mathlib.Data.List.TakeWhile
import Lox.Eval.Expr
import Lox.Proofs.Grammar.Infix
import Lox.Proofs.Parse.Derives
import Lox.Proofs.Parse.ExprReads

/-!
# Every expression can be written down

* `parseExpr_of_expression`: a token sequence that derives an expression is read as this
  expression, without a fault;
* `Expr.eval_ungrouped`: parentheses change neither value nor scopes;
* `parenthesized_reads_back`: tokens that write a tree with all parentheses are read as a tree that
  means the same.
-/

namespace Lox

/-- Parentheses change neither the value of an expression nor what it does to the scopes. -/
theorem Expr.eval_ungrouped (e : Expr) (c : Chain) : e.ungrouped.eval c = e.eval c := by
  induction e generalizing c with
  | literal | var => rfl
  | grouping e ih => exact ih c
  | unary op line e ih | assign n e ih => simp only [ungrouped, eval, ih]
  | binary op line l r ihl ihr | logical op line l r ihl ihr =>
    simp only [ungrouped, eval, ihl, ihr]

namespace Grammar

theorem isEnd_of_kind {t : Token} {k : Token.Kind} (hk : t.kind = k) (hne : k ≠ .eof) :
    t.isEnd = false := by
  simpa [Token.isEnd, hk] using hne

theorem Expression.isEnd_eq {g : Rung} {ts : List Token} {e : Expr} (h : Expression g ts e) :
    ∀ t ∈ ts, t.isEnd = false := by
  induction h with
  | atom ha => cases ha <;> simp_all [Token.isEnd]
  | grouping hl _ hr ih =>
    have hleft := isEnd_of_kind hl (by decide)
    have hright := isEnd_of_kind hr (by decide)
    simp_all [or_imp]
  | @unary _ _ op _ hk _ ih =>
    exact List.forall_mem_cons.mpr ⟨isEnd_of_kind hk (by cases op <;> decide), ih⟩
  | @binary _ _ _ op _ _ _ hk _ ihl ihr =>
    have hop := isEnd_of_kind hk (by cases op <;> decide)
    exact List.forall_mem_append.mpr ⟨ihl, List.forall_mem_cons.mpr ⟨hop, ihr⟩⟩
  | @logical _ _ _ op _ _ _ hk _ ihl ihr =>
    have hop := isEnd_of_kind hk (by cases op <;> decide)
    exact List.forall_mem_append.mpr ⟨ihl, List.forall_mem_cons.mpr ⟨hop, ihr⟩⟩
  | assign hn hq _ ih =>
    have hname := isEnd_of_kind hn (by decide)
    have hequal := isEnd_of_kind hq (by decide)
    exact List.forall_mem_cons.mpr ⟨hname, List.forall_mem_cons.mpr ⟨hequal, ih⟩⟩
  | above _ ih => exact ih

end Grammar

namespace Parse

open Grammar

theorem foldl_exprRun_read {reader last : ExprReader} {ps : List Placed}
    (h : reader.Reads ps last) (fs : List Fault) :
    ps.foldl ExprRun.read ⟨.ok reader, fs⟩ = ⟨.ok last, fs⟩ := by
  induction h with
  | nil => rfl
  | cons hread _ ih => simpa [ExprRun.read, hread] using ih

theorem parseExpr_of_expression {tokens : List Token} {e : Expr}
    (h : Expression .assignment (before tokens) e) : parseExpr tokens = (.ok e, []) := by
  obtain ⟨v, p, hread, hclose⟩ :=
    ExprReader.reads_of_expression h [] trivial (map_toToken_body tokens)
  have hrun : (body tokens).foldl ExprRun.read {} = ⟨.ok (.operator v p), []⟩ :=
    foldl_exprRun_read hread []
  rw [parseExpr, hrun]
  simp only [ExprRun.finish, ExprReader.finish, hclose 0 (Nat.le_refl _)]
  rfl

theorem before_eq {ts : List Token} (h : ∀ t ∈ ts, t.isEnd = false) : before ts = ts :=
  List.takeWhile_eq_self_iff.mpr fun t ht => by simp [h t ht]

theorem before_append_end {ts : List Token} (h : ∀ t ∈ ts, t.isEnd = false) {t : Token}
    (ht : t.isEnd = true) (rest : List Token) : before (ts ++ t :: rest) = ts := by
  have hall : ∀ u ∈ ts, (!u.isEnd) = true := fun u hu => by simp [h u hu]
  rw [before, List.takeWhile_append_of_pos hall, List.takeWhile_cons_of_neg (by simp [ht]),
    List.append_nil]

/-- There are tokens that write the tree with parentheses around all operands, whatever its
operators are. Such tokens are read without a fault, also in front of an end. The tree read is the
tree written but for parentheses, and it has the same value and the same effect on the scopes. -/
theorem parenthesized_reads_back (e : Expr) : (∃ ts, Infix ts e) ∧ ∀ ts, Infix ts e → ∃ e',
    parseExpr ts = (.ok e', []) ∧
    (∀ t rest, t.isEnd = true → parseExpr (ts ++ t :: rest) = (.ok e', [])) ∧
    e'.ungrouped = e.ungrouped ∧ ∀ c, e'.eval c = e.eval c := by
  refine ⟨Infix.exists_tokens e, fun ts hts => ?_⟩
  obtain ⟨e', he', heq⟩ := hts.expression
  have hcount := he'.isEnd_eq
  refine ⟨e', parseExpr_of_expression (by rwa [before_eq hcount]), fun t rest ht => ?_, heq,
    fun c => ?_⟩
  · exact parseExpr_of_expression (by rwa [before_append_end hcount ht])
  · rw [← Expr.eval_ungrouped, heq, Expr.eval_ungrouped]

/-- An assignment as the right operand of a subtraction: `a - (b = c)`. -/
theorem parenthesized_reads_back_subtract :
    let name (x : String) : Token := { kind := .identifier, lexeme := x, line := 1 }
    let mark (k : Token.Kind) (x : String) : Token := { kind := k, lexeme := x, line := 1 }
    ∃ e', parseExpr [name "a", mark .minus "-", mark .leftParen "(", name "b", mark .equal "=",
        name "c", mark .rightParen ")"] = (.ok e', []) ∧
      e'.ungrouped = .binary .subtract 1 (.var ⟨"a", 1⟩) (.assign ⟨"b", 1⟩ (.var ⟨"c", 1⟩)) := by
  intro name mark
  have hassign : Infix [name "b", mark .equal "=", name "c"]
      (.assign ⟨"b", 1⟩ (.var ⟨"c", 1⟩)) :=
    .assign (n := name "b") rfl rfl (.atom (.name rfl))
  have hatom : ∀ t, ¬ Atom t (.assign ⟨"b", 1⟩ (.var ⟨"c", 1⟩)) := nofun
  have hright := Operand.paren (l := mark .leftParen "(") (r := mark .rightParen ")") hatom rfl
    hassign rfl
  have hminus : (mark .minus "-").kind = BinaryOp.subtract.kind := rfl
  have hleft : Operand [name "a"] (.var ⟨"a", 1⟩) := .atom (.name rfl)
  obtain ⟨e', hparse, -, heq, -⟩ :=
    (parenthesized_reads_back _).2 _ (.binary hleft hminus hright)
  exact ⟨e', hparse, heq⟩

end Parse

end Lox
