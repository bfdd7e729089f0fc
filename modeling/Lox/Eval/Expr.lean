import Lox.Eval.Operator
import Lox.Syntax.Expr
import Lox.Scope.Chain

/-!
# The value of an expression

* `Expr.eval`: the value of an expression or the first error, and the scopes afterwards;
* `Expr.depth_eval`: evaluation enters and leaves no scope.
-/

namespace Lox

open Eval (Error)

/-- Operands are evaluated from left to right. An assignment first evaluates its right side. -/
def Expr.eval : Expr → Chain → Except Error Value × Chain
  | literal v, c => (.ok v, c)
  | grouping e, c => e.eval c
  | unary op line e, c =>
    match e.eval c with
    | (.ok v, c) => ((op.apply v).mapError (⟨·, line⟩), c)
    | (.error err, c) => (.error err, c)
  | binary op line l r, c =>
    match l.eval c with
    | (.ok v, c) =>
      match r.eval c with
      | (.ok w, c) => ((op.apply v w).mapError (⟨·, line⟩), c)
      | (.error err, c) => (.error err, c)
    | (.error err, c) => (.error err, c)
  | logical op _ l r, c =>
    match l.eval c with
    | (.ok v, c) => if op.decides v then (.ok v, c) else r.eval c
    | (.error err, c) => (.error err, c)
  | var n, c =>
    match c.get? n.text with
    | some v => (.ok v, c)
    | none => (.error ⟨.undefined n.text, n.line⟩, c)
  | assign n e, c =>
    match e.eval c with
    | (.ok v, c) =>
      match c.assign? n.text v with
      | some c => (.ok v, c)
      | none => (.error ⟨.undefined n.text, n.line⟩, c)
    | (.error err, c) => (.error err, c)

theorem Expr.depth_eval (e : Expr) (c : Chain) : (e.eval c).2.depth = c.depth := by
  induction e generalizing c with
  | literal v => rfl
  | grouping e ih => exact ih c
  | unary op line e ih =>
    have he := ih c
    rw [eval]
    rcases h : e.eval c with ⟨err | v, d⟩ <;> rw [h] at he <;> exact he
  | binary op line l r ihl ihr =>
    have hl := ihl c
    rw [eval]
    rcases h : l.eval c with ⟨err | v, d⟩ <;> rw [h] at hl
    · exact hl
    · have hr := ihr d
      rcases h' : r.eval d with ⟨err | w, d'⟩ <;> rw [h'] at hr <;>
        simpa only [h'] using hr.trans hl
  | logical op line l r ihl ihr =>
    have hl := ihl c
    rw [eval]
    rcases h : l.eval c with ⟨err | v, d⟩ <;> rw [h] at hl
    · exact hl
    · cases hv : op.decides v with
      | true => simpa only [hv, if_true] using hl
      | false => simpa only [hv, Bool.false_eq_true, if_false] using (ihr d).trans hl
  | var n =>
    rw [eval]
    cases c.get? n.text <;> rfl
  | assign n e ih =>
    have he := ih c
    rw [eval]
    rcases h : e.eval c with ⟨err | v, d⟩ <;> rw [h] at he
    · exact he
    · cases hassign : d.assign? n.text v with
      | some d' => simpa only [hassign] using (Chain.depth_of_assign? hassign).trans he
      | none => simpa only [hassign] using he

end Lox
