import Lox.Eval.Stmt
import Lox.Proofs.Lines.Trees

/-!
# Running trees on other lines

* `Eval.Error.mapLine`, `Eval.Outcome.mapLine`: errors on other lines;
* `Expr.eval_mapLines`, `Stmt.exec_mapLines`, `Stmt.execAll_mapLines`: lines matter to errors only;
* `Stmt.execAll_append`: running two lists one after the other.
-/

namespace Lox

open Eval (Error State Outcome iterate)

/-- The error on another line. -/
def Eval.Error.mapLine (f : Nat → Nat) (e : Error) : Error := { e with line := f e.line }

/-- The outcome with an error on another line. -/
def Eval.Outcome.mapLine (f : Nat → Nat) (o : Outcome) : Outcome :=
  o.map fun (result, s) => (result.mapError (·.mapLine f), s)

variable (f : Nat → Nat)

theorem Expr.eval_mapLines (e : Expr) (c : Chain) : (e.mapLines f).eval c =
    ((e.eval c).1.mapError (·.mapLine f), (e.eval c).2) := by
  induction e generalizing c with
  | literal v => rfl
  | grouping e ih => exact ih c
  | unary op line e ih =>
    rw [mapLines, eval, ih, eval]
    rcases e.eval c with ⟨err | v, d⟩
    · rfl
    · cases hop : op.apply v <;> simp [hop, Error.mapLine]
  | binary op line l r ihl ihr =>
    rw [mapLines, eval, ihl, eval]
    rcases l.eval c with ⟨err | v, d⟩
    · rfl
    · simp only [Eval.mapError_ok, ihr]
      rcases r.eval d with ⟨err | w, d'⟩
      · rfl
      · cases hop : op.apply v w <;> simp [hop, Error.mapLine]
  | logical op line l r ihl ihr =>
    rw [mapLines, eval, ihl, eval]
    rcases l.eval c with ⟨err | v, d⟩
    · rfl
    · simp only [Eval.mapError_ok, ihr]
      split <;> rfl
  | var n =>
    rw [mapLines, eval, eval, Name.text_mapLine]
    cases c.get? n.text <;> rfl
  | assign n e ih =>
    rw [mapLines, eval, ih, eval, Name.text_mapLine]
    rcases e.eval c with ⟨err | v, d⟩
    · rfl
    · simp only [Eval.mapError_ok]
      cases d.assign? n.text v <;> rfl

theorem Eval.State.eval_mapLines (s : State) (e : Expr) : s.eval (e.mapLines f) =
    ((s.eval e).1.mapError (·.mapLine f), (s.eval e).2) := by
  rw [eval, eval, Expr.eval_mapLines]

theorem Eval.iterate_mapLines (c : Expr) {body body' : State → Outcome}
    (h : ∀ s, body' s = (body s).mapLine f) (rounds : Nat) (s : State) :
    iterate (c.mapLines f) body' rounds s = (iterate c body rounds s).mapLine f := by
  induction rounds generalizing s with
  | zero => rfl
  | succ rounds ih =>
    rw [iterate, State.eval_mapLines, iterate]
    rcases s.eval c with ⟨err | v, t⟩
    · rfl
    · simp only [Eval.mapError_ok]
      split
      · rw [h]
        rcases body t with - | ⟨err | u, t'⟩
        · rfl
        · rfl
        · exact ih t'
      · rfl

namespace Stmt

mutual

theorem exec_mapLines (bound : Nat) : ∀ (t : Stmt) (s : State),
    exec bound (t.mapLines f) s = (exec bound t s).mapLine f
  | expression e, s => by
    rw [mapLines, exec, State.eval_mapLines, exec]
    rcases s.eval e with ⟨err | v, s'⟩ <;> rfl
  | print e, s => by
    rw [mapLines, exec, State.eval_mapLines, exec]
    rcases s.eval e with ⟨err | v, s'⟩ <;> rfl
  | declare n none, s => by
    rw [mapLines, Option.map_none, exec, exec]
    rfl
  | declare n (some e), s => by
    rw [mapLines, Option.map_some, exec, State.eval_mapLines, exec]
    rcases s.eval e with ⟨err | v, s'⟩ <;> rfl
  | block ss, s => by
    rw [mapLines, exec, execAll_mapLines bound ss, exec]
    rcases execAll bound ss s.push with - | ⟨result, s'⟩ <;> rfl
  | ifThen c t, s => by
    rw [mapLines, exec, State.eval_mapLines, exec]
    rcases s.eval c with ⟨err | v, s'⟩
    · rfl
    · simp only [Eval.mapError_ok, exec_mapLines bound t]
      split <;> rfl
  | ifElse c t u, s => by
    rw [mapLines, exec, State.eval_mapLines, exec]
    rcases s.eval c with ⟨err | v, s'⟩
    · rfl
    · simp only [Eval.mapError_ok, exec_mapLines bound t, exec_mapLines bound u]
      split <;> rfl
  | loop c t, s => by
    rw [mapLines, exec, exec]
    exact Eval.iterate_mapLines f c (fun s => exec_mapLines bound t s) bound s

/-- The lines of statements show in errors only. -/
theorem execAll_mapLines (bound : Nat) : ∀ (ts : List Stmt) (s : State),
    execAll bound (mapLinesAll f ts) s = (execAll bound ts s).mapLine f
  | [], s => by
    rw [mapLinesAll, execAll]
    rfl
  | t :: ts, s => by
    rw [mapLinesAll, execAll, exec_mapLines bound t, execAll]
    rcases exec bound t s with - | ⟨err | u, s'⟩
    · rfl
    · rfl
    · exact execAll_mapLines bound ts s'

end

theorem execAll_append (bound : Nat) (ts us : List Stmt) (s : State) :
    execAll bound (ts ++ us) s = match execAll bound ts s with
      | some (.ok (), s) => execAll bound us s
      | stopped => stopped := by
  induction ts generalizing s with
  | nil => rw [List.nil_append, execAll]
  | cons t ts ih =>
    rw [List.cons_append, execAll, execAll]
    rcases exec bound t s with - | ⟨err | u, s'⟩
    · rfl
    · rfl
    · exact ih s'

end Stmt

end Lox
