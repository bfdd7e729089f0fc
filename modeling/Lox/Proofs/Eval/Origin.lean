import Lox.Proofs.Eval.Visits
import Lox.Proofs.Parse.Drawn
import Lox.Proofs.Scope.Restore
import Lox.Proofs.Session.Text

/-!
# Where errors come from

* `Blamed`: the expressions that are to blame for an error, by the kind of the error;
* `Visit.Raises`, `raises_iff_blamed`: no others raise an error of their own;
* `Visit.Fails.traced`, `reached_iff_error`: an error leads back to one of these;
* `Blamed.exists_line`: the error lies on the line of a token;
* the main result: `error_iff_blamed`.
-/

namespace Lox

open Eval (Error)

/-! ## Operators and names -/

theorem BinaryOp.mem_arithmetic_iff {op : BinaryOp} :
    op ∈ [subtract, multiply, divide, greater, greaterEqual, less, lessEqual] ↔
      op ∉ [add, equal, notEqual] := by
  cases op <;> decide

theorem Chain.Becomes.unbound_iff {targets : List String} {c d : Chain} {name : String}
    (h : c.Becomes targets [] d) : d.Unbound name ↔ c.Unbound name := by
  have hscopes := becomes_iff_scopes.mp h
  unfold Unbound
  generalize c.scopes = ss, d.scopes = ts at hscopes ⊢
  induction hscopes with
  | nil => exact Iff.rfl
  | cons hs _ ih =>
    rw [List.forall_mem_cons, List.forall_mem_cons, hs.contains_eq]
    exact and_congr_right fun _ => ih

namespace Eval

/-! ## Who is to blame -/

/-- The expression, evaluated in the scopes, is to blame for the error, which lies on its line. -/
inductive Blamed : Expr → Chain → Error → Prop
  /-- No scope has the name. -/
  | var {n : Name} {c : Chain} : c.Unbound n.text → Blamed (.var n) c ⟨.undefined n.text, n.line⟩
  /-- No scope has the name, neither before nor after the value is computed. -/
  | assign {n : Name} {e : Expr} {c d : Chain} {v : Value} : c.Unbound n.text →
      Evaluates e c (.ok v) d → d.Unbound n.text →
      Blamed (.assign n e) c ⟨.undefined n.text, n.line⟩
  | sign {line : Nat} {e : Expr} {c d : Chain} {v : Value} : Evaluates e c (.ok v) d →
      (∀ x, v ≠ .number x) → Blamed (.unary .negate line e) c ⟨.operandNotNumber, line⟩
  | arithmetic {op : BinaryOp} {line : Nat} {l r : Expr} {c d d' : Chain} {v w : Value} :
      op ∈ [.subtract, .multiply, .divide, .greater, .greaterEqual, .less, .lessEqual] →
      Evaluates l c (.ok v) d → Evaluates r d (.ok w) d' → v.NotNumbers w →
      Blamed (.binary op line l r) c ⟨.operandsNotNumbers, line⟩
  | sum {line : Nat} {l r : Expr} {c d d' : Chain} {v w : Value} :
      Evaluates l c (.ok v) d → Evaluates r d (.ok w) d' → v.NotNumbers w → v.NotStrings w →
      Blamed (.binary .add line l r) c ⟨.operandsNotAddable, line⟩

/-- The visit ends in the error, and none that it makes ends in an error: the error is its own. -/
def Visit.Raises (v : Visit) (err : Error) : Prop :=
  v.Fails err ∧ ∀ w, Begins v w → ∀ err', ¬ w.Fails err'

/-- The visit leads to an expression that is to blame for the error. -/
def Visit.Traced (v : Visit) (err : Error) : Prop :=
  ∃ x c, Relation.ReflTransGen Begins v ⟨.expr x, c⟩ ∧ Blamed x c err

variable {v w : Visit} {ss : List Stmt} {c d : Chain} {e : Expr} {t : Stmt} {err : Error}

theorem Blamed.traced (h : Blamed e c err) : Visit.Traced ⟨.expr e, c⟩ err :=
  ⟨e, c, .refl, h⟩

theorem Begins.traced (h : Begins v w) (hw : w.Traced err) : v.Traced err := by
  obtain ⟨x, c, hpath, hx⟩ := hw
  exact ⟨x, c, hpath.head h, hx⟩

theorem Blamed.fails (h : Blamed e c err) : Visit.Fails ⟨.expr e, c⟩ err := by
  cases h with
  | var hname => exact ⟨_, .varUnbound hname⟩
  | assign _ he hname => exact ⟨_, .assignUnbound he hname⟩
  | sign he hv => exact ⟨_, .unaryFault he (.negateOther hv)⟩
  | arithmetic hop hl hr hv =>
    exact ⟨_, .binaryFault hl hr (.notNumbers (BinaryOp.mem_arithmetic_iff.mp hop) hv)⟩
  | sum hl hr hv hv' => exact ⟨_, .binaryFault hl hr (.addOther hv hv')⟩

/-! ## Errors lead back to them -/

theorem Blamed.of_binary {op : BinaryOp} {line : Nat} {l r : Expr} {d d' : Chain} {v w : Value}
    {f : Fault} (hl : Evaluates l c (.ok v) d) (hr : Evaluates r d (.ok w) d')
    (hop : op.Gives v w (.error f)) : Blamed (.binary op line l r) c ⟨f, line⟩ := by
  cases hop with
  | addOther hv hv' => exact .sum hl hr hv hv'
  | notNumbers hop hv => exact .arithmetic (BinaryOp.mem_arithmetic_iff.mpr hop) hl hr hv

/-- An expression that ends in an error leads to one that is to blame. -/
theorem Evaluates.traced (h : Evaluates e c (.error err) d) : Visit.Traced ⟨.expr e, c⟩ err := by
  generalize hr : Except.error err = r at h
  induction h with
  | literal | unary | binary | logicalDecided | var | assign => cases hr
  | grouping _ ih => exact Begins.grouping.traced (ih hr)
  | unaryFault he hop =>
    cases hr
    cases hop with
    | negateOther hv => exact (Blamed.sign he hv).traced
  | unaryOperand _ ih => exact Begins.operand.traced (ih hr)
  | binaryFault hl hr' hop =>
    cases hr
    exact (Blamed.of_binary hl hr' hop).traced
  | binaryLeft _ ih => exact Begins.binaryLeft.traced (ih hr)
  | binaryRight hl _ _ ih => exact (Begins.binaryRight hl).traced (ih hr)
  | logicalRight hl hop _ _ ih => exact (Begins.logicalRight hl hop).traced (ih hr)
  | logicalLeft _ ih => exact Begins.logicalLeft.traced (ih hr)
  | varUnbound hname =>
    cases hr
    exact (Blamed.var hname).traced
  | assignUnbound he hname =>
    -- The name had no scope before the value was computed either.
    cases hr
    exact (Blamed.assign (he.becomes.unbound_iff.mp hname) he hname).traced
  | assignValue _ ih => exact Begins.assigned.traced (ih hr)

mutual

theorem Runs.traced_of_eq : ∀ {t : Stmt} {c d : Chain} {r : Except Error Unit} {out : String},
    Runs t c r d out → r = .error err → Visit.Traced ⟨.stmt t, c⟩ err
  | _, _, _, _, _, .expressionFails he, rfl => Begins.expression.traced he.traced
  | _, _, _, _, _, .printFails he, rfl => Begins.print.traced he.traced
  | _, _, _, _, _, .declareFails he, rfl => Begins.initializer.traced he.traced
  | _, _, _, _, _, .block hpush hss _, hr => by
    obtain ⟨u, c', hcomes, hu⟩ := RunsAll.traced_of_eq hss hr
    obtain rfl := Chain.scopes_injective (hpush.trans (Chain.scopes_push _).symm)
    exact (Begins.block hcomes).traced hu
  | _, _, _, _, _, .ifThen he hv ht, hr => (Begins.ifThen he hv).traced (ht.traced_of_eq hr)
  | _, _, _, _, _, .ifThenFails he, rfl => Begins.ifThenCondition.traced he.traced
  | _, _, _, _, _, .ifElse he hv ht, hr => (Begins.ifElse he hv).traced (ht.traced_of_eq hr)
  | _, _, _, _, _, .ifElseOther he hv hu, hr =>
    (Begins.ifElseOther he hv).traced (hu.traced_of_eq hr)
  | _, _, _, _, _, .ifElseFails he, rfl => Begins.ifElseCondition.traced he.traced
  | _, _, _, _, _, .loopRound he hv ht hrest, hr =>
    (Begins.loopAgain he hv ht).traced (hrest.traced_of_eq hr)
  | _, _, _, _, _, .loopBodyFails he hv ht, rfl =>
    (Begins.loopBody he hv).traced (ht.traced_of_eq rfl)
  | _, _, _, _, _, .loopFails he, rfl => Begins.loopCondition.traced he.traced

theorem RunsAll.traced_of_eq : ∀ {ts : List Stmt} {c d : Chain} {r : Except Error Unit}
    {out : String}, RunsAll ts c r d out → r = .error err →
    ∃ u c', ComesTo ts c u c' ∧ Visit.Traced ⟨.stmt u, c'⟩ err
  | _, _, _, _, _, .cons ht hts, hr => by
    obtain ⟨u, c', hcomes, hu⟩ := hts.traced_of_eq hr
    exact ⟨u, c', .tail ht hcomes, hu⟩
  | _, _, _, _, _, .fails ht, rfl => ⟨_, _, .head, ht.traced_of_eq rfl⟩

end

theorem Visit.Fails.traced (h : v.Fails err) : v.Traced err := by
  obtain ⟨e | t, c⟩ := v
  · obtain ⟨d, he⟩ := h
    exact he.traced
  · obtain ⟨d, out, ht⟩ := h
    exact ht.traced_of_eq rfl

/-! ## Nothing else raises an error -/

theorem Evaluates.not_fails {r : Value} (h : Evaluates e c (.ok r) d) :
    ¬ Visit.Fails ⟨.expr e, c⟩ err := by
  rintro ⟨d', he⟩
  have hsame := (Expr.eval_of_evaluates h).symm.trans (Expr.eval_of_evaluates he)
  cases hsame

theorem Blamed.raises (h : Blamed e c err) : Visit.Raises ⟨.expr e, c⟩ err := by
  refine ⟨h.fails, fun w hw err' => ?_⟩
  cases h with
  | var => cases hw
  | assign _ he | sign he =>
    cases hw
    exact he.not_fails
  | arithmetic _ hl hr | sum hl hr =>
    cases hw with
    | binaryLeft => exact hl.not_fails
    | binaryRight hl' =>
      obtain ⟨-, rfl⟩ := Prod.mk.inj
        ((Expr.eval_of_evaluates hl).symm.trans (Expr.eval_of_evaluates hl'))
      exact hr.not_fails

/-- Only these raise an error of their own: no statement, and no other expression. -/
theorem raises_iff_blamed : v.Raises err ↔ ∃ x c, v = ⟨.expr x, c⟩ ∧ Blamed x c err := by
  constructor
  · rintro ⟨hv, hown⟩
    obtain ⟨x, c, hpath, hx⟩ := hv.traced
    rcases Relation.ReflTransGen.cases_head hpath with rfl | ⟨w, hw, hrest⟩
    · exact ⟨x, c, rfl, hx⟩
    · exact absurd (fails_of_path hrest hx.fails) (hown w hw err)
  · rintro ⟨x, c, rfl, hx⟩
    exact hx.raises

/-! ## Programs -/

/-- Statements end in an error exactly if they lead to an expression that is to blame for it. -/
theorem reached_iff_error : (∃ d out, RunsAll ss c (.error err) d out) ↔
    ∃ x c', x ∈ Stmt.nodesAll ss ∧ Reached ss c ⟨.expr x, c'⟩ ∧ Blamed x c' err := by
  constructor
  · rintro ⟨d, out, hss⟩
    obtain ⟨u, c', hcomes, x, c'', hpath, hx⟩ := hss.traced_of_eq rfl
    have hreached : Reached ss c ⟨.expr x, c''⟩ := ⟨u, c', hcomes, hpath⟩
    exact ⟨x, c'', hreached.mem_nodes, hreached, hx⟩
  · rintro ⟨x, c', -, hreached, hx⟩
    exact hreached.fails hx.fails

theorem Blamed.exists_line {ts : List Token} (h : Blamed e c err) (he : e.Drawn ts) :
    ∃ t ∈ ts, t.line = err.line := by
  cases h with
  | var =>
    obtain ⟨t, ht, -, hname⟩ := he
    exact ⟨t, ht, by rw [hname]⟩
  | assign =>
    obtain ⟨⟨t, ht, -, hname⟩, -⟩ := he
    exact ⟨t, ht, by rw [hname]⟩
  | sign | arithmetic | sum =>
    obtain ⟨⟨t, ht, -, hline⟩, -⟩ := he
    exact ⟨t, ht, hline⟩

end Eval

open Eval (Reached Blamed Visit)

theorem drawnAll_of_ofSource {source : String} {ss : List Stmt}
    (h : Parse.Program.ofSource source = (⟨ss.map some, []⟩, [])) :
    Stmt.DrawnAll (Source.pieceTokens source) ss := by
  have hslots : (Parse.parse (Source.scan source).1).slots = ss.map some :=
    congrArg Parse.Program.slots (Prod.mk.inj (ofSource_eq source ▸ h)).1
  rw [Stmt.drawnAll_iff]
  intro s hs
  exact Parse.parse_scan_drawn (hslots ▸ List.mem_map_of_mem hs)

theorem Session.exists_of_runtimeError {bound : Nat} {session next : Session} {source : String}
    (h : session.run bound source = some (.runtimeError, next)) : ∃ ss err,
      Parse.Program.ofSource source = (⟨ss.map some, []⟩, []) ∧
      session.read source = (some ss, session) ∧
      interpret bound ss session.state session.log = some (.error err, next.state, next.log) := by
  by_cases hb : session.Blocks source
  · rw [run, session.read_blocked hb] at h
    cases h
  · obtain ⟨hlog, hnone⟩ := session.not_blocks_iff.mp hb
    obtain ⟨ss, hss⟩ := exists_of_ofSource hnone
    have hread := session.read_eq hlog hss
    rw [run, hread] at h
    dsimp only at h
    rcases hrun : interpret bound ss session.state session.log with - | ⟨err | v, state, log⟩ <;>
      rw [hrun] at h <;> cases h
    exact ⟨ss, err, hss, hread, hrun⟩

theorem interpret_error_iff {ss : List Stmt} {s : Eval.State} {log : Log} {err : Error} :
    (∃ bound t log', interpret bound ss s log = some (.error err, t, log')) ↔
      ∃ x c, x ∈ Stmt.nodesAll ss ∧ Reached ss s.chain ⟨.expr x, c⟩ ∧ Blamed x c err := by
  rw [← Eval.reached_iff_error]
  constructor
  · rintro ⟨bound, t, log', h⟩
    obtain ⟨out, hss, -⟩ := Stmt.runsAll_of_execAll ss _ _ _ (interpret_eq_some_iff.mp h).1
    exact ⟨_, _, hss⟩
  · rintro ⟨d, out, hss⟩
    obtain ⟨bound, hexec⟩ := Stmt.exists_execAll_of_runsAll hss
    exact ⟨bound, _, _, interpret_eq_some_iff.mpr ⟨hexec s.output, rfl⟩⟩

/-- **Errors blame the right expression.** A run ends in an error exactly if it comes to an
expression of the program that is to blame for it: a name that no scope has, a sign change of
something else than a number, arithmetic or a comparison of something else than two numbers, or a
sum of neither two numbers nor two strings, on the line of the name or operator. Nothing else that
is visited raises an error of its own. In a text the line is one of the text, as long as the lines
are within the range of the counter that numbers them. -/
theorem error_iff_blamed :
    (∀ (ss : List Stmt) (s : Eval.State) (log : Log) (err : Error),
      (∃ bound t log', interpret bound ss s log = some (.error err, t, log')) ↔
        ∃ x c, x ∈ Stmt.nodesAll ss ∧ Reached ss s.chain ⟨.expr x, c⟩ ∧ Blamed x c err) ∧
    (∀ (v : Visit) (err : Error), v.Raises err ↔ ∃ x c, v = ⟨.expr x, c⟩ ∧ Blamed x c err) ∧
    ∀ (bound : Nat) (session next : Session) (source : String),
      session.run bound source = some (.runtimeError, next) → ∃ ss err,
        session.read source = (some ss, session) ∧
        interpret bound ss session.state session.log = some (.error err, next.state, next.log) ∧
        1 ≤ err.line ∧ err.line ≤ 1 + source.toList.count '\n' := by
  refine ⟨fun _ _ _ _ => interpret_error_iff, fun _ _ => Eval.raises_iff_blamed,
    fun bound session next source h => ?_⟩
  obtain ⟨ss, err, hss, hread, hrun⟩ := Session.exists_of_runtimeError h
  obtain ⟨x, c, hx, -, hblamed⟩ := interpret_error_iff.mp ⟨bound, _, _, hrun⟩
  obtain ⟨t, ht, hline⟩ := hblamed.exists_line ((drawnAll_of_ofSource hss).of_mem_nodes hx)
  obtain ⟨hfirst, hlast⟩ := Source.line_of_mem_pieceTokens ht
  exact ⟨ss, err, hread, hrun, hline ▸ hfirst, hline ▸ hlast⟩

/-- The sign of `nil` is changed on line 2, in a text of two lines. -/
theorem error_iff_blamed_sign :
    (∃ x c, x ∈ Stmt.nodesAll [.expression (.unary .negate 2 (.literal .nil))] ∧
      Reached [.expression (.unary .negate 2 (.literal .nil))] {} ⟨.expr x, c⟩ ∧
      Blamed x c ⟨.operandNotNumber, 2⟩) ∧
    ∃ ss, ∃ err : Error, ({} : Session).read "\n-nil;" = (some ss, {}) ∧
      1 ≤ err.line ∧ err.line ≤ 1 + "\n-nil;".toList.count '\n' := by
  have hrun : ({} : Session).run 0 "\n-nil;" = some (.runtimeError,
      ⟨{}, ({} : Log).emit (Error.diagnostic ⟨.operandNotNumber, 2⟩)⟩) := by
    decide +kernel
  obtain ⟨ss, err, hread, -, hfirst, hlast⟩ := error_iff_blamed.2.2 _ _ _ _ hrun
  exact ⟨(error_iff_blamed.1 _ {} {} _).mp ⟨0, _, _, rfl⟩, ss, err, hread, hfirst, hlast⟩

end Lox
