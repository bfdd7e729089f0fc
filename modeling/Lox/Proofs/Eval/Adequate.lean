import Lox.Proofs.Eval.Meets
import Lox.Session

/-!
# The interpreter and the rules agree

* `Eval.evaluates_iff`: an expression has the one result that `Expr.eval` computes;
* `RunsAll.length_scopes`: statements leave every scope that they enter;
* `Stmt.exec_mono`, `Stmt.execAll_mono`: a larger bound keeps every answer, so that there is one
  (`Stmt.execAll_unique`);
* `Stmt.runs_of_exec`, `Stmt.exists_exec_of_runs`: the statements, one way and the other;
* `interpret_iff_runsAll`: programs.
-/

namespace Lox

open Eval (Error State Outcome iterate Evaluates Runs RunsAll)

/-! ## Printed text -/

namespace Output

/-- Prints a text as it stands. -/
def append : Output → String → Output
  | buffer text, more => buffer (text ++ more)
  | silent, _ => silent

@[simp] theorem append_empty (o : Output) : o.append "" = o := by
  cases o <;> simp [append]

@[simp] theorem append_append (o : Output) (s t : String) :
    (o.append s).append t = o.append (s ++ t) := by
  cases o <;> simp [append, String.append_assoc]

theorem println_eq (o : Output) (line : String) : o.println line = o.append (line ++ "\n") := by
  cases o <;> simp [append, println, String.append_assoc]

end Output

/-! ## Expressions -/

theorem Expr.eval_of_evaluates {e : Expr} {c d : Chain} {r : Except Error Value}
    (h : Evaluates e c r d) : e.eval c = (r, d) := by
  induction h with
  | literal => rfl
  | grouping _ ih => exact ih
  | unary _ hop ih | unaryFault _ hop ih =>
    rw [eval, ih]
    simp [UnaryOp.gives_iff.mp hop]
  | unaryOperand _ ih | binaryLeft _ ih | logicalLeft _ ih | assignValue _ ih => rw [eval, ih]
  | binary _ _ hop ihl ihr | binaryFault _ _ hop ihl ihr =>
    rw [eval, ihl]
    simp [ihr, BinaryOp.gives_iff.mp hop]
  | binaryRight _ _ ihl ihr =>
    rw [eval, ihl]
    simp [ihr]
  | logicalDecided _ hop ih =>
    rw [eval, ih]
    simp [LogicalOp.decides_iff.mpr hop]
  | logicalRight _ hop _ ihl ihr =>
    rw [eval, ihl]
    simp [mt LogicalOp.decides_iff.mp hop, ihr]
  | var hnear hs => rw [eval, Chain.get?_eq_some_iff.mpr ⟨_, _, _, hnear, hs⟩]
  | varUnbound hname => rw [eval, Chain.get?_eq_none_iff_unbound.mpr hname]
  | assign _ hnear hd ih =>
    rw [eval, ih]
    simp [Chain.assign?_eq_some_iff.mpr ⟨_, _, _, hnear, hd⟩]
  | assignUnbound _ hname ih =>
    rw [eval, ih]
    simp [Chain.assign?_eq_none_iff.mpr hname]

theorem Eval.Evaluates.of_unary {e : Expr} {c d : Chain} {v : Value}
    (he : Evaluates e c (.ok v) d) (op : UnaryOp) (line : Nat) :
    Evaluates (.unary op line e) c ((op.apply v).mapError (⟨·, line⟩)) d := by
  cases hop : op.apply v with
  | ok w => exact .unary he (UnaryOp.gives_iff.mpr hop)
  | error f => exact .unaryFault he (UnaryOp.gives_iff.mpr hop)

theorem Eval.Evaluates.of_binary {l r : Expr} {c d d' : Chain} {v w : Value}
    (hl : Evaluates l c (.ok v) d) (hr : Evaluates r d (.ok w) d') (op : BinaryOp) (line : Nat) :
    Evaluates (.binary op line l r) c ((op.apply v w).mapError (⟨·, line⟩)) d' := by
  cases hop : op.apply v w with
  | ok u => exact .binary hl hr (BinaryOp.gives_iff.mpr hop)
  | error f => exact .binaryFault hl hr (BinaryOp.gives_iff.mpr hop)

theorem Expr.evaluates_of_eval {e : Expr} {c d : Chain} {r : Except Error Value}
    (h : e.eval c = (r, d)) : Evaluates e c r d := by
  induction e generalizing c d r with
  | literal v =>
    cases h
    exact .literal v c
  | grouping e ih => exact .grouping (ih h)
  | unary op line e ih =>
    rw [eval] at h
    rcases he : e.eval c with ⟨err | v, d'⟩ <;> rw [he] at h <;> cases h
    · exact .unaryOperand (ih he)
    · exact .of_unary (ih he) op line
  | binary op line a b ihl ihr =>
    rw [eval] at h
    rcases hl : a.eval c with ⟨err | v, d'⟩ <;> simp only [hl] at h
    · cases h
      exact .binaryLeft (ihl hl)
    · rcases hr : b.eval d' with ⟨err | w, d''⟩ <;> rw [hr] at h <;> cases h
      · exact .binaryRight (ihl hl) (ihr hr)
      · exact .of_binary (ihl hl) (ihr hr) op line
  | logical op line a b ihl ihr =>
    rw [eval] at h
    rcases hl : a.eval c with ⟨err | v, d'⟩ <;> simp only [hl] at h
    · cases h
      exact .logicalLeft (ihl hl)
    · by_cases hop : op.decides v = true
      · rw [if_pos hop] at h
        cases h
        exact .logicalDecided (ihl hl) (LogicalOp.decides_iff.mp hop)
      · rw [if_neg hop] at h
        exact .logicalRight (ihl hl) (mt LogicalOp.decides_iff.mpr hop) (ihr h)
  | var n =>
    rw [eval] at h
    cases hname : c.get? n.text <;> rw [hname] at h <;> cases h
    · exact .varUnbound (Chain.get?_eq_none_iff_unbound.mp hname)
    · obtain ⟨_, _, _, hnear, hs⟩ := Chain.get?_eq_some_iff.mp hname
      exact .var hnear hs
  | assign n e ih =>
    rw [eval] at h
    rcases he : e.eval c with ⟨err | v, d'⟩ <;> simp only [he] at h
    · cases h
      exact .assignValue (ih he)
    · cases hname : d'.assign? n.text v <;> rw [hname] at h <;> cases h
      · exact .assignUnbound (ih he) (Chain.assign?_eq_none_iff.mp hname)
      · obtain ⟨_, _, _, hnear, hd⟩ := Chain.assign?_eq_some_iff.mp hname
        exact .assign (ih he) hnear hd

/-- An expression has one result, the one that is computed. -/
theorem Eval.evaluates_iff {e : Expr} {c d : Chain} {r : Except Error Value} :
    Evaluates e c r d ↔ e.eval c = (r, d) :=
  ⟨Expr.eval_of_evaluates, Expr.evaluates_of_eval⟩

/-! ## Scopes are left -/

namespace Eval

theorem Evaluates.length_scopes {e : Expr} {c d : Chain} {r : Except Error Value}
    (h : Evaluates e c r d) : d.scopes.length = c.scopes.length := by
  have hdepth := e.depth_eval c
  rw [evaluates_iff.mp h] at hdepth
  simpa [Chain.scopes, Chain.depth] using hdepth

theorem length_scopes_of_binds {c d : Chain} {name : String} {v : Value}
    (h : c.Binds name v d) : d.scopes.length = c.scopes.length := by
  obtain ⟨s, outer, hc, hd⟩ := h
  rw [hc, hd]
  rfl

mutual

theorem Runs.length_scopes {t : Stmt} {c d : Chain} {result : Except Error Unit} {out : String} :
    Runs t c result d out → d.scopes.length = c.scopes.length
  | .expression h | .expressionFails h | .print h | .printFails h | .declareFails h
  | .ifThenSkips h _ | .ifThenFails h | .ifElseFails h | .loopEnds h _ | .loopFails h =>
    h.length_scopes
  | .declare h => length_scopes_of_binds h
  | .declareValue h hd => (length_scopes_of_binds hd).trans h.length_scopes
  | .block hpush h hpop => by
    have hlen := h.length_scopes
    rw [hpush, hpop] at hlen
    exact Nat.succ.inj hlen
  | .ifThen h _ ht | .ifElse h _ ht | .ifElseOther h _ ht | .loopBodyFails h _ ht =>
    ht.length_scopes.trans h.length_scopes
  | .loopRound h _ ht hrest =>
    hrest.length_scopes.trans (ht.length_scopes.trans h.length_scopes)

/-- Statements leave every scope that they enter, also when an error stops them. -/
theorem RunsAll.length_scopes {ts : List Stmt} {c d : Chain} {result : Except Error Unit}
    {out : String} : RunsAll ts c result d out → d.scopes.length = c.scopes.length
  | .nil _ => rfl
  | .cons ht hts => hts.length_scopes.trans ht.length_scopes
  | .fails ht => ht.length_scopes

end

end Eval

/-! ## Larger bounds -/

theorem Eval.iterate_mono {c : Expr} {body body' : State → Outcome} {rounds rounds' : Nat}
    {s : State} {o : Except Error Unit × State}
    (hbody : ∀ s o, body s = some o → body' s = some o) (hle : rounds ≤ rounds')
    (h : iterate c body rounds s = some o) : iterate c body' rounds' s = some o := by
  induction rounds generalizing rounds' s with
  | zero => cases h
  | succ rounds ih =>
    obtain ⟨more, rfl⟩ := Nat.exists_eq_add_of_le' hle
    rw [← Nat.add_assoc]
    rw [iterate] at h ⊢
    rcases he : s.eval c with ⟨err | v, s'⟩ <;> simp only [he] at h ⊢
    · exact h
    · by_cases hv : v.truthy = true
      · simp only [hv, if_true] at h ⊢
        cases hs : body s' with
        | none => simp [hs] at h
        | some o' =>
          rw [hs] at h
          rw [hbody _ _ hs]
          obtain ⟨_ | _, s''⟩ := o'
          · exact h
          · exact ih (Nat.le_add_left ..) h
      · simpa [hv] using h

namespace Stmt

variable {bound bound' : Nat}

mutual

theorem exec_mono (hle : bound ≤ bound') (t : Stmt) (s : State) (o : Except Error Unit × State)
    (h : exec bound t s = some o) : exec bound' t s = some o := by
  cases t with
  | expression | print => exact h
  | declare n e => cases e <;> exact h
  | block ss =>
    rw [exec] at h ⊢
    cases hss : execAll bound ss s.push with
    | none => simp [hss] at h
    | some o' =>
      rw [hss] at h
      rw [execAll_mono hle ss _ _ hss]
      exact h
  | ifThen c t =>
    rw [exec] at h ⊢
    rcases he : s.eval c with ⟨err | v, s'⟩ <;> simp only [he] at h ⊢
    · exact h
    · cases hv : v.truthy <;> simp only [hv] at h ⊢
      · exact h
      · exact exec_mono hle t _ o h
  | ifElse c t u =>
    rw [exec] at h ⊢
    rcases he : s.eval c with ⟨err | v, s'⟩ <;> simp only [he] at h ⊢
    · exact h
    · cases hv : v.truthy <;> simp only [hv] at h ⊢
      · exact exec_mono hle u _ o h
      · exact exec_mono hle t _ o h
  | loop c t =>
    rw [exec] at h ⊢
    exact Eval.iterate_mono (exec_mono hle t) hle h

theorem execAll_mono (hle : bound ≤ bound') (ts : List Stmt) (s : State)
    (o : Except Error Unit × State) (h : execAll bound ts s = some o) :
    execAll bound' ts s = some o := by
  cases ts with
  | nil => exact h
  | cons t ts =>
    rw [execAll] at h ⊢
    cases ht : exec bound t s with
    | none => simp [ht] at h
    | some o' =>
      rw [ht] at h
      rw [exec_mono hle t s o' ht]
      obtain ⟨_ | _, s'⟩ := o'
      · exact h
      · exact execAll_mono hle ts s' o h

end

theorem execAll_unique {ts : List Stmt} {s : State} {o o' : Except Error Unit × State}
    (h : execAll bound ts s = some o) (h' : execAll bound' ts s = some o') : o = o' := by
  have h := execAll_mono (Nat.le_max_left bound bound') ts s o h
  have h' := execAll_mono (Nat.le_max_right bound bound') ts s o' h'
  exact Option.some.inj (h.symm.trans h')

end Stmt

/-! ## Statements -/

theorem Eval.State.eval_iff {s s' : State} {e : Expr} {r : Except Error Value} :
    s.eval e = (r, s') ↔ Evaluates e s.chain r s'.chain ∧ s'.output = s.output := by
  obtain ⟨c, o⟩ := s
  obtain ⟨d, o'⟩ := s'
  simp only [State.eval, evaluates_iff, Prod.ext_iff, State.mk.injEq, and_assoc,
    @eq_comm _ o' o]

theorem Eval.State.eval_of_evaluates {c d : Chain} {e : Expr} {r : Except Error Value}
    (h : Evaluates e c r d) (o : Output) : State.eval ⟨c, o⟩ e = (r, ⟨d, o⟩) :=
  State.eval_iff.mpr ⟨h, rfl⟩

theorem Eval.runs_of_iterate {c : Expr} {t : Stmt} {body : State → Outcome} {rounds : Nat}
    {s s' : State} {r : Except Error Unit}
    (hbody : ∀ s s' r, body s = some (r, s') →
      ∃ out, Runs t s.chain r s'.chain out ∧ s'.output = s.output.append out)
    (h : iterate c body rounds s = some (r, s')) :
    ∃ out, Runs (.loop c t) s.chain r s'.chain out ∧ s'.output = s.output.append out := by
  induction rounds generalizing s with
  | zero => cases h
  | succ rounds ih =>
    rw [iterate] at h
    rcases he : s.eval c with ⟨err | v, s₁⟩ <;> simp only [he] at h <;>
      obtain ⟨he, hout⟩ := State.eval_iff.mp he
    · cases h
      exact ⟨"", .loopFails he, by simp [hout]⟩
    · by_cases hv : v.truthy = true
      · rw [if_pos hv] at h
        have hv := Value.truthy_iff.mp hv
        rcases hs : body s₁ with _ | ⟨err | _, s₂⟩ <;> simp only [hs] at h
        · cases h
        · cases h
          obtain ⟨out, ht, hout₁⟩ := hbody _ _ _ hs
          exact ⟨out, .loopBodyFails he hv ht, by rw [hout₁, hout]⟩
        · obtain ⟨out, ht, hout₁⟩ := hbody _ _ _ hs
          obtain ⟨out', hrest, hout₂⟩ := ih h
          refine ⟨out ++ out', .loopRound he hv ht hrest, ?_⟩
          rw [hout₂, hout₁, hout, Output.append_append]
      · rw [if_neg hv] at h
        cases h
        exact ⟨"", .loopEnds he (Value.not_truthy_iff.mp hv), by simp [hout]⟩

namespace Stmt

variable {bound : Nat}

mutual

/-- What is run follows the rules. -/
theorem runs_of_exec (t : Stmt) (s s' : State) (r : Except Error Unit)
    (h : exec bound t s = some (r, s')) :
    ∃ out, Runs t s.chain r s'.chain out ∧ s'.output = s.output.append out := by
  cases t with
  | expression e =>
    rw [exec] at h
    rcases he : s.eval e with ⟨err | v, s₁⟩ <;> rw [he] at h <;> cases h <;>
      obtain ⟨he, hout⟩ := State.eval_iff.mp he
    · exact ⟨"", .expressionFails he, by simp [hout]⟩
    · exact ⟨"", .expression he, by simp [hout]⟩
  | print e =>
    rw [exec] at h
    rcases he : s.eval e with ⟨err | v, s₁⟩ <;> rw [he] at h <;> cases h <;>
      obtain ⟨he, hout⟩ := State.eval_iff.mp he
    · exact ⟨"", .printFails he, by simp [hout]⟩
    · exact ⟨_, .print he, by rw [State.println, hout, Output.println_eq]⟩
  | declare n e =>
    cases e with
    | none =>
      cases h
      exact ⟨"", .declare (Chain.binds_iff.mpr rfl), by simp [State.define]⟩
    | some e =>
      rw [exec] at h
      rcases he : s.eval e with ⟨err | v, s₁⟩ <;> rw [he] at h <;> cases h <;>
        obtain ⟨he, hout⟩ := State.eval_iff.mp he
      · exact ⟨"", .declareFails he, by simp [hout]⟩
      · exact ⟨"", .declareValue he (Chain.binds_iff.mpr rfl), by simp [State.define, hout]⟩
  | block ss =>
    rw [exec] at h
    rcases hss : execAll bound ss s.push with _ | ⟨r₁, s₁⟩ <;> rw [hss] at h <;> cases h
    · obtain ⟨out, hss, hout⟩ := runsAll_of_execAll ss _ _ _ hss
      -- The scope of the block is still there, also behind an error.
      have hlen : 1 < s₁.chain.scopes.length := by
        rw [hss.length_scopes]
        simp [State.push, Chain.push, Chain.scopes]
      obtain ⟨fresh, hpop⟩ := Chain.exists_scopes_pop hlen
      exact ⟨out, .block (Chain.scopes_push _) hss hpop, hout⟩
  | ifThen c t =>
    rw [exec] at h
    rcases he : s.eval c with ⟨err | v, s₁⟩ <;> simp only [he] at h <;>
      obtain ⟨he, hout⟩ := State.eval_iff.mp he
    · cases h
      exact ⟨"", .ifThenFails he, by simp [hout]⟩
    · by_cases hv : v.truthy = true
      · rw [if_pos hv] at h
        obtain ⟨out, ht, hout₁⟩ := runs_of_exec t _ _ _ h
        exact ⟨out, .ifThen he (Value.truthy_iff.mp hv) ht, by rw [hout₁, hout]⟩
      · rw [if_neg hv] at h
        cases h
        exact ⟨"", .ifThenSkips he (Value.not_truthy_iff.mp hv), by simp [hout]⟩
  | ifElse c t u =>
    rw [exec] at h
    rcases he : s.eval c with ⟨err | v, s₁⟩ <;> simp only [he] at h <;>
      obtain ⟨he, hout⟩ := State.eval_iff.mp he
    · cases h
      exact ⟨"", .ifElseFails he, by simp [hout]⟩
    · by_cases hv : v.truthy = true
      · rw [if_pos hv] at h
        obtain ⟨out, ht, hout₁⟩ := runs_of_exec t _ _ _ h
        exact ⟨out, .ifElse he (Value.truthy_iff.mp hv) ht, by rw [hout₁, hout]⟩
      · rw [if_neg hv] at h
        obtain ⟨out, hu, hout₁⟩ := runs_of_exec u _ _ _ h
        exact ⟨out, .ifElseOther he (Value.not_truthy_iff.mp hv) hu, by rw [hout₁, hout]⟩
  | loop c t => exact Eval.runs_of_iterate (runs_of_exec t) h

theorem runsAll_of_execAll (ts : List Stmt) (s s' : State) (r : Except Error Unit)
    (h : execAll bound ts s = some (r, s')) :
    ∃ out, RunsAll ts s.chain r s'.chain out ∧ s'.output = s.output.append out := by
  cases ts with
  | nil =>
    cases h
    exact ⟨"", .nil _, by simp⟩
  | cons t ts =>
    rw [execAll] at h
    rcases ht : exec bound t s with _ | ⟨err | _, s₁⟩ <;> simp only [ht] at h
    · cases h
    · cases h
      obtain ⟨out, ht, hout⟩ := runs_of_exec t _ _ _ ht
      exact ⟨out, .fails ht, hout⟩
    · obtain ⟨out, ht, hout⟩ := runs_of_exec t _ _ _ ht
      obtain ⟨out', hts, hout'⟩ := runsAll_of_execAll ts _ _ _ h
      exact ⟨out ++ out', .cons ht hts, by rw [hout', hout, Output.append_append]⟩

end

end Stmt

namespace Stmt

mutual

/-- What the rules derive is run, with a bound that is large enough. -/
theorem exists_exec_of_runs {t : Stmt} {c d : Chain} {r : Except Error Unit} {out : String} :
    Runs t c r d out → ∃ bound, ∀ o, exec bound t ⟨c, o⟩ = some (r, ⟨d, o.append out⟩)
  | .expression h | .expressionFails h | .printFails h | .declareFails h | .ifThenFails h
  | .ifElseFails h => ⟨0, fun o => by simp [exec, State.eval_of_evaluates h]⟩
  | .print h => ⟨0, fun o => by
      simp [exec, State.eval_of_evaluates h, State.println, Output.println_eq]⟩
  | .declare h => ⟨0, fun o => by simp [exec, State.define, Chain.binds_iff.mp h]⟩
  | .declareValue h hd => ⟨0, fun o => by
      simp [exec, State.eval_of_evaluates h, State.define, Chain.binds_iff.mp hd]⟩
  | .block hpush h hpop => by
    obtain ⟨bound, hss⟩ := exists_execAll_of_runsAll h
    refine ⟨bound, fun o => ?_⟩
    have hchain : c.push = _ := Chain.scopes_injective hpush.symm
    rw [exec, State.push, hchain, hss]
    simp [State.pop, Chain.pop_of_scopes hpop]
  | .ifThen h hv ht => by
    obtain ⟨bound, ht⟩ := exists_exec_of_runs ht
    refine ⟨bound, fun o => ?_⟩
    simp [exec, State.eval_of_evaluates h, Value.truthy_iff.mpr hv, ht]
  | .ifThenSkips h hv => ⟨0, fun o => by
      simp [exec, State.eval_of_evaluates h, Value.truthy_eq_false_iff.mpr hv]⟩
  | .ifElse h hv ht => by
    obtain ⟨bound, ht⟩ := exists_exec_of_runs ht
    refine ⟨bound, fun o => ?_⟩
    simp [exec, State.eval_of_evaluates h, Value.truthy_iff.mpr hv, ht]
  | .ifElseOther h hv hu => by
    obtain ⟨bound, hu⟩ := exists_exec_of_runs hu
    refine ⟨bound, fun o => ?_⟩
    simp [exec, State.eval_of_evaluates h, Value.truthy_eq_false_iff.mpr hv, hu]
  | .loopEnds h hv => ⟨1, fun o => by
      simp [exec, iterate, State.eval_of_evaluates h, Value.truthy_eq_false_iff.mpr hv]⟩
  | .loopFails h => ⟨1, fun o => by simp [exec, iterate, State.eval_of_evaluates h]⟩
  | .loopBodyFails h hv ht => by
    obtain ⟨bound, ht⟩ := exists_exec_of_runs ht
    refine ⟨bound + 1, fun o => ?_⟩
    simp [exec, iterate, State.eval_of_evaluates h, Value.truthy_iff.mpr hv,
      exec_mono (Nat.le_succ bound) _ _ _ (ht o)]
  | .loopRound h hv ht hrest => by
    obtain ⟨bound, ht⟩ := exists_exec_of_runs ht
    obtain ⟨bound', hrest⟩ := exists_exec_of_runs hrest
    -- one round more than the larger bound allows for the body and for the rounds behind it
    have hle : bound ≤ max bound bound' + 1 := by omega
    have hle' : bound' ≤ max bound bound' := by omega
    refine ⟨max bound bound' + 1, fun o => ?_⟩
    rw [exec, iterate, State.eval_of_evaluates h]
    simp only [Value.truthy_iff.mpr hv, if_true, exec_mono hle _ _ _ (ht o)]
    rw [← Output.append_append]
    exact Eval.iterate_mono (exec_mono (Nat.le_succ_of_le hle') _) hle' (hrest _)

theorem exists_execAll_of_runsAll {ts : List Stmt} {c d : Chain} {r : Except Error Unit}
    {out : String} : RunsAll ts c r d out →
      ∃ bound, ∀ o, execAll bound ts ⟨c, o⟩ = some (r, ⟨d, o.append out⟩)
  | .nil _ => ⟨0, fun o => by simp [execAll]⟩
  | .cons ht hts => by
    obtain ⟨bound, ht⟩ := exists_exec_of_runs ht
    obtain ⟨bound', hts⟩ := exists_execAll_of_runsAll hts
    refine ⟨max bound bound', fun o => ?_⟩
    rw [execAll, exec_mono (Nat.le_max_left ..) _ _ _ (ht o)]
    simp only [← Output.append_append]
    exact execAll_mono (Nat.le_max_right ..) _ _ _ (hts _)
  | .fails ht => by
    obtain ⟨bound, ht⟩ := exists_exec_of_runs ht
    exact ⟨bound, fun o => by simp [execAll, ht]⟩

end

end Stmt

/-! ## Programs -/

/-- What a program's result adds to the log. -/
def Log.afterRun (log : Log) : Except Error Unit → Log
  | .ok () => log
  | .error e => log.emit e.diagnostic

theorem interpret_eq (bound : Nat) (ss : List Stmt) (s : State) (log : Log) :
    interpret bound ss s log =
      (Stmt.execAll bound ss s).map fun o => (o.1, o.2, log.afterRun o.1) := by
  rw [interpret]
  rcases Stmt.execAll bound ss s with _ | ⟨err | _, s'⟩ <;> rfl

theorem interpret_eq_some_iff {bound : Nat} {ss : List Stmt} {s s' : State} {log log' : Log}
    {r : Except Error Unit} : interpret bound ss s log = some (r, s', log') ↔
      Stmt.execAll bound ss s = some (r, s') ∧ log' = log.afterRun r := by
  rw [interpret_eq, Option.map_eq_some_iff]
  constructor
  · rintro ⟨⟨r, s'⟩, hexec, h⟩
    cases h
    exact ⟨hexec, rfl⟩
  · rintro ⟨hexec, rfl⟩
    exact ⟨(r, s'), hexec, rfl⟩

/-- Statements can be run to the end, with some bound on the rounds of loops, exactly when the
rules derive it; then the result, the scopes, the printed text and the log are those of the
derivation. -/
theorem interpret_iff_runsAll {ss : List Stmt} {s s' : State} {log log' : Log}
    {r : Except Error Unit} : (∃ bound, interpret bound ss s log = some (r, s', log')) ↔
      ∃ out, RunsAll ss s.chain r s'.chain out ∧ s'.output = s.output.append out ∧
        log' = log.afterRun r := by
  constructor
  · rintro ⟨bound, h⟩
    rw [interpret_eq, Option.map_eq_some_iff] at h
    obtain ⟨o, hexec, h⟩ := h
    cases h
    obtain ⟨out, hruns, hout⟩ := Stmt.runsAll_of_execAll ss _ _ _ hexec
    exact ⟨out, hruns, hout, rfl⟩
  · rintro ⟨out, hruns, hout, rfl⟩
    obtain ⟨bound, hexec⟩ := Stmt.exists_execAll_of_runsAll hruns
    refine ⟨bound, ?_⟩
    rw [interpret_eq, hexec, ← hout]
    rfl

end Lox
