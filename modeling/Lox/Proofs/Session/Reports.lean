import Lox.Proofs.Eval.Visits
import Lox.Proofs.Lines.Run
import Lox.Proofs.Parse.Cascade
import Lox.Proofs.Session.Text

/-!
# Results and reports

Every result that is an error has been reported, and nothing else has but targets of assignments.

* `Diagnostic.IsTarget`: an error about the target of an assignment, after which reading goes on;
* `Parse.ExprRun.Reported`: the fault that ends the reading of an expression is the latest found,
  and the only one that ends it (`reported_read`, `reported_foldl`);
* `Parse.parseExpr_reported`: expressions; `Parse.exists_of_gap`: programs;
* `Eval.FirstError`: the first statement that ends in an error; `Stmt.firstError_iff`;
* the main result: `results_reported`.
-/

namespace Lox

open Eval (Error State RunsAll)

/-- The error is about the target of an assignment. -/
def Diagnostic.IsTarget (d : Diagnostic) : Prop :=
  d.stage = .syntactic ∧ d.message = "Invalid assignment target."

namespace Parse

theorem Fault.isMajor_iff {f : Fault} :
    f.isMajor = true ↔ f.cause.message ≠ "Invalid assignment target." := by
  simp [Fault.isMajor, Fault.diagnostic, Diagnostic.syntactic]

theorem Minor.isTarget {fs : List Fault} (h : Minor fs) :
    ∀ d ∈ fs.map Fault.diagnostic, d.IsTarget := by
  intro d hd
  obtain ⟨f, hf, rfl⟩ := List.mem_map.mp hd
  refine ⟨rfl, ?_⟩
  by_contra hne
  have hmajor := Fault.isMajor_iff.mpr hne
  rw [h f hf] at hmajor
  cases hmajor

/-! ## Expressions -/

namespace ExprRun

variable {run : ExprRun}

/-- The fault that has ended the reading is the latest. All others are minor. -/
def Reported (run : ExprRun) : Prop :=
  match run.progress with
  | .ok _ => Minor run.faults
  | .error f => f.isMajor = true ∧ ∃ fs, run.faults = f :: fs ∧ Minor fs

theorem reported_fail {f : Fault} {fs : List Fault} (hf : f.isMajor = true)
    (hfs : Minor fs) (hrun : Minor run.faults) : (run.fail f fs).Reported :=
  ⟨hf, _, rfl, hfs.reverse.append hrun⟩

theorem reported_read (h : run.Reported) (t : Placed) : (run.read t).Reported := by
  cases hprogress : run.progress with
  | error f =>
    rw [read, hprogress]
    exact h
  | ok reader =>
    have hrun : Minor run.faults := by
      rwa [Reported, hprogress] at h
    have hsound := reader.sound_read t
    rw [read, hprogress]
    dsimp only
    cases hread : reader.read t with
    | next next fs =>
      rw [hread] at hsound
      exact hsound.reverse.append hrun
    | ended e fs =>
      rw [hread] at hsound
      exact reported_fail (Fault.isMajor_eq t .endOfExpression) hsound hrun
    | failed cause fs =>
      rw [hread] at hsound
      refine reported_fail ?_ hsound.2 hrun
      rw [Fault.isMajor_eq, hsound.1]
      rfl

theorem reported_foldl (h : run.Reported) (ps : List Placed) :
    (ps.foldl read run).Reported := by
  induction ps generalizing run with
  | nil => exact h
  | cons t ps ih => exact ih (reported_read h t)

theorem sound_finish (reader : ExprReader) : match reader.finish with
    | (.ok _, fs) => Minor fs
    | (.error cause, fs) => cause.isMinor = false ∧ Minor fs := by
  cases reader with
  | operand pending => exact ⟨rfl, .nil⟩
  | operator e pending =>
    have hminor := close_minor 0 e pending
    rcases close_zero_pending e pending with hnil | ⟨rest, hparen⟩
    · simp only [ExprReader.finish, hnil]
      exact hminor
    · simp only [ExprReader.finish, hparen]
      exact ⟨rfl, hminor⟩

theorem reported_finish (h : run.Reported) (t : Placed) : match (run.finish t).1 with
    | .ok _ => Minor (run.finish t).2
    | .error f => f.isMajor = true ∧ ∃ gs, (run.finish t).2 = gs ++ [f] ∧ Minor gs := by
  cases hprogress : run.progress with
  | ok reader =>
    rw [Reported, hprogress] at h
    have hsound := sound_finish reader
    simp only [finish, hprogress]
    rcases hfinish : reader.finish with ⟨cause | e, fs⟩ <;> rw [hfinish] at hsound
    · refine ⟨?_, _, (List.append_assoc ..).symm, h.reverse.append hsound.2⟩
      rw [Fault.isMajor_eq, hsound.1]
      rfl
    · exact h.reverse.append hsound
  | error f =>
    rw [Reported, hprogress] at h
    obtain ⟨hf, fs, hfs, hminor⟩ := h
    rw [finish, hprogress]
    exact ⟨hf, fs.reverse, by rw [hfs, List.reverse_cons], hminor.reverse⟩

end ExprRun

/-- An expression comes with minor faults only. The fault that prevents one is the last. -/
theorem parseExpr_reported (tokens : List Token) : match (parseExpr tokens).1 with
    | .ok _ => Minor (parseExpr tokens).2
    | .error f => f.isMajor = true ∧ ∃ gs, (parseExpr tokens).2 = gs ++ [f] ∧ Minor gs :=
  ExprRun.reported_finish (ExprRun.reported_foldl (show ExprRun.Reported {} from Minor.nil) _) _

theorem isTarget_of_parseExpr {tokens : List Token} {e : Expr}
    (h : (parseExpr tokens).1 = .ok e) :
    ∀ d ∈ (parseExpr tokens).2.map Fault.diagnostic, d.IsTarget := by
  have hreported := parseExpr_reported tokens
  rw [h] at hreported
  exact hreported.isTarget

theorem diagnostics_of_parseExpr_error {tokens : List Token} {f : Fault}
    (h : (parseExpr tokens).1 = .error f) : f.cause.message ≠ "Invalid assignment target." ∧
      ∃ es, (∀ d ∈ es, d.IsTarget) ∧
        (parseExpr tokens).2.map Fault.diagnostic = es ++ [f.diagnostic] := by
  have hreported := parseExpr_reported tokens
  rw [h] at hreported
  obtain ⟨hf, gs, hfs, hgs⟩ := hreported
  refine ⟨Fault.isMajor_iff.mp hf, gs.map Fault.diagnostic, hgs.isTarget, ?_⟩
  rw [hfs, List.map_append, List.map_singleton]

/-! ## Programs -/

theorem exists_of_gap {tokens : List Token} (h : none ∈ (parse tokens).slots) :
    ∃ d ∈ (parse tokens).diagnostics, d.message ≠ "Invalid assignment target." := by
  obtain ⟨r, hsettled, hparse⟩ := settled_parse tokens
  rw [hparse] at h ⊢
  have hgaps : 0 < r.gaps := by
    rw [Reader.gaps, List.countP_pos_iff]
    exact ⟨none, List.mem_reverse.mp h, rfl⟩
  have hmajors : 0 < r.majors.length := Nat.lt_of_lt_of_le hgaps hsettled.gaps
  obtain ⟨f, hf⟩ := List.exists_mem_of_length_pos hmajors
  obtain ⟨hmem, hmajor⟩ := List.mem_filter.mp hf
  exact ⟨_, List.mem_map_of_mem (List.mem_reverse.mpr hmem), Fault.isMajor_iff.mp hmajor⟩

end Parse

/-! ## Runs -/

/-- The first of the statements that does not end normally ends in the error. -/
def Stmt.FirstError (bound : Nat) (ss : List Stmt) (s : State) (err : Error) : Prop :=
  ∃ pre t post s₁ s₂, ss = pre ++ t :: post ∧ execAll bound pre s = some (.ok (), s₁) ∧
    exec bound t s₁ = some (.error err, s₂)

section

variable {bound : Nat} {ss : List Stmt} {s s' : State} {err : Error}

theorem Stmt.firstError_of_execAll (h : execAll bound ss s = some (.error err, s')) :
    FirstError bound ss s err := by
  induction ss generalizing s with
  | nil => cases h
  | cons t ss ih =>
    rw [execAll] at h
    rcases ht : t.exec bound s with - | ⟨err' | v, s₂⟩ <;> rw [ht] at h
    · cases h
    · exact ⟨[], t, ss, s, s', rfl, rfl, ht.trans h⟩
    · obtain ⟨pre, u, post, s₁, s₃, rfl, hpre, hu⟩ := ih h
      refine ⟨t :: pre, u, post, s₁, s₃, rfl, ?_, hu⟩
      rw [execAll, ht]
      exact hpre

/-- Statements end in the error of the first of them that ends in one. -/
theorem Stmt.firstError_iff :
    FirstError bound ss s err ↔ ∃ s', execAll bound ss s = some (.error err, s') := by
  constructor
  · rintro ⟨pre, t, post, s₁, s₂, rfl, hpre, ht⟩
    refine ⟨s₂, ?_⟩
    rw [execAll_append, hpre]
    dsimp only
    rw [execAll, ht]
  · rintro ⟨s', h⟩
    exact firstError_of_execAll h

theorem Eval.RunsAll.eq_of_execAll {d : Chain} {out : String} {r r' : Except Error Unit}
    (h : RunsAll ss s.chain r d out) (hexec : Stmt.execAll bound ss s = some (r', s')) :
    r' = r := by
  obtain ⟨bound', hall⟩ := Stmt.exists_execAll_of_runsAll h
  exact congrArg Prod.fst (Stmt.execAll_unique hexec (hall s.output))

theorem exists_reported_of_interpret {log log' : Log} {r : Except Error Unit}
    (h : interpret bound ss s log = some (r, s', log')) : ∃ ds,
      log'.diagnostics = log.diagnostics ++ ds ∧ (r = .ok () ↔ ds = []) ∧
      ∀ e, r = .error e ↔ Stmt.FirstError bound ss s e ∧
        ds = [⟨.runtime, e.line, .unknown, e.fault.message⟩] := by
  obtain ⟨hexec, rfl⟩ := interpret_eq_some_iff.mp h
  cases r with
  | ok =>
    refine ⟨[], (List.append_nil _).symm, by simp, fun e => ?_⟩
    simp
  | error e =>
    refine ⟨[e.diagnostic], rfl, by simp, fun e' => ⟨?_, ?_⟩⟩
    · intro he
      cases he
      exact ⟨Stmt.firstError_of_execAll hexec, rfl⟩
    · rintro ⟨hfirst, -⟩
      obtain ⟨s'', hexec'⟩ := Stmt.firstError_iff.mp hfirst
      rw [hexec] at hexec'
      exact congrArg Prod.fst (Option.some.inj hexec')

theorem firstError_iff_interpret (log : Log) : Stmt.FirstError bound ss s err ↔
    ∃ s' log', interpret bound ss s log = some (.error err, s', log') := by
  rw [Stmt.firstError_iff]
  constructor
  · rintro ⟨s', h⟩
    exact ⟨s', _, interpret_eq_some_iff.mpr ⟨h, rfl⟩⟩
  · rintro ⟨s', log', h⟩
    exact ⟨s', (interpret_eq_some_iff.mp h).1⟩

theorem error_of_reached {log log' : Log} {r : Except Error Unit} {v : Eval.Visit}
    (h : interpret bound ss s log = some (r, s', log')) (hv : Eval.Reached ss s.chain v)
    (herr : v.Fails err) : r = .error err := by
  obtain ⟨d, out, hruns⟩ := hv.fails herr
  exact hruns.eq_of_execAll (interpret_eq_some_iff.mp h).1

end

/-- **Results and reports agree.** The reading of an expression, the reading of a program and a run
only add errors to those that the log holds. A fault that prevents an expression is the last one
added, and all others are about targets of assignments; so are all if there is an expression. A
program without added errors has all its declarations, one with a declaration at fault has an
error that is not about a target, and all its errors are syntactic. A run adds nothing if it ends
normally. Otherwise it adds the first error that a statement ends in, and nothing else. -/
theorem results_reported :
    (∀ (tokens : List Token) (log : Log), ∃ ds,
      (log.emitAll ((Parse.parseExpr tokens).2.map Parse.Fault.diagnostic)).diagnostics =
        log.diagnostics ++ ds ∧
      (∀ e, (Parse.parseExpr tokens).1 = .ok e → ∀ d ∈ ds, d.IsTarget) ∧
      ∀ f, (Parse.parseExpr tokens).1 = .error f → f.cause.message ≠ "Invalid assignment target." ∧
        ∃ es, (∀ d ∈ es, d.IsTarget) ∧ ds = es ++
          [⟨.syntactic, f.token.line, .ofToken f.token.toToken, f.cause.message⟩]) ∧
    (∀ (tokens : List Token) (log : Log), ∃ ds,
      (log.emitAll (Parse.parse tokens).diagnostics).diagnostics = log.diagnostics ++ ds ∧
      (∀ d ∈ ds, d.stage = .syntactic) ∧
      (ds = [] → ∀ slot ∈ (Parse.parse tokens).slots, slot.isSome) ∧
      (none ∈ (Parse.parse tokens).slots → ∃ d ∈ ds, d.message ≠ "Invalid assignment target.")) ∧
    ∀ (bound : Nat) (ss : List Stmt) (s : State) (log : Log),
      (∀ e, Stmt.FirstError bound ss s e ↔
        ∃ s' log', interpret bound ss s log = some (.error e, s', log')) ∧
      ∀ r s' log', interpret bound ss s log = some (r, s', log') → ∃ ds,
        log'.diagnostics = log.diagnostics ++ ds ∧ (r = .ok () ↔ ds = []) ∧
        (∀ e, r = .error e ↔ Stmt.FirstError bound ss s e ∧
          ds = [⟨.runtime, e.line, .unknown, e.fault.message⟩]) ∧
        ∀ v e, Eval.Reached ss s.chain v → v.Fails e → r = .error e := by
  refine ⟨fun tokens log => ?_, fun tokens log => ?_, fun bound ss s log => ⟨?_, ?_⟩⟩
  · exact ⟨_, rfl, fun e => Parse.isTarget_of_parseExpr,
      fun f => Parse.diagnostics_of_parseExpr_error⟩
  · refine ⟨_, rfl, fun d => Parse.stage_of_parse, fun hnil slot hslot => ?_,
      Parse.exists_of_gap⟩
    cases slot with
    | some t => rfl
    | none =>
      obtain ⟨d, hd, -⟩ := Parse.exists_of_gap hslot
      rw [hnil] at hd
      exact absurd hd List.not_mem_nil
  · exact fun e => firstError_iff_interpret log
  · intro r s' log' h
    obtain ⟨ds, happend, hok, herror⟩ := exists_reported_of_interpret h
    exact ⟨ds, happend, hok, herror, fun v e hv herr => error_of_reached h hv herr⟩

/-- A target that is no name and a token too many; a declaration without an expression; and a sign
change of `nil` while an older error is in the log. -/
theorem results_reported_sign :
    (∃ es, (∀ d ∈ es, Diagnostic.IsTarget d) ∧ (({} : Log).emitAll ((Parse.parseExpr
        [Parse.bare .nilKw, Parse.bare .equal, Parse.bare .nilKw, Parse.bare .nilKw]).2.map
          Parse.Fault.diagnostic)).diagnostics =
      es ++ [⟨.syntactic, 1, .lexeme "", "Expect end of expression."⟩]) ∧
    (∃ d ∈ (Parse.parse [Parse.bare .plus]).diagnostics,
      d.message ≠ "Invalid assignment target.") ∧
    ∃ s' log', interpret 0 [.print (.literal .nil), .expression (.unary .negate 2 (.literal .nil)),
        .print (.literal .nil)] {} (({} : Log).emit (.runtime 7 "")) =
          some (.error ⟨.operandNotNumber, 2⟩, s', log') ∧
      log'.diagnostics = [.runtime 7 "", .runtime 2 "Operand must be a number."] := by
  obtain ⟨hexpr, hparse, hrun⟩ := results_reported
  obtain ⟨ds, hds, -, herror⟩ := hexpr [Parse.bare .nilKw, Parse.bare .equal,
    Parse.bare .nilKw, Parse.bare .nilKw] {}
  obtain ⟨-, es, hes, rfl⟩ := herror _ rfl
  obtain ⟨ds', hds', -, -, hgap⟩ := hparse [Parse.bare .plus] {}
  obtain ⟨d, hd, hmessage⟩ := hgap (List.mem_singleton_self none)
  obtain ⟨hfirst, hresult⟩ := hrun 0 [.print (.literal .nil),
    .expression (.unary .negate 2 (.literal .nil)), .print (.literal .nil)] {}
    (({} : Log).emit (.runtime 7 ""))
  obtain ⟨s', log', h⟩ := (hfirst ⟨.operandNotNumber, 2⟩).mp
    ⟨[_], _, [_], _, _, rfl, rfl, rfl⟩
  obtain ⟨ds'', hds'', -, hiff, -⟩ := hresult _ _ _ h
  refine ⟨⟨es, hes, hds⟩, ⟨d, ?_, hmessage⟩, s', log', h, ?_⟩
  · rwa [← List.append_cancel_left hds'] at hd
  · rw [hds'', ((hiff _).mp rfl).2]
    rfl

end Lox
