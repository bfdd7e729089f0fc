import Lox.Proofs.Eval.Adequate
import Lox.Proofs.Lines.Join
import Lox.Proofs.Lines.Read

/-!
# Lines decide nothing but lines

Two runs that begin alike but for the lines go on and end alike but for the lines. Things are alike
in this way if they are equal once every line is replaced by 0.

* `Program.diagnostics_move`, `Program.statements?_move`: programs of tokens on other lines;
* `Log.mapLine`, `Session.mapLine`: reported errors on other lines;
* `interpret_mapLines`: running statements on other lines;
* `rel_interpret`, `Session.read_of_scan`, `Session.rel_run`: what is alike stays alike;
* the main result: what two texts alike but for the lines lead to.
-/

namespace Lox

open Eval (Error State)
open Source (scan)
open Parse (parse Program)

/-! ## Programs -/

namespace Parse

variable (f g : Nat → Nat)

theorem Fault.diagnostic_move (x : Fault) : (x.move f g).diagnostic = x.diagnostic.mapLine f := rfl

theorem Program.diagnostics_move (p : Program) :
    (p.move f g).diagnostics = p.diagnostics.map (·.mapLine f) := by
  rw [diagnostics, move, List.map_map, diagnostics, List.map_map]
  exact List.map_congr_left fun x _ => x.diagnostic_move f g

theorem Program.statements?_move (p : Program) :
    (p.move f g).statements? = p.statements?.map (Stmt.mapLinesAll f) := by
  obtain ⟨slots, faults⟩ := p
  rw [statements?, statements?, move]
  dsimp only
  induction slots with
  | nil => rfl
  | cons slot rest ih =>
    rw [List.map_cons, List.mapM_cons, List.mapM_cons, ih]
    cases slot with
    | none => rfl
    | some s =>
      cases rest.mapM id <;> rfl

end Parse

/-! ## Reported errors -/

/-- The log with every error on another line. -/
def Log.mapLine (f : Nat → Nat) (log : Log) : Log :=
  { log with diagnostics := log.diagnostics.map (·.mapLine f) }

/-- The session with every reported error on another line. -/
def Session.mapLine (f : Nat → Nat) (session : Session) : Session :=
  { session with log := session.log.mapLine f }

section

variable (f : Nat → Nat)

@[simp] theorem Diagnostic.isStatic_mapLine (d : Diagnostic) :
    (d.mapLine f).isStatic = d.isStatic := rfl

theorem Eval.Error.diagnostic_mapLine (e : Error) :
    (e.mapLine f).diagnostic = e.diagnostic.mapLine f := rfl

theorem Log.staticFault_mapLine (log : Log) : (log.mapLine f).staticFault = log.staticFault := rfl

theorem Log.emitAll_mapLine (log : Log) (ds : List Diagnostic) :
    (log.mapLine f).emitAll (ds.map (·.mapLine f)) = (log.emitAll ds).mapLine f := by
  simp [emitAll, mapLine, Function.comp_def]

theorem Log.afterRun_mapLine (log : Log) (result : Except Error Unit) :
    (log.mapLine f).afterRun (result.mapError (·.mapLine f)) = (log.afterRun result).mapLine f := by
  cases result with
  | ok _ => rfl
  | error e => simp [afterRun, emit, mapLine, Eval.Error.diagnostic_mapLine]

theorem interpret_mapLines (bound : Nat) (ss : List Stmt) (s : State) (log : Log) :
    interpret bound (Stmt.mapLinesAll f ss) s (log.mapLine f) =
      (interpret bound ss s log).map fun (result, t, log') =>
        (result.mapError (·.mapLine f), t, log'.mapLine f) := by
  rw [interpret_eq, interpret_eq, Stmt.execAll_mapLines, Eval.Outcome.mapLine, Option.map_map,
    Option.map_map]
  refine congrArg (Option.map · _) (funext fun o => ?_)
  simp only [Function.comp_apply, Log.afterRun_mapLine]

end

/-! ## Texts -/

section

variable {ts us : List Token}

theorem Parse.move_parse (h : us.map (·.mapLine fun _ => 0) = ts.map (·.mapLine fun _ => 0)) :
    (parse us).move (fun _ => 0) id = (parse ts).move (fun _ => 0) id := by
  rw [← parse_mapLine, ← parse_mapLine, h]

theorem Parse.diagnostics_parse
    (h : us.map (·.mapLine fun _ => 0) = ts.map (·.mapLine fun _ => 0)) :
    (parse us).diagnostics.map (·.mapLine fun _ => 0) =
      (parse ts).diagnostics.map (·.mapLine fun _ => 0) := by
  rw [← Program.diagnostics_move _ id, ← Program.diagnostics_move _ id, move_parse h]

end

theorem rel_interpret {ss us : List Stmt} {log log' : Log} (bound : Nat) (s : State)
    (hss : Stmt.mapLinesAll (fun _ => 0) us = Stmt.mapLinesAll (fun _ => 0) ss)
    (hlog : log'.mapLine (fun _ => 0) = log.mapLine fun _ => 0) :
    Option.Rel (fun o o' => o'.1.mapError (·.mapLine fun _ => 0) =
        o.1.mapError (·.mapLine fun _ => 0) ∧ o'.2.1 = o.2.1 ∧
        o'.2.2.mapLine (fun _ => 0) = o.2.2.mapLine fun _ => 0)
      (interpret bound ss s log) (interpret bound us s log') := by
  have hmap := interpret_mapLines (fun _ => 0) bound us s log'
  rw [hss, hlog, interpret_mapLines] at hmap
  revert hmap
  generalize interpret bound ss s log = o, interpret bound us s log' = o'
  intro hmap
  rcases o with - | ⟨result, t, log₁⟩ <;> rcases o' with - | ⟨result', t', log₁'⟩
  · exact .none
  · cases hmap
  · cases hmap
  · obtain ⟨hresult, hrest⟩ := Prod.mk.inj (Option.some.inj hmap)
    obtain ⟨hstate, hlog₁⟩ := Prod.mk.inj hrest
    exact .some ⟨hresult.symm, hstate.symm, hlog₁.symm⟩

theorem rel_map {α β : Type} {R : α → α → Prop} {S : β → β → Prop} {F : α → β} {o o' : Option α}
    (h : Option.Rel R o o') (hF : ∀ a b, R a b → S (F a) (F b)) :
    Option.Rel S (o.map F) (o'.map F) := by
  cases h with
  | none => exact .none
  | some h => exact .some (hF _ _ h)

namespace Session

/-- How the run of a text ends is read off the result of its statements. -/
theorem run_of_read {bound : Nat} {session τ : Session} {source : String} {ss : List Stmt}
    (h : session.read source = (some ss, τ)) : session.run bound source =
      (interpret bound ss τ.state τ.log).map fun o =>
        (if o.1.isOk then .success else .runtimeError, ⟨o.2.1, o.2.2⟩) := by
  rw [run, h]
  dsimp only
  rcases interpret bound ss τ.state τ.log with - | ⟨err | u, t, l⟩ <;> rfl

variable {P Q : String} {session session' : Session} (hP : (scan P).2 = []) (hQ : (scan Q).2 = [])
  (hscan : (scan Q).1.map (·.mapLine fun _ => 0) = (scan P).1.map (·.mapLine fun _ => 0))
  (hs : session'.mapLine (fun _ => 0) = session.mapLine fun _ => 0)

include hP hQ hscan hs

/-- Sessions alike but for the lines read texts of such tokens alike. -/
theorem read_of_scan : (session'.read Q).1.map (Stmt.mapLinesAll fun _ => 0) =
      (session.read P).1.map (Stmt.mapLinesAll fun _ => 0) ∧
    (session'.read Q).2.mapLine (fun _ => 0) = (session.read P).2.mapLine fun _ => 0 := by
  obtain ⟨state, log⟩ := session
  obtain ⟨state', log'⟩ := session'
  obtain ⟨rfl, hlog⟩ := Session.mk.inj hs
  have hlogs : (log'.emitAll (parse (scan Q).1).diagnostics).mapLine (fun _ => 0) =
      (log.emitAll (parse (scan P).1).diagnostics).mapLine fun _ => 0 := by
    rw [← Log.emitAll_mapLine, ← Log.emitAll_mapLine, hlog, Parse.diagnostics_parse hscan]
  have hfault : (log'.emitAll (parse (scan Q).1).diagnostics).staticFault =
      (log.emitAll (parse (scan P).1).diagnostics).staticFault := by
    rw [← Log.staticFault_mapLine (fun _ => 0), hlogs, Log.staticFault_mapLine]
  have hstatements := congrArg Program.statements? (Parse.move_parse hscan)
  rw [Program.statements?_move, Program.statements?_move] at hstatements
  simp only [read, ofSource_eq, hP, hQ, List.nil_append, hfault]
  refine ⟨?_, congrArg (Session.mk state') hlogs⟩
  split
  · rfl
  · exact hstatements

theorem rel_run (bound : Nat) : Option.Rel (fun o o' => o'.1 = o.1 ∧
      o'.2.mapLine (fun _ => 0) = o.2.mapLine fun _ => 0)
    (session.run bound P) (session'.run bound Q) := by
  obtain ⟨hstatements, hread⟩ := read_of_scan hP hQ hscan hs
  rcases hp : session.read P with ⟨_ | ss, τ⟩ <;> rcases hq : session'.read Q with ⟨_ | us, τ'⟩ <;>
    rw [hp, hq] at hstatements hread
  · rw [run, run, hp, hq]
    exact .some ⟨rfl, hread⟩
  · cases hstatements
  · cases hstatements
  · obtain ⟨hstate, hlog⟩ := Session.mk.inj hread
    have hrel := rel_interpret bound τ.state (Option.some.inj hstatements) hlog
    rw [run_of_read hp, run_of_read hq, hstate]
    refine rel_map hrel ?_
    rintro ⟨result, t, l⟩ ⟨result', t', l'⟩ ⟨hresult, rfl, hl⟩
    have hok : result'.isOk = result.isOk := by
      have hok := congrArg Except.isOk hresult
      cases result <;> cases result' <;> exact hok
    exact ⟨by rw [hok], congrArg (Session.mk t') hl⟩

end Session

/-- **Lines decide nothing but lines.** Tokens alike but for their lines make up programs alike but
for the lines, with the same gaps, and are reported with the same errors on perhaps other lines.
Statements alike but for their lines end alike, in the same state, with the same error on perhaps
another line. And so texts without lexical errors, of tokens alike but for their lines, are worth
the same to a session. -/
theorem lines_ignored :
    (∀ {ts us : List Token}, us.map (·.mapLine fun _ => 0) = ts.map (·.mapLine fun _ => 0) →
      (parse us).slots.map (·.map (·.mapLines fun _ => 0)) =
          (parse ts).slots.map (·.map (·.mapLines fun _ => 0)) ∧
        (parse us).diagnostics.map (·.mapLine fun _ => 0) =
          (parse ts).diagnostics.map (·.mapLine fun _ => 0)) ∧
    (∀ (bound : Nat) (s : State) {ss us : List Stmt} {log log' : Log},
      Stmt.mapLinesAll (fun _ => 0) us = Stmt.mapLinesAll (fun _ => 0) ss →
      log'.mapLine (fun _ => 0) = log.mapLine (fun _ => 0) →
      Option.Rel (fun o o' => o'.1.mapError (·.mapLine fun _ => 0) =
          o.1.mapError (·.mapLine fun _ => 0) ∧ o'.2.1 = o.2.1 ∧
          o'.2.2.mapLine (fun _ => 0) = o.2.2.mapLine fun _ => 0)
        (interpret bound ss s log) (interpret bound us s log')) ∧
    (∀ (bound : Nat) {P Q : String} {session session' : Session},
      (scan P).2 = [] → (scan Q).2 = [] →
      (scan Q).1.map (·.mapLine fun _ => 0) = (scan P).1.map (·.mapLine fun _ => 0) →
      session'.mapLine (fun _ => 0) = session.mapLine (fun _ => 0) →
      Option.Rel (fun o o' => o'.1 = o.1 ∧
          o'.2.mapLine (fun _ => 0) = o.2.mapLine fun _ => 0)
        (session.run bound P) (session'.run bound Q)) := by
  refine ⟨fun h => ⟨?_, Parse.diagnostics_parse h⟩, ?_, ?_⟩
  · exact congrArg Program.slots (Parse.move_parse h)
  · intro bound s ss us log log' hss hlog
    exact rel_interpret bound s hss hlog
  · intro bound P Q session session' hP hQ hscan hs
    exact Session.rel_run hP hQ hscan hs bound

/-- A missing expression, an unknown variable, and both a declaration and an unknown variable in a
text, each on one line and on several. -/
theorem lines_ignored_undefined :
    (parse [⟨.printKw, "print", none, 1⟩, ⟨.semicolon, ";", none, 3⟩]).diagnostics.map
        (·.mapLine fun _ => 0) =
      (parse [⟨.printKw, "print", none, 1⟩, ⟨.semicolon, ";", none, 1⟩]).diagnostics.map
        (·.mapLine fun _ => 0) ∧
    (∃ o o', interpret 1 [.print (.var ⟨"b", 1⟩)] {} {} = some o ∧
      interpret 1 [.print (.var ⟨"b", 2⟩)] {} {} = some o' ∧ o'.2.1 = o.2.1) ∧
    ∃ s s', ({} : Session).run 1 "var a; print b;" = some (.runtimeError, s) ∧
      ({} : Session).run 1 "var a;\nprint\nb;" = some (.runtimeError, s') ∧
      s'.mapLine (fun _ => 0) = s.mapLine fun _ => 0 := by
  obtain ⟨hparse, hinterpret, hrun⟩ := lines_ignored
  refine ⟨(hparse (by decide)).2, ?_, ?_⟩
  · have hrel := @hinterpret 1 {} [.print (.var ⟨"b", 1⟩)] [.print (.var ⟨"b", 2⟩)] {} {} rfl rfl
    obtain ⟨-, hstate, -⟩ | _ := hrel
    exact ⟨_, _, rfl, rfl, hstate⟩
  · have hrel := @hrun 1 "var a; print b;" "var a;\nprint\nb;" {} {} (by decide +kernel)
      (by decide +kernel) (by decide +kernel) rfl
    have hone : ({} : Session).run 1 "var a; print b;" =
        some (.runtimeError, ⟨{ chain := ⟨[], ⟨[("a", .nil)]⟩⟩ },
          ({} : Log).emit (.runtime 1 "Undefined variable 'b'.")⟩) := by decide +kernel
    have hthree : ({} : Session).run 1 "var a;\nprint\nb;" =
        some (.runtimeError, ⟨{ chain := ⟨[], ⟨[("a", .nil)]⟩⟩ },
          ({} : Log).emit (.runtime 3 "Undefined variable 'b'.")⟩) := by decide +kernel
    rw [hone, hthree] at hrel
    obtain ⟨-, hsession⟩ | _ := hrel
    exact ⟨_, _, hone, hthree, hsession⟩

end Lox
