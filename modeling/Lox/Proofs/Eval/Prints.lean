import Lox.Proofs.Eval.Adequate

/-!
# What a run prints

* `Value.lines`: the text of printed values, one a line;
* `Stmt.prints`, `Stmt.printsAll`, `Eval.roundPrints`: the values that statements and loops print,
  in order, told by the scopes alone;
* `Eval.Outcome.onto`: an outcome, printed behind what an output holds;
* `Stmt.exec_onto`, `Stmt.execAll_onto`: a run with any output is the silent run, printed;
* `Stmt.printsAll_append`: statements run later;
* the main result: `output_write_only`.
-/

namespace Lox

open Eval (Error State Outcome iterate)

/-- The text of printed values, one a line. -/
def Value.lines : List Value → String
  | [] => ""
  | v :: vs => v.text ++ "\n" ++ lines vs

@[simp] theorem Value.lines_nil : lines [] = "" := rfl

theorem Value.lines_append (vs ws : List Value) : lines (vs ++ ws) = lines vs ++ lines ws := by
  induction vs with
  | nil => simp [lines]
  | cons v vs ih => simp only [List.cons_append, lines, ih, String.append_assoc]

/-! ## Printed values -/

/-- The values that the rounds of a loop print, for at most the given number of rounds. The body is
known by its runs and by what it prints. -/
def Eval.roundPrints (condition : Expr) (body : State → Outcome) (printed : Chain → List Value) :
    Nat → Chain → List Value
  | 0, _ => []
  | rounds + 1, c =>
    match condition.eval c with
    | (.error _, _) => []
    | (.ok v, c) =>
      if v.truthy then
        printed c ++ match body ⟨c, .silent⟩ with
          | some (.ok (), s) => roundPrints condition body printed rounds s.chain
          | _ => []
      else []

namespace Stmt

mutual

/-- The values that a statement prints, each loop running for at most `bound` rounds. -/
def prints (bound : Nat) : Stmt → Chain → List Value
  | expression _, _ | declare _ _, _ => []
  | print e, c =>
    match e.eval c with
    | (.ok v, _) => [v]
    | (.error _, _) => []
  | block ss, c => printsAll bound ss c.push
  | ifThen e t, c =>
    match e.eval c with
    | (.ok v, c) => if v.truthy then prints bound t c else []
    | (.error _, _) => []
  | ifElse e t u, c =>
    match e.eval c with
    | (.ok v, c) => if v.truthy then prints bound t c else prints bound u c
    | (.error _, _) => []
  | loop e b, c => Eval.roundPrints e (exec bound b) (prints bound b) bound c

/-- The values that statements print, one after the other, up to the first error. -/
def printsAll (bound : Nat) : List Stmt → Chain → List Value
  | [], _ => []
  | t :: ts, c =>
    prints bound t c ++ match exec bound t ⟨c, .silent⟩ with
      | some (.ok (), s) => printsAll bound ts s.chain
      | _ => []

end

end Stmt

/-! ## Any output -/

/-- The outcome, with the values printed behind what the output holds. -/
def Eval.Outcome.onto (o : Output) (vs : List Value) (x : Outcome) : Outcome :=
  x.map fun (result, s) => (result, ⟨s.chain, o.append (Value.lines vs)⟩)

@[simp] theorem Eval.Outcome.onto_some (o : Output) (vs : List Value) (r : Except Error Unit)
    (s : State) : onto o vs (some (r, s)) = some (r, ⟨s.chain, o.append (Value.lines vs)⟩) := rfl

@[simp] theorem Eval.Outcome.onto_onto (o o' : Output) (vs ws : List Value) (x : Outcome) :
    (x.onto o' vs).onto o ws = x.onto o ws := by
  cases x <;> rfl

theorem Eval.Outcome.onto_append (o : Output) (vs ws : List Value) (x : Outcome) :
    x.onto (o.append (Value.lines vs)) ws = x.onto o (vs ++ ws) := by
  simp [onto, Value.lines_append]

theorem Eval.iterate_onto {condition : Expr} {body : State → Outcome}
    {printed : Chain → List Value}
    (h : ∀ c o, body ⟨c, o⟩ = (body ⟨c, .silent⟩).onto o (printed c)) (rounds : Nat) (c : Chain)
    (o : Output) : iterate condition body rounds ⟨c, o⟩ =
      (iterate condition body rounds ⟨c, .silent⟩).onto o
        (roundPrints condition body printed rounds c) := by
  induction rounds generalizing c o with
  | zero => rfl
  | succ rounds ih =>
    rw [iterate, iterate, State.eval, State.eval, roundPrints]
    rcases condition.eval c with ⟨err | v, d⟩
    · simp
    · dsimp only
      split
      · rw [h d o]
        rcases body ⟨d, .silent⟩ with - | ⟨err | u, d', o'⟩
        · rfl
        · simp
        · rw [Outcome.onto_some]
          dsimp only
          rw [ih d', ih d' o', Outcome.onto_onto, Outcome.onto_append]
      · simp

namespace Stmt

variable (bound : Nat)

mutual

theorem exec_onto : ∀ (t : Stmt) (c : Chain) (o : Output),
    exec bound t ⟨c, o⟩ = (exec bound t ⟨c, .silent⟩).onto o (prints bound t c)
  | expression e, c, o => by
    rw [exec, exec, State.eval, State.eval, prints]
    rcases e.eval c with ⟨err | v, d⟩ <;> simp
  | print e, c, o => by
    rw [exec, exec, State.eval, State.eval, prints]
    rcases e.eval c with ⟨err | v, d⟩
    · simp
    · simp [Value.lines, State.println, Output.println_eq]
  | declare n none, c, o => by
    simp [exec, prints, State.define]
  | declare n (some e), c, o => by
    rw [exec, exec, State.eval, State.eval, prints]
    rcases e.eval c with ⟨err | v, d⟩ <;> simp [State.define]
  | block ss, c, o => by
    rw [exec, exec, State.push, State.push, execAll_onto, prints]
    rcases execAll bound ss ⟨c.push, .silent⟩ with - | ⟨result, s⟩ <;> rfl
  | ifThen e t, c, o => by
    rw [exec, exec, State.eval, State.eval, prints]
    rcases e.eval c with ⟨err | v, d⟩
    · simp
    · dsimp only
      split
      · exact exec_onto t d o
      · simp
  | ifElse e t u, c, o => by
    rw [exec, exec, State.eval, State.eval, prints]
    rcases e.eval c with ⟨err | v, d⟩
    · simp
    · dsimp only
      split
      · exact exec_onto t d o
      · exact exec_onto u d o
  | loop e b, c, o => by
    rw [exec, exec, prints]
    exact Eval.iterate_onto (exec_onto b) bound c o

theorem execAll_onto : ∀ (ts : List Stmt) (c : Chain) (o : Output),
    execAll bound ts ⟨c, o⟩ = (execAll bound ts ⟨c, .silent⟩).onto o (printsAll bound ts c)
  | [], c, o => by simp [execAll, printsAll]
  | t :: ts, c, o => by
    rw [execAll, exec_onto t c o, execAll, printsAll]
    rcases exec bound t ⟨c, .silent⟩ with - | ⟨err | u, d, o'⟩
    · rfl
    · simp
    · rw [Outcome.onto_some]
      dsimp only
      rw [execAll_onto ts d, execAll_onto ts d o', Outcome.onto_onto, Outcome.onto_append]

end

variable {bound}

theorem printsAll_append {pre post : List Stmt} {c : Chain} {o : Output} {s : State}
    (h : execAll bound pre ⟨c, o⟩ = some (.ok (), s)) :
    printsAll bound (pre ++ post) c = printsAll bound pre c ++ printsAll bound post s.chain := by
  induction pre generalizing c o with
  | nil =>
    cases h
    rfl
  | cons t pre ih =>
    rw [execAll, exec_onto] at h
    rw [List.cons_append, printsAll, printsAll]
    generalize exec bound t ⟨c, .silent⟩ = x at h ⊢
    rcases x with - | ⟨err | u, d, o'⟩
    · cases h
    · cases h
    · dsimp only
      rw [ih h, List.append_assoc]

end Stmt

/-! ## Programs -/

/-- What a run adds to the log. -/
def Eval.reported : Except Error Unit → List Diagnostic
  | .ok () => []
  | .error e => [e.diagnostic]

theorem Log.afterRun_eq (log : Log) (r : Except Error Unit) :
    log.afterRun r = log.emitAll (Eval.reported r) := by
  cases r with
  | ok => exact (emitAll_nil log).symm
  | error e => rw [Eval.reported, emitAll_cons, emitAll_nil, afterRun]

section

variable {bound bound' : Nat} {ss : List Stmt} {c : Chain} {o o' : Output} {s s' : State}
  {r r' : Except Error Unit}

namespace Stmt

/-- Statements end with any output as they do without one, the values printed behind what the
output held. -/
theorem execAll_iff_silent : execAll bound ss ⟨c, o⟩ = some (r, s) ↔
    execAll bound ss ⟨c, .silent⟩ = some (r, ⟨s.chain, .silent⟩) ∧
      s.output = o.append (Value.lines (printsAll bound ss c)) := by
  have hsilent := execAll_onto bound ss c .silent
  rw [execAll_onto]
  generalize execAll bound ss ⟨c, .silent⟩ = x at hsilent ⊢
  rcases x with - | ⟨r', c', o'⟩
  · simp [Outcome.onto]
  · obtain rfl : o' = .silent := by simpa [Output.append] using hsilent
    obtain ⟨d, p⟩ := s
    simp [and_assoc, eq_comm]

/-- Two runs from the same scopes, within any bounds and with any outputs, have the same result and
leave the same scopes, and what they print is the same. -/
theorem execAll_agree (h : execAll bound ss ⟨c, o⟩ = some (r, s))
    (h' : execAll bound' ss ⟨c, o'⟩ = some (r', s')) : r = r' ∧ s.chain = s'.chain ∧
      Value.lines (printsAll bound ss c) = Value.lines (printsAll bound' ss c) := by
  have hempty : ∀ {bound o r} {s : State}, execAll bound ss ⟨c, o⟩ = some (r, s) →
      execAll bound ss ⟨c, .empty⟩ = some (r, ⟨s.chain,
        Output.empty.append (Value.lines (printsAll bound ss c))⟩) :=
    fun h => execAll_iff_silent.mpr ⟨(execAll_iff_silent.mp h).1, rfl⟩
  have heq := execAll_unique (hempty h) (hempty h')
  simpa [Output.empty, Output.append] using heq

end Stmt

end

theorem Stmt.exists_text (ss : List Stmt) (c : Chain) : ∃ text : String,
    ∀ {bound : Nat} {o : Output} {r : Except Error Unit} {s : State},
      execAll bound ss ⟨c, o⟩ = some (r, s) → text = Value.lines (printsAll bound ss c) := by
  by_cases hends : ∃ bound o r s, execAll bound ss ⟨c, o⟩ = some (r, s)
  · obtain ⟨bound, o, r, s, h⟩ := hends
    exact ⟨_, fun h' => (execAll_agree h h').2.2⟩
  · exact ⟨"", fun h => absurd ⟨_, _, _, _, h⟩ hends⟩

/-- **Output and reports are write-only.** With any two outputs and logs a program ends within the
same bounds. Its result, the scopes that it leaves and the errors that it adds are the same, also
within another bound. A buffer then holds one text, given by the statements and the scopes, behind
what it held before: the values that were printed up to the end or the error, in order, each with a
newline. What has been printed by then stays as it is while further statements are run. -/
theorem output_write_only (ss : List Stmt) (c : Chain) :
    (∀ (bound : Nat) (o o' : Output) (log log' : Log),
      interpret bound ss ⟨c, o⟩ log = none ↔ interpret bound ss ⟨c, o'⟩ log' = none) ∧
    (∀ (bound bound' : Nat) (o o' : Output) (log log' l l' : Log) (r r' : Except Error Unit)
      (s s' : State), interpret bound ss ⟨c, o⟩ log = some (r, s, l) →
      interpret bound' ss ⟨c, o'⟩ log' = some (r', s', l') →
      r = r' ∧ s.chain = s'.chain ∧ ∃ ds, l = log.emitAll ds ∧ l' = log'.emitAll ds) ∧
    (∃ text : String, ∀ (bound : Nat) (o : Output) (log l : Log) (r : Except Error Unit)
      (s : State), interpret bound ss ⟨c, o⟩ log = some (r, s, l) →
      text = Value.lines (Stmt.printsAll bound ss c) ∧
      s.output = match o with
        | .buffer earlier => .buffer (earlier ++ text)
        | .silent => .silent) ∧
    ∀ (bound : Nat) (pre post : List Stmt) (o : Output) (s : State), ss = pre ++ post →
      Stmt.execAll bound pre ⟨c, o⟩ = some (.ok (), s) → Stmt.printsAll bound ss c =
        Stmt.printsAll bound pre c ++ Stmt.printsAll bound post s.chain := by
  refine ⟨fun bound o o' log log' => ?_, ?_, ?_, ?_⟩
  · simp only [interpret_eq, Option.map_eq_none_iff, Stmt.execAll_onto bound ss c o,
      Stmt.execAll_onto bound ss c o', Outcome.onto]
  · intro bound bound' o o' log log' l l' r r' s s' h h'
    obtain ⟨hexec, rfl⟩ := interpret_eq_some_iff.mp h
    obtain ⟨hexec', rfl⟩ := interpret_eq_some_iff.mp h'
    obtain ⟨rfl, hchain, -⟩ := Stmt.execAll_agree hexec hexec'
    exact ⟨rfl, hchain, _, log.afterRun_eq r, log'.afterRun_eq r⟩
  · obtain ⟨text, htext⟩ := Stmt.exists_text ss c
    refine ⟨text, fun bound o log l r s h => ?_⟩
    obtain ⟨hexec, -⟩ := interpret_eq_some_iff.mp h
    refine ⟨htext hexec, ?_⟩
    rw [(Stmt.execAll_iff_silent.mp hexec).2, htext hexec]
    cases o <;> rfl
  · rintro bound pre post o s rfl h
    exact Stmt.printsAll_append h

/-- A line is printed and then the sign of `nil` is changed: once behind earlier text, and once
without output and with an older error in the log. -/
theorem output_write_only_error : ∃ s l s' l',
    interpret 1 [.print (.literal (.bool true)), .expression (.unary .negate 2 (.literal .nil)),
      .print (.literal .nil)] ⟨{}, .buffer "old\n"⟩ {} =
        some (.error ⟨.operandNotNumber, 2⟩, s, l) ∧
    interpret 1 [.print (.literal (.bool true)), .expression (.unary .negate 2 (.literal .nil)),
      .print (.literal .nil)] ⟨{}, .silent⟩ (({} : Log).emit (.runtime 7 "")) =
        some (.error ⟨.operandNotNumber, 2⟩, s', l') ∧
    s.chain = s'.chain ∧ s.output = .buffer ("old\n" ++ "true\n") ∧ s'.output = .silent ∧
    ∃ ds, l = ({} : Log).emitAll ds ∧ l' = (({} : Log).emit (.runtime 7 "")).emitAll ds := by
  obtain ⟨-, hagree, ⟨text, htext⟩, hlater⟩ := output_write_only [.print (.literal (.bool true)),
    .expression (.unary .negate 2 (.literal .nil)), .print (.literal .nil)] {}
  obtain ⟨-, hchain, hlogs⟩ := hagree 1 1 (.buffer "old\n") .silent {}
    (({} : Log).emit (.runtime 7 "")) _ _ _ _ _ _ rfl rfl
  obtain ⟨hlines, hbuffer⟩ := htext 1 (.buffer "old\n") {} _ _ _ rfl
  obtain ⟨-, hsilent⟩ := htext 1 .silent {} _ _ _ rfl
  have hprints := hlater 1 [_] [_, _] .silent _ rfl rfl
  refine ⟨_, _, _, _, rfl, rfl, hchain, ?_, hsilent, hlogs⟩
  rw [hbuffer, hlines, hprints]
  rfl

end Lox
