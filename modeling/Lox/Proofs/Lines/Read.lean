import Mathlib.Tactic.SplitIfs
import Lox.Parse.Reader
import Lox.Proofs.Lines.Trees

/-!
# Reading tokens on other lines

The readers carry lines and places along and do not look at them.

* `Placed.move`, `Reader.move`: tokens on other lines and at other places, and what is read of them;
* `close_move`, `ExprReader.read_move`: expressions;
* `Reader.read_move`, `Reader.finish_move`: programs;
* `parse_mapLine`: the program of tokens on other lines.
-/

namespace Lox

theorem Stmt.mapLinesAll_eq_map (f : Nat → Nat) (ss : List Stmt) :
    mapLinesAll f ss = ss.map (·.mapLines f) := by
  induction ss with
  | nil => rfl
  | cons s ss ih => rw [mapLinesAll, ih, List.map_cons]

namespace Parse

open Token (Kind)

variable (f g : Nat → Nat)

/-! ## Moving what has been read -/

/-- The token on another line and at another place. -/
def Placed.move (t : Placed) : Placed := ⟨t.toToken.mapLine f, g t.place⟩

/-- The fault at a token that is moved. -/
def Fault.move (x : Fault) : Fault := ⟨x.token.move f g, x.cause⟩

/-- The same read of moved tokens. -/
def Pending.move : Pending → Pending
  | unary op line => unary op (f line)
  | binary op line left => binary op (f line) (left.mapLines f)
  | logical op line left => logical op (f line) (left.mapLines f)
  | assign target equals => assign (target.mapLines f) (equals.move f g)
  | paren => paren

def Closed.move (c : Closed) : Closed :=
  ⟨c.value.mapLines f, c.pending.map (·.move f g), c.faults.map (·.move f g)⟩

def ExprReader.move : ExprReader → ExprReader
  | operand pending => operand (pending.map (·.move f g))
  | operator value pending => operator (value.mapLines f) (pending.map (·.move f g))

def ExprStep.move : ExprStep → ExprStep
  | next reader faults => next (reader.move f g) (faults.map (·.move f g))
  | ended value faults => ended (value.mapLines f) (faults.map (·.move f g))
  | failed cause faults => failed cause (faults.map (·.move f g))

def Use.mapLine : Use → Use
  | initializer name => initializer (name.mapLine f)
  | u => u

def Clause.mapLines : Clause → Clause
  | thenBranch condition => thenBranch (condition.mapLines f)
  | elseBranch condition s => elseBranch (condition.mapLines f) (s.mapLines f)
  | loopBody condition => loopBody (condition.mapLines f)

def OpenBlock.mapLines (b : OpenBlock) : OpenBlock :=
  ⟨b.done.map (·.mapLines f), b.around.map (·.mapLines f)⟩

def Mode.move : Mode → Mode
  | initializer name => initializer (name.mapLine f)
  | expression use reader => expression (use.mapLine f) (reader.move f g)
  | maybeElse condition s => maybeElse (condition.mapLines f) (s.mapLines f)
  | m => m

def Reader.move (r : Reader) : Reader where
  slots := r.slots.map (·.map (·.mapLines f))
  blocks := r.blocks.map (·.mapLines f)
  clauses := r.clauses.map (·.mapLines f)
  mode := r.mode.move f g
  faults := r.faults.map (·.move f g)

/-- The program of moved tokens. -/
def Program.move (p : Program) : Program :=
  ⟨p.slots.map (·.map (·.mapLines f)), p.faults.map (·.move f g)⟩

@[simp] theorem Placed.kind_move (t : Placed) : (t.move f g).kind = t.kind := rfl

theorem Reader.mode_move (r : Reader) : (r.move f g).mode = r.mode.move f g := rfl

/-! ## Expressions -/

theorem close_move (level : Nat) (e : Expr) (pending : List Pending) :
    close level (e.mapLines f) (pending.map (·.move f g)) = (close level e pending).move f g := by
  induction pending generalizing e with
  | nil => rfl
  | cons p rest ih =>
    cases p with
    | unary op line => exact ih (.unary op line e)
    | binary op line left =>
      simp only [List.map_cons, Pending.move, close]
      split
      · exact ih (.binary op line left e)
      · rfl
    | logical op line left =>
      simp only [List.map_cons, Pending.move, close]
      split
      · exact ih (.logical op line left e)
      · rfl
    | assign target equals =>
      simp only [List.map_cons, Pending.move]
      unfold close
      split
      · cases target with
        | var n => exact ih (.assign n e)
        | _ =>
          exact congrArg (fun c : Closed =>
            { c with faults := ⟨equals.move f g, .assignmentTarget⟩ :: c.faults }) (ih _)
      · rfl
    | paren => rfl

theorem atom?_mapLine (t : Token) : atom? (t.mapLine f) = (atom? t).map (·.mapLines f) := by
  obtain ⟨kind, lexeme, literal, line⟩ := t
  cases kind <;> rfl

namespace ExprReader

theorem readOperand_move (pending : List Pending) (t : Placed) :
    readOperand (pending.map (·.move f g)) (t.move f g) = (readOperand pending t).move f g := by
  have hatom : atom? (t.move f g).toToken = (atom? t.toToken).map (·.mapLines f) :=
    atom?_mapLine f t.toToken
  rw [readOperand, readOperand, Placed.kind_move, hatom]
  cases UnaryOp.ofKind? t.kind with
  | some op => rfl
  | none =>
    dsimp only
    split
    · rfl
    · cases atom? t.toToken <;> rfl

theorem readClosing_move (e : Expr) (pending : List Pending) (t : Placed) :
    readClosing (e.mapLines f) (pending.map (·.move f g)) (t.move f g) =
      (readClosing e pending t).move f g := by
  rw [readClosing, readClosing, close_move]
  rcases close 0 e pending with ⟨value, _ | ⟨p, rest⟩, faults⟩
  · rfl
  · cases p with
    | paren =>
      simp only [Closed.move, List.map_cons, Pending.move, Placed.kind_move]
      split <;> rfl
    | _ => rfl

theorem readOperator_move (e : Expr) (pending : List Pending) (t : Placed) :
    readOperator (e.mapLines f) (pending.map (·.move f g)) (t.move f g) =
      (readOperator e pending t).move f g := by
  rw [readOperator, readOperator, Placed.kind_move]
  simp only [close_move]
  cases BinaryOp.ofKind? t.kind with
  | some op => rfl
  | none =>
    cases LogicalOp.ofKind? t.kind with
    | some op => rfl
    | none =>
      dsimp only
      split
      · rfl
      · exact readClosing_move f g e pending t

theorem read_move (reader : ExprReader) (t : Placed) :
    (reader.move f g).read (t.move f g) = (reader.read t).move f g := by
  cases reader with
  | operand pending => exact readOperand_move f g pending t
  | operator e pending => exact readOperator_move f g e pending t

end ExprReader

/-! ## Programs -/

namespace Reader

theorem deliver_move (r : Reader) (s : Stmt) :
    (r.move f g).deliver (s.mapLines f) = (r.deliver s).move f g := by
  obtain ⟨slots, _ | ⟨b, bs⟩, clauses, mode, faults⟩ := r <;> rfl

theorem completeIn_move (r : Reader) (s : Stmt) (clauses : List Clause) :
    (r.move f g).completeIn (s.mapLines f) (clauses.map (·.mapLines f)) =
      (r.completeIn s clauses).move f g := by
  induction clauses generalizing s with
  | nil => exact r.deliver_move f g s
  | cons c rest ih =>
    cases c with
    | thenBranch condition => rfl
    | elseBranch condition t => exact ih (.ifElse condition t s)
    | loopBody condition => exact ih (.loop condition s)

theorem complete_move (r : Reader) (s : Stmt) :
    (r.move f g).complete (s.mapLines f) = (r.complete s).move f g :=
  r.completeIn_move f g s r.clauses

theorem settle_move (r : Reader) (s : Stmt) :
    (r.move f g).settle (s.mapLines f) = (r.settle s).move f g := by
  have hfold : ∀ (clauses : List Clause) (s : Stmt),
      (clauses.map (·.mapLines f)).foldl Clause.enclose (s.mapLines f) =
        (clauses.foldl Clause.enclose s).mapLines f := by
    intro clauses
    induction clauses with
    | nil => exact fun _ => rfl
    | cons c rest ih =>
      intro s
      rw [List.map_cons, List.foldl_cons, List.foldl_cons, ← ih]
      cases c <;> rfl
  rw [settle, settle, ← deliver_move, ← hfold]
  rfl

theorem fail_move (r : Reader) (t : Placed) (cause : Cause) :
    (r.move f g).fail (t.move f g) cause = (r.fail t cause).move f g := by
  obtain ⟨slots, _ | ⟨b, bs⟩, clauses, mode, faults⟩ := r <;> rfl

theorem completeUse_move (r : Reader) (e : Expr) (use : Use) :
    (r.move f g).completeUse (e.mapLines f) (use.mapLine f) =
      (r.completeUse e use).move f g := by
  cases use with
  | value => exact r.complete_move f g (.print e)
  | statement => exact r.complete_move f g (.expression e)
  | initializer name => exact r.complete_move f g (.declare name (some e))
  | ifCondition | loopCondition => rfl

theorem readExpression_move (r : Reader) (use : Use) (reader : ExprReader) (t : Placed) :
    (r.move f g).readExpression (use.mapLine f) (reader.move f g) (t.move f g) =
      (r.readExpression use reader t).move f g := by
  have hcloser : (use.mapLine f).closer = use.closer := by cases use <;> rfl
  have hcause : (use.mapLine f).cause = use.cause := by cases use <;> rfl
  have hfaults : ∀ faults : List Fault, (faults.map (·.move f g)).reverse ++ (r.move f g).faults =
      (faults.reverse ++ r.faults).map (·.move f g) := by
    intro faults
    rw [List.map_append, List.map_reverse]
    rfl
  rw [readExpression, readExpression, ExprReader.read_move]
  cases reader.read t with
  | next reader faults =>
    simp only [ExprStep.move, hfaults]
    rfl
  | ended e faults =>
    simp only [ExprStep.move, hfaults, hcloser, hcause, Placed.kind_move]
    split
    · exact completeUse_move f g { r with faults := faults.reverse ++ r.faults } e use
    · exact fail_move f g { r with faults := faults.reverse ++ r.faults } t use.cause
  | failed cause faults =>
    simp only [ExprStep.move, hfaults]
    exact fail_move f g { r with faults := faults.reverse ++ r.faults } t cause

theorem readStatement_move (r : Reader) (t : Placed) :
    (r.move f g).readStatement (t.move f g) = (r.readStatement t).move f g := by
  rw [readStatement, readStatement, Placed.kind_move]
  split
  all_goals first | rfl | exact r.readExpression_move f g .statement .start t

theorem readDeclaration_move (r : Reader) (t : Placed) :
    (r.move f g).readDeclaration (t.move f g) = (r.readDeclaration t).move f g := by
  by_cases hvar : t.kind = .varKw
  · simp only [readDeclaration, Placed.kind_move, hvar]
    rfl
  by_cases hbrace : t.kind = .rightBrace
  · obtain ⟨slots, _ | ⟨b, bs⟩, clauses, mode, faults⟩ := r
    · simp only [readDeclaration, Placed.kind_move, hbrace]
      exact readStatement_move f g _ t
    · have hblock : Stmt.block (b.done.map (·.mapLines f)).reverse =
          (Stmt.block b.done.reverse).mapLines f := by
        rw [Stmt.mapLines, Stmt.mapLinesAll_eq_map, List.map_reverse]
      simp only [readDeclaration, Placed.kind_move, hbrace]
      exact (congrArg _ hblock).trans
        (complete_move f g ⟨slots, bs, b.around, mode, faults⟩ (.block b.done.reverse))
  · have hplain : ∀ (r : Reader) (u : Placed), u.kind = t.kind →
        r.readDeclaration u = r.readStatement u := by
      intro r u hu
      rw [readDeclaration, hu]
      split
      · exact absurd ‹_› hvar
      · exact absurd ‹_› hbrace
      · rfl
    rw [hplain _ _ (Placed.kind_move f g t), hplain _ _ rfl]
    exact r.readStatement_move f g t

theorem read_move (r : Reader) (t : Placed) :
    (r.move f g).read (t.move f g) = (r.read t).move f g := by
  have hkind := Placed.kind_move f g t
  cases hm : r.mode with
  | declaration =>
    simp only [read, mode_move, hm, Mode.move]
    exact r.readDeclaration_move f g t
  | statement =>
    simp only [read, mode_move, hm, Mode.move]
    exact r.readStatement_move f g t
  | variableName | ifHeader | loopHeader =>
    simp only [read, mode_move, hm, Mode.move]
    rw [hkind]
    split_ifs
    · rfl
    · exact r.fail_move f g t _
  | initializer name =>
    simp only [read, mode_move, hm, Mode.move, hkind]
    split
    · rfl
    · exact r.complete_move f g (.declare name none)
    · exact r.fail_move f g t _
  | expression use reader =>
    simp only [read, mode_move, hm, Mode.move]
    exact r.readExpression_move f g use reader t
  | maybeElse condition s =>
    simp only [read, mode_move, hm, Mode.move]
    rw [hkind]
    split_ifs
    · rfl
    · rw [← readDeclaration_move]
      exact congrArg (readDeclaration · _) (r.settle_move f g (.ifThen condition s))
  | skipping latest =>
    have hboundary : isBoundary latest (t.move f g) = isBoundary latest t := rfl
    simp only [read, mode_move, hm, Mode.move, hboundary]
    split
    · exact readDeclaration_move f g { r with mode := .declaration } t
    · rfl

theorem closeBlocks_move (r : Reader) (t : Placed) :
    (r.move f g).closeBlocks (t.move f g) = (r.closeBlocks t).move f g := by
  obtain ⟨slots, _ | ⟨b, bs⟩, clauses, mode, faults⟩ := r
  · rfl
  · simp only [closeBlocks, move, List.map_cons, List.map_append, List.map_map]
    rfl

theorem finish_move (r : Reader) (t : Placed) :
    (r.move f g).finish (t.move f g) = (r.finish t).move f g := by
  cases hm : r.mode with
  | declaration | skipping =>
    simp only [finish, mode_move, hm, Mode.move]
    exact r.closeBlocks_move f g t
  | maybeElse condition s =>
    simp only [finish, mode_move, hm, Mode.move]
    rw [← closeBlocks_move, ← settle_move]
    rfl
  | _ =>
    simp only [finish, mode_move, hm, Mode.move]
    rw [read_move, closeBlocks_move]

end Reader

/-! ## Token sequences -/

theorem before_mapLine (tokens : List Token) :
    before (tokens.map (·.mapLine f)) = (before tokens).map (·.mapLine f) := by
  rw [before, List.takeWhile_map]
  rfl

theorem body_mapLine (tokens : List Token) :
    body (tokens.map (·.mapLine f)) = (body tokens).map (·.move f id) := by
  rw [body, before_mapLine, List.zipIdx_map, List.map_map, body, List.map_map]
  rfl

/-- A sequence without tokens ends on line 1. -/
theorem ending_mapLine {tokens : List Token} (h : tokens ≠ []) :
    ending (tokens.map (·.mapLine f)) = (ending tokens).move f id := by
  have hlast : tokens.getLast? = some (tokens.getLast h) := List.getLast?_eq_some_getLast h
  have hfind : (tokens.map (·.mapLine f)).find? (·.isEnd) =
      (tokens.find? (·.isEnd)).map (·.mapLine f) := by
    rw [List.find?_map]
    rfl
  rw [ending, ending, hfind, before_mapLine, List.length_map, List.getLast?_map, hlast]
  cases tokens.find? (·.isEnd) <;> rfl

/-- Tokens on other lines are the same program on these lines. -/
theorem parse_mapLine (tokens : List Token) :
    parse (tokens.map (·.mapLine f)) = (parse tokens).move f id := by
  by_cases h : tokens = []
  · subst h
    rfl
  have hfold : ∀ (ts : List Placed) (r : Reader),
      (ts.map (·.move f id)).foldl Reader.read (r.move f id) =
        (ts.foldl Reader.read r).move f id := by
    intro ts
    induction ts with
    | nil => exact fun _ => rfl
    | cons t ts ih =>
      intro r
      rw [List.map_cons, List.foldl_cons, List.foldl_cons, ← ih, Reader.read_move]
  have hread : ((body tokens).map (·.move f id)).foldl Reader.read {} =
      ((body tokens).foldl Reader.read {}).move f id := hfold (body tokens) {}
  simp only [parse, body_mapLine, ending_mapLine f h, hread, Reader.finish_move]
  simp only [Program.move, Reader.move, List.map_reverse]

end Parse

end Lox
