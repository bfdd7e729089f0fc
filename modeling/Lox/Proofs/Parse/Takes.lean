import Mathlib.Tactic.SplitIfs
import Lox.Parse.Reader

/-!
# What a reader makes of a token

One rule for each way that a reader can take with one more token. What holds of all ways holds of
the reader.

* `ExprReader.Takes`, `ExprReader.takes`: the ways of a reader of expressions;
* `Reader.TakesStatement`, `Reader.TakesDeclaration`, `Reader.Takes`: those of a reader of programs
  (`Reader.takesStatement`, `Reader.takesDeclaration`, `Reader.takes`).
-/

namespace Lox.Parse

open Token (Kind)

/-! ## Expressions -/

/-- Behind everything that is completed an open parenthesis waits, or nothing does. -/
theorem close_zero_pending (e : Expr) (ps : List Pending) :
    (close 0 e ps).pending = [] ∨ ∃ rest, (close 0 e ps).pending = .paren :: rest := by
  induction ps generalizing e with
  | nil => exact .inl rfl
  | cons p rest ih =>
    cases p with
    | unary op line | binary op line l | logical op line l => exact ih _
    | assign target equals =>
      cases target with
      | var n => exact ih _
      | _ => exact ih _
    | paren => exact .inr ⟨rest, rfl⟩

namespace ExprReader

/-- The kind belongs to no expression that has its last operand, outside parentheses. -/
def endsExpression (k : Kind) : Bool :=
  (BinaryOp.ofKind? k).isNone && (LogicalOp.ofKind? k).isNone && k != .equal

theorem readOperator_of_endsExpression {e : Expr} {pending : List Pending} {t : Placed}
    (h : endsExpression t.kind = true) : readOperator e pending t = readClosing e pending t := by
  simp only [endsExpression, Bool.and_eq_true, Option.isNone_iff_eq_none, bne_iff_ne] at h
  simp only [readOperator, h, if_false]

/-- With the token the reader makes the step. -/
inductive Takes (t : Placed) : ExprReader → ExprStep → Prop
  | unary {pending : List Pending} {op : UnaryOp} : UnaryOp.ofKind? t.kind = some op →
      Takes t (operand pending) (.next (operand (.unary op t.line :: pending)) [])
  | openParen {pending : List Pending} : t.kind = .leftParen →
      Takes t (operand pending) (.next (operand (.paren :: pending)) [])
  | atom {pending : List Pending} {e : Expr} : atom? t.toToken = some e →
      Takes t (operand pending) (.next (operator e pending) [])
  | noOperand {pending : List Pending} : UnaryOp.ofKind? t.kind = none → t.kind ≠ .leftParen →
      atom? t.toToken = none → Takes t (operand pending) (.failed .expression [])
  | binary {e : Expr} {pending : List Pending} {op : BinaryOp} :
      BinaryOp.ofKind? t.kind = some op →
      Takes t (operator e pending) (.next (operand (.binary op t.line
        (close op.level e pending).value :: (close op.level e pending).pending)) [])
  | logical {e : Expr} {pending : List Pending} {op : LogicalOp} :
      LogicalOp.ofKind? t.kind = some op →
      Takes t (operator e pending) (.next (operand (.logical op t.line
        (close op.level e pending).value :: (close op.level e pending).pending)) [])
  | assign {e : Expr} {pending : List Pending} : t.kind = .equal →
      Takes t (operator e pending) (.next (operand (.assign (close 1 e pending).value t ::
        (close 1 e pending).pending)) [])
  | closeParen {e : Expr} {pending rest : List Pending} :
      (close 0 e pending).pending = .paren :: rest → t.kind = .rightParen →
      Takes t (operator e pending) (.next (operator (.grouping (close 0 e pending).value) rest)
        (close 0 e pending).faults)
  | unclosed {e : Expr} {pending rest : List Pending} : endsExpression t.kind = true →
      (close 0 e pending).pending = .paren :: rest → t.kind ≠ .rightParen →
      Takes t (operator e pending) (.failed .closingParen (close 0 e pending).faults)
  | ended {e : Expr} {pending : List Pending} : endsExpression t.kind = true →
      (close 0 e pending).pending = [] →
      Takes t (operator e pending) (.ended (close 0 e pending).value (close 0 e pending).faults)

theorem takes_readClosing {t : Placed} (h : endsExpression t.kind = true) (e : Expr)
    (pending : List Pending) : Takes t (operator e pending) (readClosing e pending t) := by
  rw [readClosing]
  rcases close_zero_pending e pending with hnil | ⟨rest, hparen⟩
  · simp only [hnil]
    exact .ended h hnil
  · simp only [hparen]
    by_cases hk : t.kind = .rightParen
    · rw [if_pos hk]
      exact .closeParen hparen hk
    · rw [if_neg hk]
      exact .unclosed h hparen hk

theorem takes (reader : ExprReader) (t : Placed) : Takes t reader (reader.read t) := by
  cases reader with
  | operand pending =>
    rw [read, readOperand]
    cases hunary : UnaryOp.ofKind? t.kind with
    | some op => exact .unary hunary
    | none =>
      by_cases hparen : t.kind = .leftParen
      · rw [if_pos hparen]
        exact .openParen hparen
      · rw [if_neg hparen]
        cases hatom : atom? t.toToken with
        | some e => exact .atom hatom
        | none => exact .noOperand hunary hparen hatom
  | operator e pending =>
    rw [read, readOperator]
    cases hbinary : BinaryOp.ofKind? t.kind with
    | some op => exact .binary hbinary
    | none =>
      cases hlogical : LogicalOp.ofKind? t.kind with
      | some op => exact .logical hlogical
      | none =>
        by_cases hequal : t.kind = .equal
        · rw [if_pos hequal]
          exact .assign hequal
        · rw [if_neg hequal]
          have hends : endsExpression t.kind = true := by
            simp [endsExpression, hbinary, hlogical, hequal]
          exact takes_readClosing hends e pending

theorem Takes.read_eq {reader : ExprReader} {t : Placed} {step : ExprStep}
    (h : Takes t reader step) : reader.read t = step := by
  cases h with
  | unary hop => simp only [read, readOperand, hop]
  | openParen hk => simp [read, readOperand, hk, UnaryOp.ofKind?]
  | atom hatom =>
    have hkinds : UnaryOp.ofKind? t.kind = none ∧ t.kind ≠ .leftParen := by
      unfold atom? at hatom
      split at hatom <;> simp_all [UnaryOp.ofKind?]
    simp only [read, readOperand, hkinds, if_false, hatom]
  | noOperand hop hk hatom => simp only [read, readOperand, hop, if_neg hk, hatom]
  | binary hop => simp only [read, readOperator, hop]
  | @logical _ _ op hop =>
    have hbinary : BinaryOp.ofKind? t.kind = none := by
      rw [LogicalOp.ofKind?_eq_some_iff.mp hop]
      cases op <;> rfl
    simp only [read, readOperator, hbinary, hop]
  | assign hk => simp [read, readOperator, hk, BinaryOp.ofKind?, LogicalOp.ofKind?]
  | closeParen hparen hk =>
    rw [read, readOperator_of_endsExpression (by rw [hk]; rfl), readClosing]
    simp only [hparen, hk, if_true]
  | unclosed hends hparen hk =>
    rw [read, readOperator_of_endsExpression hends, readClosing]
    simp only [hparen, if_neg hk]
  | ended hends hnil =>
    rw [read, readOperator_of_endsExpression hends, readClosing]
    simp only [hnil]

/-- The kinds of tokens that are no part of any expression. -/
def foreignKinds : List Kind := [.eof, .semicolon, .leftBrace, .rightBrace]

theorem read_ne_next {reader next : ExprReader} {t : Placed} {fs : List Fault}
    (h : t.kind ∈ foreignKinds) : reader.read t ≠ .next next fs := by
  intro hread
  have htakes := reader.takes t
  rw [hread] at htakes
  simp only [foreignKinds, List.mem_cons, List.not_mem_nil, or_false] at h
  rcases h with h | h | h | h <;> cases htakes <;>
    simp_all [UnaryOp.ofKind?, BinaryOp.ofKind?, LogicalOp.ofKind?, atom?]

end ExprReader

/-! ## Programs -/

namespace Reader

/-- With the first token of a statement that is no declaration the reader `r'` follows `r`. -/
inductive TakesStatement (t : Placed) (r : Reader) : Reader → Prop
  | print : t.kind = .printKw → TakesStatement t r { r with mode := .expression .value .start }
  | openBlock : t.kind = .leftBrace → TakesStatement t r
      { r with blocks := { around := r.clauses } :: r.blocks, clauses := [], mode := .declaration }
  | ifHeader : t.kind = .ifKw → TakesStatement t r { r with mode := .ifHeader }
  | loopHeader : t.kind = .whileKw → TakesStatement t r { r with mode := .loopHeader }
  | expression : TakesStatement t r (r.readExpression .statement .start t)

theorem takesStatement (r : Reader) (t : Placed) : TakesStatement t r (r.readStatement t) := by
  by_cases hprint : t.kind = .printKw
  · rw [readStatement, hprint]
    exact .print hprint
  by_cases hblock : t.kind = .leftBrace
  · rw [readStatement, hblock]
    exact .openBlock hblock
  by_cases hif : t.kind = .ifKw
  · rw [readStatement, hif]
    exact .ifHeader hif
  by_cases hwhile : t.kind = .whileKw
  · rw [readStatement, hwhile]
    exact .loopHeader hwhile
  · simp only [readStatement]
    exact .expression

/-- With the first token of a declaration, or the end of a block. -/
inductive TakesDeclaration (t : Placed) (r : Reader) : Reader → Prop
  | variableName : t.kind = .varKw → TakesDeclaration t r { r with mode := .variableName }
  | closeBlock {b : OpenBlock} {bs : List OpenBlock} :
      t.kind = .rightBrace → r.blocks = b :: bs → TakesDeclaration t r
        ({ r with blocks := bs, clauses := b.around }.complete (.block b.done.reverse))
  | statement {r' : Reader} : TakesStatement t r r' → TakesDeclaration t r r'

theorem readDeclaration_of_ne {r : Reader} {t : Placed} (hvar : t.kind ≠ .varKw)
    (hbrace : t.kind ≠ .rightBrace) : r.readDeclaration t = r.readStatement t := by
  unfold readDeclaration
  split
  · exact absurd ‹_› hvar
  · exact absurd ‹_› hbrace
  · rfl

theorem readDeclaration_of_nil {r : Reader} {t : Placed} (hvar : t.kind ≠ .varKw)
    (hblocks : r.blocks = []) : r.readDeclaration t = r.readStatement t := by
  unfold readDeclaration
  rw [hblocks]
  split
  · exact absurd ‹_› hvar
  · contradiction
  · rfl

theorem takesDeclaration (r : Reader) (t : Placed) :
    TakesDeclaration t r (r.readDeclaration t) := by
  by_cases hvar : t.kind = .varKw
  · rw [readDeclaration, hvar]
    exact .variableName hvar
  by_cases hbrace : t.kind = .rightBrace
  · cases hblocks : r.blocks with
    | nil =>
      simp only [readDeclaration, hbrace, hblocks]
      exact .statement (r.takesStatement t)
    | cons b bs =>
      simp only [readDeclaration, hbrace, hblocks]
      exact .closeBlock hbrace hblocks
  · rw [readDeclaration_of_ne hvar hbrace]
    exact .statement (r.takesStatement t)

/-- With one more token the reader `r'` follows `r`. -/
inductive Takes (t : Placed) (r : Reader) : Reader → Prop
  | declaration {r' : Reader} : r.mode = .declaration → TakesDeclaration t r r' → Takes t r r'
  | statement {r' : Reader} : r.mode = .statement → TakesStatement t r r' → Takes t r r'
  | named : r.mode = .variableName → t.kind = .identifier →
      Takes t r { r with mode := .initializer ⟨t.lexeme, t.line⟩ }
  | nameless : r.mode = .variableName → Takes t r (r.fail t .variableName)
  | initializer {name : Name} : r.mode = .initializer name → t.kind = .equal →
      Takes t r { r with mode := .expression (.initializer name) .start }
  | declared {name : Name} : r.mode = .initializer name → t.kind = .semicolon →
      Takes t r (r.complete (.declare name none))
  | undeclared {name : Name} : r.mode = .initializer name →
      Takes t r (r.fail t .semicolonAfterDeclaration)
  | ifCondition : r.mode = .ifHeader → t.kind = .leftParen →
      Takes t r { r with mode := .expression .ifCondition .start }
  | ifOpen : r.mode = .ifHeader → Takes t r (r.fail t .parenAfterIf)
  | loopCondition : r.mode = .loopHeader → t.kind = .leftParen →
      Takes t r { r with mode := .expression .loopCondition .start }
  | loopOpen : r.mode = .loopHeader → Takes t r (r.fail t .parenAfterWhile)
  | expression {use : Use} {reader : ExprReader} : r.mode = .expression use reader →
      Takes t r (r.readExpression use reader t)
  | elseBranch {c : Expr} {s : Stmt} : r.mode = .maybeElse c s → t.kind = .elseKw →
      Takes t r { r with clauses := .elseBranch c s :: r.clauses, mode := .statement }
  | noElse {c : Expr} {s : Stmt} {r' : Reader} : r.mode = .maybeElse c s →
      TakesDeclaration t (r.settle (.ifThen c s)) r' → Takes t r r'
  | resumes {latest : Kind} {r' : Reader} : r.mode = .skipping latest →
      isBoundary latest t = true → TakesDeclaration t { r with mode := .declaration } r' →
      Takes t r r'
  | skips {latest : Kind} : r.mode = .skipping latest → isBoundary latest t = false →
      Takes t r { r with mode := .skipping t.kind }

theorem takes_initializer {r : Reader} {name : Name} (h : r.mode = .initializer name)
    (t : Placed) : Takes t r (r.read t) := by
  by_cases hequal : t.kind = .equal
  · simp only [read, h, hequal]
    exact .initializer h hequal
  by_cases hsemicolon : t.kind = .semicolon
  · simp only [read, h, hsemicolon]
    exact .declared h hsemicolon
  · simp only [read, h]
    exact .undeclared h

theorem takes (r : Reader) (t : Placed) : Takes t r (r.read t) := by
  cases h : r.mode with
  | initializer name => exact takes_initializer h t
  | declaration =>
    rw [read, h]
    exact .declaration h (r.takesDeclaration t)
  | statement =>
    rw [read, h]
    exact .statement h (r.takesStatement t)
  | variableName =>
    simp only [read, h]
    split_ifs with hk
    · exact .named h hk
    · exact .nameless h
  | ifHeader =>
    simp only [read, h]
    split_ifs with hk
    · exact .ifCondition h hk
    · exact .ifOpen h
  | loopHeader =>
    simp only [read, h]
    split_ifs with hk
    · exact .loopCondition h hk
    · exact .loopOpen h
  | expression use reader =>
    rw [read, h]
    exact .expression h
  | maybeElse c s =>
    simp only [read, h]
    split_ifs with hk
    · exact .elseBranch h hk
    · exact .noElse h (takesDeclaration _ t)
  | skipping latest =>
    simp only [read, h]
    split_ifs with hk
    · exact .resumes h hk (takesDeclaration _ t)
    · exact .skips h (Bool.not_eq_true _ ▸ hk)

end Reader

end Lox.Parse
