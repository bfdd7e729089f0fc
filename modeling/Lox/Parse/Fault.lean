import Lox.Diagnostic.Basic

/-!
# Faults of a token sequence

* `Placed`: a token and its place in the sequence;
* `body`, `ending`: the tokens that count, and the one at which the sequence ends;
* `Cause`, `Cause.message`: what a reader of programs can miss, and the wording;
* `Fault`, `Fault.diagnostic`: a cause and the token at which it is found.
-/

namespace Lox.Parse

/-- A token and the number of tokens before it. -/
structure Placed extends Token where
  place : Nat
  deriving DecidableEq

/-- The tokens before the first end; those after it do not count. -/
def before (tokens : List Token) : List Token := tokens.takeWhile (!·.isEnd)

/-- The tokens that count, with their places. -/
def body (tokens : List Token) : List Placed :=
  (before tokens).zipIdx.map fun (t, place) => ⟨t, place⟩

/-- The token at which a sequence ends: its first end, or one on its last token's line. -/
def ending (tokens : List Token) : Placed :=
  ⟨(tokens.find? (·.isEnd)).getD (.endOn ((tokens.getLast?.map (·.line)).getD 1)),
    (before tokens).length⟩

theorem length_body (tokens : List Token) : (body tokens).length = (before tokens).length := by
  simp [body]

/-- What is missing or wrong at a token. -/
inductive Cause where
  | expression
  | closingParen
  | endOfExpression
  | assignmentTarget
  | variableName
  | semicolonAfterDeclaration
  | semicolonAfterValue
  | semicolonAfterExpression
  | parenAfterIf
  | parenAfterIfCondition
  | parenAfterWhile
  | parenAfterCondition
  | braceAfterBlock
  deriving DecidableEq, Repr

namespace Cause

/-- The wording of a cause. -/
def message : Cause → String
  | expression => "Expect expression."
  | closingParen => "Expect ')' after expression."
  | endOfExpression => "Expect end of expression."
  | assignmentTarget => "Invalid assignment target."
  | variableName => "Expect variable name."
  | semicolonAfterDeclaration => "Expect ';' after variable declaration."
  | semicolonAfterValue => "Expect ';' after value."
  | semicolonAfterExpression => "Expect ';' after expression."
  | parenAfterIf => "Expect '(' after 'if'."
  | parenAfterIfCondition => "Expect ')' after if condition."
  | parenAfterWhile => "Expect '(' after 'while'."
  | parenAfterCondition => "Expect ')' after condition."
  | braceAfterBlock => "Expect '\x7d' after block."

/-- The reader goes on with the tree that it has; any other fault spoils the declaration. -/
def isMinor (c : Cause) : Bool := c == assignmentTarget

end Cause

/-- A cause and the token at which it is found. -/
structure Fault where
  token : Placed
  cause : Cause
  deriving DecidableEq

/-- The error reported for a fault. -/
def Fault.diagnostic (f : Fault) : Diagnostic := .syntactic f.token.toToken f.cause.message

end Lox.Parse
