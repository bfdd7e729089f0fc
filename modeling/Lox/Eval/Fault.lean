import Lox.Diagnostic.Basic

/-!
# Errors met while running

* `Fault`, `Fault.message`: what can go wrong, and the wording;
* `Error`, `Error.text`: a fault with the line that is blamed for it.
-/

namespace Lox.Eval

/-- What can go wrong while a program runs. -/
inductive Fault where
  /-- The operand of a sign change is no number. -/
  | operandNotNumber
  /-- An operand of arithmetic or a comparison is no number. -/
  | operandsNotNumbers
  /-- The operands of `+` are neither two numbers nor two strings. -/
  | operandsNotAddable
  | undefined (name : String)
  deriving DecidableEq, Repr

/-- The wording of a fault. -/
def Fault.message : Fault → String
  | operandNotNumber => "Operand must be a number."
  | operandsNotNumbers => "Operands must be numbers."
  | operandsNotAddable => "Operands must be two numbers or two strings."
  | undefined name => "Undefined variable '" ++ name ++ "'."

@[simp] theorem mapError_ok {ε δ α : Type} (f : ε → δ) (a : α) :
    (Except.ok a : Except ε α).mapError f = .ok a := rfl

@[simp] theorem mapError_error {ε δ α : Type} (f : ε → δ) (e : ε) :
    (Except.error e : Except ε α).mapError f = .error (f e) := rfl

/-- A fault and the line of the operator or name at which it arose. -/
structure Error where
  fault : Fault
  line : Nat
  deriving DecidableEq, Repr

namespace Error

/-- The error as it is reported. -/
def diagnostic (e : Error) : Diagnostic := .runtime e.line e.fault.message

/-- The text of an error. -/
def text (e : Error) : String := e.diagnostic.text

end Error

end Lox.Eval
