import Lox.Token.Basic

/-!
# Diagnostics

* `Stage`: what found the error;
* `Location`: where on its line the error stands;
* `Diagnostic`, `Diagnostic.text`: a reported error and the text shown for it.
-/

namespace Lox

/-- The stage of the work that found an error. -/
inductive Stage where
  | lexical
  | syntactic
  | runtime
  deriving DecidableEq, Repr

/-- The stage precedes execution. -/
def Stage.isStatic (s : Stage) : Bool := s != .runtime

/-- Where on its line an error stands. -/
inductive Location where
  | unknown
  | lexeme (text : String)
  | atEnd
  deriving DecidableEq, Repr

namespace Location

/-- The location of a token. -/
def ofToken (t : Token) : Location := if t.isEnd then atEnd else lexeme t.lexeme

/-- The words for a location in an error text. -/
def text : Location → String
  | unknown => ""
  | lexeme s => " at '" ++ s ++ "'"
  | atEnd => " at end"

end Location

/-- A reported error. -/
structure Diagnostic where
  stage : Stage
  line : Nat
  location : Location := .unknown
  message : String
  deriving DecidableEq, Repr

namespace Diagnostic

/-- An error in the text of a program. -/
def lexical (line : Nat) (message : String) : Diagnostic := { stage := .lexical, line, message }

/-- An error at a token. -/
def syntactic (t : Token) (message : String) : Diagnostic :=
  { stage := .syntactic, line := t.line, location := .ofToken t, message }

/-- An error met while running. -/
def runtime (line : Nat) (message : String) : Diagnostic := { stage := .runtime, line, message }

/-- An error whose stage is read off its location: only the text of a program has errors
without one. -/
def located (line : Nat) (location : Location) (message : String) : Diagnostic :=
  { stage := if location = .unknown then .lexical else .syntactic, line, location, message }

/-- The error precedes execution. -/
def isStatic (d : Diagnostic) : Bool := d.stage.isStatic

/-- The text shown for an error. One met while running never shows its location. -/
def text (d : Diagnostic) : String :=
  match d.stage with
  | .runtime => d.message ++ "\n[line " ++ toString d.line ++ "]"
  | _ => "[line " ++ toString d.line ++ "] Error" ++ d.location.text ++ ": " ++ d.message

/-- The texts of several errors, each followed by a newline. -/
def render (ds : List Diagnostic) : String :=
  ds.foldl (fun out d => out ++ d.text ++ "\n") ""

end Diagnostic

end Lox
