import Lox.Token.KindSet
import Lox.Value

/-!
# Tokens

* `Token`: kind, text, line and perhaps a literal value;
* `Token.text`: a token as listings show it.
-/

namespace Lox

/-- A word of a program. A number or string carries its value. -/
structure Token where
  kind : Token.Kind
  lexeme : String
  literal : Option Value := none
  line : Nat
  deriving DecidableEq, Inhabited

namespace Token

/-- The token that stands for the end of a program. -/
def endOn (line : Nat) : Token := { kind := .eof, lexeme := "", line }

/-- The token ends the program. -/
def isEnd (t : Token) : Bool := t.kind == .eof

/-- Kind, text and value, with `null` for no value. -/
def text (t : Token) : String :=
  t.kind.name ++ " " ++ t.lexeme ++ " " ++ (t.literal.elim "null" Value.text)

end Token

end Lox
