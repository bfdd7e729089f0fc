import Lox.Source.Piece
import Lox.Diagnostic.Basic

/-!
# The tokens of a text

* `Fault`, `Fault.message`: what can be wrong with a text;
* `Piece.literal`: the value of a string or number;
* `Scan`, `Scan.read`: the tokens and errors of the pieces read so far, and the current line;
* `scan`: the tokens of a text, the last of which ends it, and its lexical errors.

A token or error lies on the line on which its last character stands.
-/

namespace Lox.Source

open Token (Kind)

/-- What can be wrong with a text. -/
inductive Fault where
  | unexpected (c : Char)
  | unterminatedString
  deriving DecidableEq, Repr

/-- The wording of a fault. -/
def Fault.message : Fault → String
  | unexpected c => "Unexpected character: " ++ c.toString
  | unterminatedString => "Unterminated string."

/-- The double that a numeral stands for. -/
def numeralValue (text : List Char) : Float :=
  Number.ofNumeral (text.takeWhile isDigit) ((text.dropWhile isDigit).drop 1)

namespace Piece

/-- The value of a token: a string without its quotes, or a number. -/
def literal (kind : Kind) (text : List Char) : Option Value :=
  match kind with
  | .string => some (.string (String.ofList (text.drop 1).dropLast))
  | .number => some (.number (numeralValue text))
  | _ => none

/-- The token of a piece that ends on a line. -/
def token? (line : Nat) : Piece → Option Token
  | token kind text => some ⟨kind, String.ofList text, literal kind text, line⟩
  | _ => none

/-- The fault of a piece. An unclosed comment is none. -/
def fault? : Piece → Option Fault
  | stray c => some (.unexpected c)
  | openString _ => some .unterminatedString
  | _ => none

end Piece

/-- What has been read from a text, the latest first. -/
structure Scan where
  line : Nat := 1
  tokens : List Token := []
  diagnostics : List Diagnostic := []

/-- Reads one more piece. -/
def Scan.read (s : Scan) (p : Piece) : Scan :=
  let line := s.line + p.newlines
  { line
    tokens := (p.token? line).toList ++ s.tokens
    diagnostics := (p.fault?.map fun f => .lexical line f.message).toList ++ s.diagnostics }

/-- The tokens of a text and its lexical errors. -/
def scan (source : String) : List Token × List Diagnostic :=
  let s : Scan := (Piece.cut source.toList).foldl Scan.read {}
  ((Token.endOn s.line :: s.tokens).reverse, s.diagnostics.reverse)

/-- The last token ends the text. -/
theorem getLast?_scan (source : String) :
    ∃ line, (scan source).1.getLast? = some (.endOn line) :=
  ⟨_, by rw [scan, List.getLast?_reverse, List.head?_cons]⟩

end Lox.Source
