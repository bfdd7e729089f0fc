import Lox.Number.Nearest
import Lox.Number.Shortest

/-!
# Numerals

* `Decimal.toChars`: a decimal written in positional notation, never with an exponent;
* `Float.numeral`: the text of a double: the shortest decimal that reads back, no point for an
  integer, a sign also for negative zero;
* `ofNumeral`: the double that a numeral stands for.
-/

namespace Lox.Number

/-- All digits of the coefficient in their places, with zeros where the decimal has none. There is
a digit on both sides of a point. -/
def Decimal.toChars (d : Decimal) : List Char :=
  let digits := Nat.toDigits 10 d.coefficient
  match d.exponent with
  | .ofNat zeros => digits ++ List.replicate zeros '0'
  | .negSucc n =>
    let digits := List.replicate (n + 2 - digits.length) '0' ++ digits
    let whole := digits.length - (n + 1)
    digits.take whole ++ '.' :: digits.drop whole

/-- The text of a decoded double. -/
def Double.numeral : Double → List Char
  | .nan => ['N', 'a', 'N']
  | .infinite negative => sign negative ['i', 'n', 'f']
  | .finite negative 0 _ => sign negative ['0']
  | .finite negative m t => sign negative (shortest m t).toChars
where
  /-- A minus before the text of a negative number. -/
  sign (negative : Bool) (text : List Char) : List Char :=
    if negative then '-' :: text else text

/-- The text of a float. -/
def numeral (x : Float) : String := String.ofList (Double.ofFloat x).numeral

/-- The number that a row of decimal digits stands for. -/
def ofDigits (digits : List Char) : Nat :=
  digits.foldl (fun n c => 10 * n + (c.toNat - '0'.toNat)) 0

/-- The double nearest to the numeral `whole.fraction`; no fraction for an integer. -/
def ofNumeral (whole fraction : List Char) : Float :=
  nearest (ofDigits (whole ++ fraction)) (Nat.pow 10 fraction.length)

end Lox.Number
