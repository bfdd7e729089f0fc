import Lox.Number.Numeral

/-!
# Values

* `Value`: what an expression evaluates to;
* `Value.truthy`: everything but `nil` and `false` counts as true;
* `Value.equals`: equality without conversion, on numbers that of IEEE 754 (`equals_number`);
* `Value.text`: the text that `print` shows.
-/

namespace Lox

/-- A value of the language. -/
inductive Value where
  | nil
  | bool (b : Bool)
  | number (x : Float)
  | string (s : String)
  deriving DecidableEq, Inhabited

namespace Value

/-- Whether a condition with this value holds. -/
def truthy : Value → Bool
  | nil => false
  | bool b => b
  | _ => true

/-- The language's `==`: values of different types differ, a NaN differs from itself, and the two
zeros are equal. -/
def equals : Value → Value → Bool
  | nil, nil => true
  | bool a, bool b => a == b
  | number x, number y => x == y
  | string s, string t => s == t
  | _, _ => false

@[simp] theorem equals_nil : equals nil nil = true := rfl

@[simp] theorem equals_bool (a b : Bool) : equals (bool a) (bool b) = (a == b) := rfl

@[simp] theorem equals_number (x y : Float) : equals (number x) (number y) = (x == y) := rfl

@[simp] theorem equals_string (s t : String) : equals (string s) (string t) = (s == t) := rfl

/-- The text that `print` shows; a string stands without quotes. -/
def text : Value → String
  | nil => "nil"
  | bool true => "true"
  | bool false => "false"
  | number x => Number.numeral x
  | string s => s

/-- The name of the value's type. -/
def typeName : Value → String
  | nil => "nil"
  | bool _ => "boolean"
  | number _ => "number"
  | string _ => "string"

/-- The value is a number. -/
def isNumber : Value → Bool
  | number _ => true
  | _ => false

end Value

end Lox
