/-!
# Printed text

* `Output`: where a running program prints to;
* `Output.println`, `Output.clear`, `Output.text`: printing a line, forgetting, reading back.
-/

namespace Lox

/-- Where a running program prints to. -/
inductive Output where
  /-- The text printed so far. -/
  | buffer (text : String)
  /-- Printed text is dropped. -/
  | silent
  deriving DecidableEq, Repr

namespace Output

/-- An output that has received nothing. -/
def empty : Output := buffer ""

instance : Inhabited Output := ⟨empty⟩

/-- Prints a line. -/
def println : Output → String → Output
  | buffer text, line => buffer (text ++ line ++ "\n")
  | silent, _ => silent

/-- Forgets the printed text. -/
def clear : Output → Output
  | buffer _ => empty
  | silent => silent

/-- The printed text. -/
def text : Output → String
  | buffer text => text
  | silent => ""

@[simp] theorem text_println_buffer (text line : String) :
    ((buffer text).println line).text = text ++ line ++ "\n" := rfl

@[simp] theorem text_println_silent (line : String) : (silent.println line).text = "" := rfl

@[simp] theorem text_clear (o : Output) : o.clear.text = "" := by cases o <;> rfl

end Output

end Lox
