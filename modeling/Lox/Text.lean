/-!
# Texts of a conversation

* `cutLines`: the lines of a byte sequence; a last line needs no newline;
* `decode?`: the text of bytes, if they are valid UTF-8;
* `isWhiteSpace`: the characters with the Unicode property `White_Space`;
* `trim`: a text without white space at either end.
-/

namespace Lox.Text

/-! ## Lines -/

/-- The byte that ends a line. -/
def newline : UInt8 := 10

/-- The byte that may stand before a newline. -/
def carriageReturn : UInt8 := 13

/-- Drops one carriage return at the end. -/
def dropReturn (line : List UInt8) : List UInt8 :=
  if line.getLast? = some carriageReturn then line.dropLast else line

theorem length_dropWhile_le (p : UInt8 → Bool) (bytes : List UInt8) :
    (bytes.dropWhile p).length ≤ bytes.length :=
  (List.dropWhile_sublist p).length_le

/-- The lines of a byte sequence, without the newline and one carriage return before it. The bytes
after the last newline, if there are any, are a line as they are. -/
def cutLines : List UInt8 → List (List UInt8)
  | [] => []
  | b :: bytes =>
    match _h : (b :: bytes).dropWhile (· != newline) with
    | [] => [b :: bytes]
    | _ :: rest => dropReturn ((b :: bytes).takeWhile (· != newline)) :: cutLines rest
termination_by bytes => bytes.length
decreasing_by
  have hle := length_dropWhile_le (· != newline) (b :: bytes)
  rw [_h, List.length_cons] at hle
  exact hle

theorem cutLines_of_nil {b : UInt8} {bytes : List UInt8}
    (h : (b :: bytes).dropWhile (· != newline) = []) : cutLines (b :: bytes) = [b :: bytes] := by
  rw [cutLines]
  split <;> simp_all

theorem cutLines_of_cons {b n : UInt8} {bytes rest : List UInt8}
    (h : (b :: bytes).dropWhile (· != newline) = n :: rest) : cutLines (b :: bytes) =
      dropReturn ((b :: bytes).takeWhile (· != newline)) :: cutLines rest := by
  rw [cutLines]
  split <;> simp_all

/-- The text of bytes, if they are valid UTF-8. -/
def decode? (bytes : List UInt8) : Option String := String.fromUTF8? ⟨bytes.toArray⟩

/-! ## White space -/

/-- The ranges of code points with the property `White_Space`, first and last. -/
def whiteSpaceRanges : List (Nat × Nat) :=
  [(0x9, 0xD), (0x20, 0x20), (0x85, 0x85), (0xA0, 0xA0), (0x1680, 0x1680), (0x2000, 0x200A),
    (0x2028, 0x2029), (0x202F, 0x202F), (0x205F, 0x205F), (0x3000, 0x3000)]

/-- The character is white space. -/
def isWhiteSpace (c : Char) : Bool :=
  whiteSpaceRanges.any fun (first, last) => first ≤ c.toNat && c.toNat ≤ last

/-- Every character of core's narrower class is white space. -/
theorem isWhiteSpace_of_isWhitespace {c : Char} (h : c.isWhitespace = true) :
    isWhiteSpace c = true := by
  simp only [Char.isWhitespace, Bool.or_eq_true, decide_eq_true_eq] at h
  rcases h with ((rfl | rfl) | rfl) | rfl <;> decide

/-- Drops white space at both ends. -/
def trim (cs : List Char) : List Char :=
  ((cs.dropWhile isWhiteSpace).reverse.dropWhile isWhiteSpace).reverse

end Lox.Text
