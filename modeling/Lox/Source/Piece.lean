import Lox.Token.Kind

/-!
# The pieces of a text

A program text is cut into pieces without losing a character.

* `Piece`, `Piece.text`: a piece and the characters it covers;
* `commentEnd`: how far the block comment extends whose opener has just been read;
* `Piece.first`: the first piece of a nonempty text, with the rest of it
  (`Piece.first_append`: nothing is lost, `Piece.first_lt`: the rest is shorter);
* `Piece.cut`: all pieces (`Piece.flatMap_cut`: their characters make up the text).
-/

namespace Lox.Source

open Token (Kind)

/-- A part of a program text. -/
inductive Piece where
  /-- A space, tab, carriage return or newline. -/
  | blank (c : Char)
  /-- From two slashes to the end of the line. -/
  | lineComment (text : List Char)
  /-- A block comment with all comments nested in it. -/
  | blockComment (text : List Char)
  | token (kind : Kind) (text : List Char)
  /-- A character that begins no token. -/
  | stray (c : Char)
  /-- A block comment that runs to the end of the text. -/
  | openComment (text : List Char)
  /-- A string that runs to the end of the text. -/
  | openString (text : List Char)
  deriving DecidableEq, Repr

/-- The characters that separate tokens. -/
def isBlank (c : Char) : Bool := c == ' ' || c == '\t' || c == '\r' || c == '\n'

/-- The decimal digits of ASCII. -/
def isDigit (c : Char) : Bool := '0' ≤ c && c ≤ '9'

/-- The characters that begin a word: the letters of ASCII and the underscore. -/
def isWordStart (c : Char) : Bool := 'a' ≤ c && c ≤ 'z' || 'A' ≤ c && c ≤ 'Z' || c == '_'

/-- The characters that continue a word. -/
def isWordPart (c : Char) : Bool := isWordStart c || isDigit c

/-- The number of characters up to the end of the comment around the given text, which stands
`depth` openers below the outermost; `none` if the comment is not closed. A closer ends the
innermost comment, and `read` counts the characters before the text. -/
def commentEnd (depth read : Nat) : List Char → Option Nat
  | [] => none
  | '/' :: '*' :: cs => commentEnd (depth + 1) (read + 2) cs
  | '*' :: '/' :: cs =>
    match depth with
    | 0 => some (read + 2)
    | outer + 1 => commentEnd outer (read + 2) cs
  | _ :: cs => commentEnd depth (read + 1) cs

/-- The numeral at the start of a text that begins with a digit, and the rest: digits, and a point
with more digits if a digit follows the point. -/
def numeral (cs : List Char) : List Char × List Char :=
  let whole := cs.takeWhile isDigit
  match cs.dropWhile isDigit with
  | '.' :: d :: rest =>
    if isDigit d then (whole ++ '.' :: d :: rest.takeWhile isDigit, rest.dropWhile isDigit)
    else (whole, '.' :: d :: rest)
  | rest => (whole, rest)

theorem numeral_cases (cs : List Char) :
    (∃ d rest, cs.dropWhile isDigit = '.' :: d :: rest ∧ isDigit d = true ∧
      numeral cs = (cs.takeWhile isDigit ++ '.' :: d :: rest.takeWhile isDigit,
        rest.dropWhile isDigit)) ∨
    (∀ d rest, cs.dropWhile isDigit = '.' :: d :: rest → isDigit d = false) ∧
      numeral cs = (cs.takeWhile isDigit, cs.dropWhile isDigit) := by
  by_cases h : ∃ d rest, cs.dropWhile isDigit = '.' :: d :: rest ∧ isDigit d = true
  · obtain ⟨d, rest, hrest, hd⟩ := h
    exact .inl ⟨d, rest, hrest, hd, by simp only [numeral, hrest, hd, if_true]⟩
  · have hnone : ∀ d rest, cs.dropWhile isDigit = '.' :: d :: rest → isDigit d = false :=
      fun d rest hrest => Bool.eq_false_iff.mpr fun hd => h ⟨d, rest, hrest, hd⟩
    refine .inr ⟨hnone, ?_⟩
    unfold numeral
    split <;> simp_all

theorem numeral_append (cs : List Char) : (numeral cs).1 ++ (numeral cs).2 = cs := by
  have hcut := List.takeWhile_append_dropWhile (p := isDigit) (l := cs)
  rcases numeral_cases cs with ⟨d, rest, hrest, -, heq⟩ | ⟨-, heq⟩
  · rw [hrest] at hcut
    simp [heq, List.takeWhile_append_dropWhile, hcut]
  · rw [heq]
    exact hcut

theorem numeral_ne_nil (c : Char) (cs : List Char) (hc : isDigit c = true) :
    (numeral (c :: cs)).1 ≠ [] := by
  rcases numeral_cases (c :: cs) with ⟨d, rest, -, -, heq⟩ | ⟨-, heq⟩ <;> simp [heq, hc]

namespace Piece

/-- The characters of a piece. -/
def text : Piece → List Char
  | blank c => [c]
  | lineComment text => text
  | blockComment text => text
  | token _ text => text
  | stray c => [c]
  | openComment text => text
  | openString text => text

/-- The number of lines that end in a piece. -/
def newlines (p : Piece) : Nat := p.text.count '\n'

/-- The operator or punctuation mark that a text begins with. -/
def punctuation? (cs : List Char) : Option (List Char × Kind) :=
  Kind.punctuation.find? fun entry => entry.1.isPrefixOf cs

/-- The first piece of the text `c :: cs`, and the rest of the text. -/
def first (c : Char) (cs : List Char) : Piece × List Char :=
  if isBlank c then (blank c, cs)
  else if c = '"' then
    match cs.dropWhile (· != '"') with
    | quote :: rest => (token .string (c :: cs.takeWhile (· != '"') ++ [quote]), rest)
    | [] => (openString (c :: cs), [])
  else if isDigit c then
    (token .number (numeral (c :: cs)).1, (numeral (c :: cs)).2)
  else if isWordStart c then
    let word := c :: cs.takeWhile isWordPart
    (token (Kind.ofWord word) word, cs.dropWhile isWordPart)
  else if ['/', '/'].isPrefixOf (c :: cs) then
    (lineComment (c :: cs.takeWhile (· != '\n')), cs.dropWhile (· != '\n'))
  else if ['/', '*'].isPrefixOf (c :: cs) then
    match commentEnd 0 2 (cs.drop 1) with
    | some n => (blockComment (c :: cs.take (n - 1)), cs.drop (n - 1))
    | none => (openComment (c :: cs), [])
  else
    match punctuation? (c :: cs) with
    | some (mark, kind) => (token kind (c :: cs.take (mark.length - 1)), cs.drop (mark.length - 1))
    | none => (stray c, cs)

/-- No character is lost. -/
theorem first_append (c : Char) (cs : List Char) :
    (first c cs).1.text ++ (first c cs).2 = c :: cs := by
  unfold first
  dsimp only
  split
  · rfl
  · split
    · have hcut := List.takeWhile_append_dropWhile (p := (· != '"')) (l := cs)
      cases hrest : cs.dropWhile (· != '"') with
      | cons quote rest =>
        rw [hrest] at hcut
        simp [text, hcut]
      | nil => simp [text]
    · split
      · exact numeral_append (c :: cs)
      · split
        · simp [text, List.takeWhile_append_dropWhile]
        · split
          · simp [text, List.takeWhile_append_dropWhile]
          · split
            · split <;> simp [text]
            · split <;> simp [text]

theorem first_text_ne_nil (c : Char) (cs : List Char) : (first c cs).1.text ≠ [] := by
  unfold first
  dsimp only
  split
  · exact List.cons_ne_nil _ _
  · split
    · split <;> exact List.cons_ne_nil _ _
    · split
      · exact numeral_ne_nil c cs ‹_›
      · split
        · exact List.cons_ne_nil _ _
        · split
          · exact List.cons_ne_nil _ _
          · split <;> split <;> exact List.cons_ne_nil _ _

theorem first_lt (c : Char) (cs : List Char) : (first c cs).2.length < (c :: cs).length := by
  have happ := congrArg List.length (first_append c cs)
  have hpos := List.length_pos_iff.mpr (first_text_ne_nil c cs)
  rw [List.length_append] at happ
  omega

/-- Cuts a text and puts its pieces behind those cut before, which stand in reverse. -/
def cutAfter (before : List Piece) : List Char → List Piece
  | [] => before.reverse
  | c :: cs => cutAfter ((first c cs).1 :: before) (first c cs).2
termination_by cs => cs.length
decreasing_by exact first_lt c cs

/-- The pieces of a text in order. -/
def cut (cs : List Char) : List Piece := cutAfter [] cs

theorem cutAfter_eq (before : List Piece) (cs : List Char) :
    cutAfter before cs = before.reverse ++ cut cs := by
  induction hn : cs.length using Nat.strongRecOn generalizing before cs with
  | ind n ih =>
    cases cs with
    | nil => simp [cut, cutAfter]
    | cons c cs =>
      have hlt := first_lt c cs
      rw [hn] at hlt
      rw [cut, cutAfter, cutAfter, ih _ hlt _ _ rfl, ih _ hlt _ _ rfl]
      simp

@[simp] theorem cut_nil : cut [] = [] := by simp [cut, cutAfter]

theorem cut_cons (c : Char) (cs : List Char) :
    cut (c :: cs) = (first c cs).1 :: cut (first c cs).2 := by
  rw [cut, cutAfter, cutAfter_eq]
  rfl

/-- The pieces of a text make up the text. -/
theorem flatMap_cut (cs : List Char) : (cut cs).flatMap text = cs := by
  induction hn : cs.length using Nat.strongRecOn generalizing cs with
  | ind n ih =>
    cases cs with
    | nil => simp
    | cons c cs =>
      have hlt := first_lt c cs
      rw [hn] at hlt
      rw [cut_cons, List.flatMap_cons, ih _ hlt _ rfl, first_append]

end Piece

end Lox.Source
