import Lox.Proofs.Source.Fits
import Lox.Syntax.Stmt

/-!
# Bracketed texts

What the parenthesised form of a tree is made of, apart from what its words mean.

* `Bracketed`, `Bracketed.write`: words, and forms in parentheses, with their characters;
* `Bracketed.Proper`: no word is empty or has a space or a parenthesis in it;
* `Bracketed.write_inj`: then the characters tell what was written, and what follows it;
* `Expr.bracketed`, `Stmt.bracketed`: what is written for a tree (`Expr.write_bracketed`,
  `Stmt.write_bracketed`).
-/

namespace Lox

/-- A word, or a head and parts in parentheses. -/
inductive Bracketed where
  | word (w : String)
  | form (head : String) (parts : List Bracketed)

namespace Bracketed

mutual

/-- The characters, followed by `rest`. -/
def write : Bracketed → List Char → List Char
  | word w, rest => w.toList ++ rest
  | form head parts, rest => Expr.opening head (writeAll parts (')' :: rest))

/-- The parts of a form, each after a space, followed by `rest`. -/
def writeAll : List Bracketed → List Char → List Char
  | [], rest => rest
  | x :: xs, rest => ' ' :: x.write (writeAll xs rest)

end

/-- The character may stand in a word. -/
def isSolid (c : Char) : Bool := c != ' ' && c != '(' && c != ')'

/-- All characters of the text may stand in a word. -/
def Solid (w : String) : Prop := ∀ c ∈ w.toList, isSolid c = true

mutual

/-- Words are solid and not empty. Heads are solid. -/
def Proper : Bracketed → Prop
  | word w => w ≠ "" ∧ Solid w
  | form head parts => Solid head ∧ ProperAll parts

/-- The same for all parts of a form. -/
def ProperAll : List Bracketed → Prop
  | [] => True
  | x :: xs => x.Proper ∧ ProperAll xs

end

/-- A word would end here. -/
def Stops (rest : List Char) : Prop := ∀ c ∈ rest.head?, isSolid c = false

theorem stops_nil : Stops [] := by simp [Stops]

theorem stops_closing (xs : List Bracketed) (rest : List Char) :
    Stops (writeAll xs (')' :: rest)) := by
  cases xs <;> simp [Stops, writeAll, isSolid]

variable {r r' : List Char}

/-- Solid texts end where a word would. -/
theorem solid_inj {w w' : String} (hw : Solid w) (hw' : Solid w') (hr : Stops r) (hr' : Stops r')
    (h : w.toList ++ r = w'.toList ++ r') : w = w' ∧ r = r' := by
  have hword := congrArg (List.takeWhile isSolid) h
  have hrest := congrArg (List.dropWhile isSolid) h
  rw [Source.Piece.takeWhile_of_stop hw hr, Source.Piece.takeWhile_of_stop hw' hr'] at hword
  rw [Source.Piece.dropWhile_of_stop hw hr, Source.Piece.dropWhile_of_stop hw' hr'] at hrest
  exact ⟨String.toList_injective hword, hrest⟩

theorem word_ne_opening {w head : String} (hne : w ≠ "") (hw : Solid w) (rest : List Char) :
    w.toList ++ r ≠ Expr.opening head rest := by
  intro h
  cases hcs : w.toList with
  | nil => exact hne (String.toList_injective hcs)
  | cons c cs =>
    rw [hcs] at h
    obtain ⟨rfl, -⟩ := List.cons.inj h
    have hc := hw '(' (by simp [hcs])
    cases hc

mutual

/-- The characters tell the word or form, and what follows it, which must not go on with a word. -/
theorem write_inj : ∀ {x y : Bracketed} {r r' : List Char}, x.Proper → y.Proper → Stops r →
    Stops r' → x.write r = y.write r' → x = y ∧ r = r'
  | word w, word w', _, _, hx, hy, hr, hr', h => by
    obtain ⟨rfl, hrest⟩ := solid_inj hx.2 hy.2 hr hr' h
    exact ⟨rfl, hrest⟩
  | word w, form _ _, _, _, hx, _, _, _, h => absurd h (word_ne_opening hx.1 hx.2 _)
  | form _ _, word w, _, _, _, hy, _, _, h => absurd h.symm (word_ne_opening hy.1 hy.2 _)
  | form head xs, form head' ys, _, _, hx, hy, _, _, h => by
    obtain ⟨rfl, hparts⟩ := solid_inj hx.1 hy.1 (stops_closing xs _) (stops_closing ys _)
      (List.cons.inj h).2
    obtain ⟨rfl, hrest⟩ := writeAll_inj hx.2 hy.2 hparts
    exact ⟨rfl, hrest⟩

theorem writeAll_inj : ∀ {xs ys : List Bracketed} {r r' : List Char}, ProperAll xs →
    ProperAll ys → writeAll xs (')' :: r) = writeAll ys (')' :: r') → xs = ys ∧ r = r'
  | [], [], _, _, _, _, h => ⟨rfl, (List.cons.inj h).2⟩
  | [], _ :: _, _, _, _, _, h => absurd (List.cons.inj h).1 (by decide)
  | _ :: _, [], _, _, _, _, h => absurd (List.cons.inj h).1 (by decide)
  | _ :: xs, _ :: ys, _, _, hx, hy, h => by
    obtain ⟨rfl, hparts⟩ := write_inj hx.1 hy.1 (stops_closing xs _) (stops_closing ys _)
      (List.cons.inj h).2
    obtain ⟨rfl, hrest⟩ := writeAll_inj hx.2 hy.2 hparts
    exact ⟨rfl, hrest⟩

end

end Bracketed

/-! ## Trees in brackets -/

/-- Words and forms for an expression. -/
def Expr.bracketed : Expr → Bracketed
  | literal v => .word v.text
  | grouping e => .form "group" [e.bracketed]
  | unary op _ e => .form op.symbol [e.bracketed]
  | binary op _ l r => .form op.symbol [l.bracketed, r.bracketed]
  | logical op _ l r => .form op.symbol [l.bracketed, r.bracketed]
  | var n => .word n.text
  | assign n e => .form "=" [.word n.text, e.bracketed]

theorem Expr.write_bracketed (e : Expr) (rest : List Char) :
    e.bracketed.write rest = e.write rest := by
  induction e generalizing rest with
  | literal | var => rfl
  | grouping e ih | unary op line e ih | assign n e ih =>
    simp [bracketed, write, Bracketed.write, Bracketed.writeAll, ih]
  | binary op line l r ihl ihr | logical op line l r ihl ihr =>
    simp [bracketed, write, Bracketed.write, Bracketed.writeAll, ihl, ihr]

namespace Stmt

mutual

/-- Words and forms for a statement. -/
def bracketed : Stmt → Bracketed
  | expression e => .form ";" [e.bracketed]
  | print e => .form "print" [e.bracketed]
  | declare n none => .form "var" [.word n.text]
  | declare n (some e) => .form "var" [.word n.text, e.bracketed]
  | block ss => .form "block" (bracketedAll ss)
  | ifThen c s => .form "if" [c.bracketed, s.bracketed]
  | ifElse c s t => .form "if" [c.bracketed, s.bracketed, t.bracketed]
  | loop c s => .form "while" [c.bracketed, s.bracketed]

/-- The same for the statements of a block. -/
def bracketedAll : List Stmt → List Bracketed
  | [] => []
  | s :: ss => s.bracketed :: bracketedAll ss

end

mutual

theorem write_bracketed : ∀ (s : Stmt) (rest : List Char), s.bracketed.write rest = s.write rest
  | expression e, _ | print e, _ | declare _ (some e), _ => by
    simp [bracketed, write, Bracketed.write, Bracketed.writeAll, e.write_bracketed]
  | declare _ none, _ => by simp [bracketed, write, Bracketed.write, Bracketed.writeAll]
  | block ss, _ => by simp [bracketed, write, Bracketed.write, writeAll_bracketedAll ss]
  | ifThen c s, _ | loop c s, _ => by
    simp [bracketed, write, Bracketed.write, Bracketed.writeAll, c.write_bracketed,
      write_bracketed s]
  | ifElse c s t, _ => by
    simp [bracketed, write, Bracketed.write, Bracketed.writeAll, c.write_bracketed,
      write_bracketed s, write_bracketed t]

theorem writeAll_bracketedAll : ∀ (ss : List Stmt) (rest : List Char),
    Bracketed.writeAll (bracketedAll ss) rest = writeAll ss rest
  | [], _ => rfl
  | s :: ss, _ => by
    simp [bracketedAll, writeAll, Bracketed.writeAll, write_bracketed s, writeAll_bracketedAll ss]

end

end Stmt

end Lox
