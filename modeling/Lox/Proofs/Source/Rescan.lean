import Lox.Proofs.Source.Lexeme
import Lox.Proofs.Lines.Trees

/-!
# Tokens and their texts

* `Token.ofWord`: the token of a kind and its characters (`Token.Scanned.mapLine_eq`: there is no
  other but for the line);
* `endedPieces`, `splits_spaced_end`: lexemes with a space behind each of them;
* `ScansAs`: a text without errors that has given tokens (`scansAs_of_words`);
* `scan_spaced_lexemes`: the texts of the tokens of a text make up these tokens again.
-/

namespace Lox

open Token (Kind)
open Source (Piece)

/-- The token of a kind with the given characters, on a line. -/
def Token.ofWord (line : Nat) (w : Kind × List Char) : Token :=
  ⟨w.1, String.ofList w.2, Piece.literal w.1 w.2, line⟩

theorem Token.Scanned.mapLine_eq {t : Token} (h : t.Scanned) (f : Nat → Nat) :
    t.mapLine f = .ofWord (f t.line) t.word := by
  simp [Token.mapLine, Token.ofWord, Token.word, ← h.literal]

namespace Source

/-! ## A space behind each lexeme -/

/-- The pieces of lexemes with a space behind each of them. -/
def endedPieces (ws : List (Kind × List Char)) : List Piece :=
  ws.flatMap fun w => [.token w.1 w.2, .blank ' ']

theorem word?_endedPieces (ws : List (Kind × List Char)) :
    (endedPieces ws).filterMap Piece.word? = ws := by
  induction ws with
  | nil => rfl
  | cons w ws ih => exact congrArg (w :: ·) ih

theorem fault?_endedPieces (ws : List (Kind × List Char)) :
    (endedPieces ws).filterMap Piece.fault? = [] := by
  induction ws with
  | nil => rfl
  | cons w ws ih => exact ih

variable {ws : List (Kind × List Char)} {texts : List String}

theorem splits_endedPieces (h : ∀ w ∈ ws, Lexeme w.1 w.2) :
    Splits ([' '].intercalate (ws.map (·.2) ++ [[]])) (endedPieces ws) := by
  induction ws with
  | nil => exact .nil
  | cons w ws ih =>
    obtain ⟨hw, hws⟩ := List.forall_mem_cons.mp h
    have hrest := Splits.cons (p := .blank ' ') (.blank (by simp)) (ih hws)
    have htext : [' '].intercalate ((w :: ws).map (·.2) ++ [[]]) =
        w.2 ++ ([' '] ++ [' '].intercalate (ws.map (·.2) ++ [[]])) := by
      cases ws <;> simp [List.intercalate_cons_cons]
    rw [htext]
    exact .cons (hw.fits_space _) hrest

theorem splits_spaced_end (h : ∀ w ∈ ws, Lexeme w.1 w.2)
    (htexts : texts.map String.toList = ws.map (·.2)) :
    Splits (spaced (texts ++ [""])).toList (endedPieces ws) := by
  have hsplits := splits_endedPieces h
  rw [← htexts] at hsplits
  rw [spaced, String.toList_intercalate, List.map_append]
  exact hsplits

/-! ## The tokens of texts of tokens -/

/-- The text is free of errors, and its tokens are the given ones but for the lines. -/
def ScansAs (text : String) (ts : List Token) : Prop :=
  (scan text).2 = [] ∧ (scan text).1.map (·.mapLine fun _ => 0) = ts.map (·.mapLine fun _ => 0)

theorem map_mapLine_pieceTokens (source : String) :
    (pieceTokens source).map (·.mapLine fun _ => 0) =
      ((pieceTokens source).map Token.word).map (Token.ofWord 0) := by
  rw [List.map_map]
  exact List.map_congr_left fun t ht => (scanned_of_mem ht).mapLine_eq fun _ => 0

/-- The words of a text tell its tokens but for the lines. -/
theorem scansAs_of_words {source text : String} (herrors : (scan text).2 = [])
    (hwords : (pieceTokens text).map Token.word = (pieceTokens source).map Token.word) :
    ScansAs text (scan source).1 := by
  refine ⟨herrors, ?_⟩
  rw [fst_scan, fst_scan, List.map_append, List.map_append, map_mapLine_pieceTokens,
    map_mapLine_pieceTokens, hwords]
  rfl

/-- **The texts of tokens make up the tokens again.** The texts of the tokens of a text, whatever
errors it has, are scanned without errors as the same tokens, but for the lines, when there is a
space between each and the next; and it makes no difference whether the empty text of the last,
which ends the tokens, is among them. -/
theorem scan_spaced_lexemes (source : String) :
    ScansAs (spaced ((scan source).1.map (·.lexeme))) (scan source).1 ∧
      ScansAs (spaced ((scan source).1.dropLast.map (·.lexeme))) (scan source).1 := by
  have hlexemes : ∀ w ∈ (pieceTokens source).map Token.word, Lexeme w.1 w.2 := by
    intro w hw
    obtain ⟨t, ht, rfl⟩ := List.mem_map.mp hw
    exact (scanned_of_mem ht).lexeme
  have htexts : ((pieceTokens source).map (·.lexeme)).map String.toList =
      ((pieceTokens source).map Token.word).map (·.2) := by
    simp [Token.word, Function.comp_def]
  have hend : (scan source).1.map (·.lexeme) = (pieceTokens source).map (·.lexeme) ++ [""] := by
    rw [fst_scan, List.map_append]
    rfl
  rw [hend, dropLast_scan]
  constructor
  · have hsplits := splits_spaced_end hlexemes htexts
    refine scansAs_of_words (snd_scan_of_splits hsplits (fault?_endedPieces _)) ?_
    rw [words_of_splits hsplits, word?_endedPieces]
  · exact scansAs_of_words (snd_scan_spaced hlexemes htexts) (words_spaced hlexemes htexts)

/-- A string keeps its line break, a comment and a stray character leave nothing. -/
example : spaced ((scan "a=\"x\ny\"//z\n;@1.b").1.map (·.lexeme)) = "a = \"x\ny\" ; 1 . b " := by
  decide +kernel

end Source

end Lox
