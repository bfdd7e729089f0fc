import Lox.Source.Scan

/-!
# Pieces and their lines

* `Piece.numbered`: pieces with the lines on which they end (`Piece.numbered_append`,
  `Piece.numbered_eq_zipIdx`);
* `Piece.diagnostic?`: the error reported for a piece;
* `scan_eq`: tokens and errors are read off the numbered pieces, one by one.
-/

namespace Lox.Source

open Token (Kind)

namespace Piece

/-- The characters of several pieces. -/
def texts (ps : List Piece) : List Char := ps.flatMap text

@[simp] theorem texts_nil : texts [] = [] := rfl

@[simp] theorem texts_cons (p : Piece) (ps : List Piece) : texts (p :: ps) = p.text ++ texts ps :=
  rfl

theorem texts_append (ps qs : List Piece) : texts (ps ++ qs) = texts ps ++ texts qs :=
  List.flatMap_append

theorem texts_cut (cs : List Char) : texts (cut cs) = cs := flatMap_cut cs

/-- The pieces with the lines on which they end; the first begins on the given line. -/
def numbered (line : Nat) : List Piece → List (Nat × Piece)
  | [] => []
  | p :: ps => (line + p.newlines, p) :: numbered (line + p.newlines) ps

theorem numbered_append (line : Nat) (ps qs : List Piece) : numbered line (ps ++ qs) =
    numbered line ps ++ numbered (line + (texts ps).count '\n') qs := by
  induction ps generalizing line with
  | nil => rfl
  | cons p ps ih => simp [numbered, ih, newlines, Nat.add_assoc]

theorem numbered_add (line n : Nat) (ps : List Piece) :
    numbered (line + n) ps = (numbered line ps).map fun (l, p) => (l + n, p) := by
  induction ps generalizing line with
  | nil => rfl
  | cons p ps ih =>
    have hline : line + n + p.newlines = line + p.newlines + n := by omega
    simp only [numbered, List.map_cons, hline, ih]

theorem numbered_eq_zipIdx (line : Nat) (ps : List Piece) : numbered line ps =
    ps.zipIdx.map fun (p, i) => (line + (texts (ps.take (i + 1))).count '\n', p) := by
  induction ps generalizing line with
  | nil => rfl
  | cons p ps ih =>
    rw [numbered, ih, List.zipIdx_cons', List.map_cons, List.map_map]
    simp [Function.comp_def, newlines, Nat.add_assoc]

/-- The error reported for a piece that ends on a line. -/
def diagnostic? (line : Nat) (p : Piece) : Option Diagnostic :=
  p.fault?.map fun f => .lexical line f.message

theorem token?_add (line n : Nat) (p : Piece) :
    p.token? (line + n) = (p.token? line).map fun t => { t with line := t.line + n } := by
  cases p <;> rfl

end Piece

/-! ## What a scan reads -/

theorem foldl_read (s : Scan) (ps : List Piece) : ps.foldl Scan.read s =
    { line := s.line + (Piece.texts ps).count '\n'
      tokens := ((Piece.numbered s.line ps).filterMap fun (l, p) => p.token? l).reverse ++ s.tokens
      diagnostics :=
        ((Piece.numbered s.line ps).filterMap fun (l, p) => p.diagnostic? l).reverse ++
          s.diagnostics } := by
  induction ps generalizing s with
  | nil => rfl
  | cons p ps ih =>
    rw [List.foldl_cons, ih, Scan.read]
    simp only [Piece.numbered, List.filterMap_cons, Piece.texts_cons, List.count_append]
    congr 1
    · exact Nat.add_assoc _ _ _
    · cases p.token? (s.line + p.newlines) <;> simp
    · unfold Piece.diagnostic?
      cases p.fault? <;> simp

/-- Tokens and errors are those of the pieces, in order and on the lines where the pieces end. -/
theorem scan_eq (source : String) : scan source =
    (((Piece.numbered 1 (Piece.cut source.toList)).filterMap fun (l, p) => p.token? l) ++
        [Token.endOn (1 + source.toList.count '\n')],
      (Piece.numbered 1 (Piece.cut source.toList)).filterMap fun (l, p) => p.diagnostic? l) := by
  rw [scan, foldl_read]
  simp [Piece.texts_cut]

end Lox.Source
