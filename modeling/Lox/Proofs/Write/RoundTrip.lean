import Lox.Proofs.Write.Words
import Lox.Proofs.Write.Alike
import Lox.Proofs.Session.Text

/-!
# Programs survive being written out and read back

* `Scanned.sense_eq`, `Scanned.sense_written`: a token and what is written for it have one sense;
* `sense_spaced`: so have the tokens of a text and those of what is written for it;
* `source_reads_back`: a text without errors, its trees written out, and the trees of what is
  written.
-/

namespace Lox

open Token (Kind)
open Source Grammar
open Parse (Program)

/-! ## The sense of what is written -/

namespace Token

/-- The sense of a scanned token of a kind with the given characters. -/
def senseOf (w : Kind × List Char) : Kind × Option Value × Option String :=
  (w.1, Piece.literal w.1 w.2, if w.1 = .identifier then some (String.ofList w.2) else none)

namespace Scanned

variable {t : Token} (h : t.Scanned)
include h

theorem sense_eq : t.sense = senseOf t.word := by
  simp [sense, senseOf, word, h.literal]

theorem sense_written (hfinite : t.literal ≠ some (.number Number.infinity)) :
    senseOf (t.kind, t.written.toList) = t.sense := by
  obtain ⟨-, hliteral⟩ := h.lexeme_written hfinite
  simp only [sense, senseOf, hliteral, String.ofList_toList]
  by_cases hk : t.kind = .identifier
  · rw [h.written_of_ne_number (by simp [hk])]
  · rw [if_neg hk, if_neg hk]

end Scanned

end Token

/-- What is written for scanned tokens is scanned without errors, and has their sense. -/
theorem sense_spaced {ts : List Token} (hts : ∀ t ∈ ts, t.Scanned)
    (hfinite : ∀ t ∈ ts, t.literal ≠ some (.number Number.infinity)) :
    (scan (spaced (ts.map Token.written))).2 = [] ∧
      (pieceTokens (spaced (ts.map Token.written))).map Token.sense = ts.map Token.sense := by
  let words := ts.map fun t => (t.kind, t.written.toList)
  have hlexemes : ∀ w ∈ words, Lexeme w.1 w.2 := by
    intro w hw
    obtain ⟨t, ht, rfl⟩ := List.mem_map.mp hw
    exact ((hts t ht).lexeme_written (hfinite t ht)).1
  have htexts : (ts.map Token.written).map String.toList = words.map (·.2) := by
    simp [words, Function.comp_def]
  refine ⟨snd_scan_spaced hlexemes htexts, ?_⟩
  calc (pieceTokens (spaced (ts.map Token.written))).map Token.sense
      = ((pieceTokens (spaced (ts.map Token.written))).map Token.word).map Token.senseOf := by
        rw [List.map_map]
        exact List.map_congr_left fun u hu => (scanned_of_mem hu).sense_eq
    _ = words.map Token.senseOf := by rw [words_spaced hlexemes htexts]
    _ = ts.map Token.sense := by
        rw [List.map_map]
        exact List.map_congr_left fun t ht => (hts t ht).sense_written (hfinite t ht)

/-! ## Programs -/

/-- **Programs survive being written out and read back.** The statements of a text without errors,
none of whose numbers is beyond all doubles, are the same when they are written as a program text
and read from there, but for the lines. -/
theorem source_reads_back {source : String} (h : (Program.ofSource source).2 = [])
    (hfinite : ∀ t ∈ (scan source).1, t.literal ≠ some (.number Number.infinity)) :
    ∃ ss ss' : List Stmt, Program.ofSource source = (⟨ss.map some, []⟩, []) ∧
      Program.ofSource (Stmt.source ss) = (⟨ss'.map some, []⟩, []) ∧
      Stmt.mapLinesAll (fun _ => 0) ss' = Stmt.mapLinesAll (fun _ => 0) ss := by
  obtain ⟨ss, hss⟩ := exists_of_ofSource h
  obtain ⟨-, hds, hn⟩ := ofSource_iff.mp hss
  have hscanned : ∀ t ∈ pieceTokens source, t.Scanned := fun t ht => scanned_of_mem ht
  have hpieces : ∀ t ∈ pieceTokens source, t.literal ≠ some (.number Number.infinity) := by
    intro t ht
    exact hfinite t (by rw [fst_scan]; exact List.mem_append_left _ ht)
  obtain ⟨hscan, hsense⟩ := sense_spaced hscanned hpieces
  rw [← hds.words_eq hscanned] at hscan hsense
  obtain ⟨ss', hds', hlines⟩ := hds.of_sense hsense
  have hn' : Stmt.NearestElseAll ss' := by
    rwa [← Stmt.nearestElseAll_mapLines, hlines, Stmt.nearestElseAll_mapLines]
  exact ⟨ss, ss', hss, ofSource_iff.mpr ⟨hscan, hds', hn'⟩, hlines⟩

/-- A choice within a choice, a numeral that is not the shortest of its value, a grouping, and a
string over two lines. -/
theorem source_reads_back_choice :
    ∃ ss ss' : List Stmt,
      Program.ofSource "if (a) if (b) print 1.50; else c = -(d + \"x\ny\");" =
        (⟨ss.map some, []⟩, []) ∧
      Program.ofSource (Stmt.source ss) = (⟨ss'.map some, []⟩, []) ∧
      Stmt.mapLinesAll (fun _ => 0) ss' = Stmt.mapLinesAll (fun _ => 0) ss :=
  source_reads_back (by decide +kernel) (by decide +kernel)

/-- What is written for that text: the spaces and the numeral are not as they were. -/
example : (statements "if (a) if (b) print 1.50; else c = -(d + \"x\ny\");").toOption.map
    Stmt.source = some "if ( a ) if ( b ) print 1.5 ; else c = - ( d + \"x\ny\" ) ;" := by
  decide +kernel

end Lox
