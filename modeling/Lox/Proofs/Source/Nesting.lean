import Lox.Proofs.Source.Fits
import Lox.Proofs.Source.Lines

/-!
# How far comments reach

* `foldl_read_of_fits`: the first piece of a text is read, then the rest;
* `foldl_read_comment`, `foldl_read_openComment`: comments move the line and nothing else;
* `comment_extent`: where a comment ends that has been opened, and how reading goes on behind it.
-/

namespace Lox.Source

variable (s : Scan)

theorem foldl_read_of_fits {p : Piece} {rest : List Char} (h : p.Fits rest) :
    (Piece.cut (p.text ++ rest)).foldl Scan.read s =
      (Piece.cut rest).foldl Scan.read (s.read p) := by
  have hsplits : Splits (p.text ++ rest) (p :: Piece.cut rest) := .cons h (splits_cut rest)
  rw [← hsplits.eq_cut, List.foldl_cons]

/-- A comment moves the line, at whatever depth its newlines stand. -/
theorem foldl_read_comment {t : List Char} (h : CommentBody t) (rest : List Char) :
    (Piece.cut ('/' :: '*' :: (t ++ rest))).foldl Scan.read s =
      (Piece.cut rest).foldl Scan.read { s with line := s.line + t.count '\n' } := by
  have hread : s.read (.blockComment ('/' :: '*' :: t)) =
      { s with line := s.line + t.count '\n' } := by
    simp [Scan.read, Piece.newlines, Piece.text, Piece.token?, Piece.fault?]
  rw [← hread]
  exact foldl_read_of_fits s (.blockComment h)

theorem foldl_read_openComment {cs : List Char} (h : ∀ t, CommentBody t → ¬ t <+: cs) :
    (Piece.cut ('/' :: '*' :: cs)).foldl Scan.read s =
      { s with line := s.line + cs.count '\n' } := by
  have hread : s.read (.openComment ('/' :: '*' :: cs)) =
      { s with line := s.line + cs.count '\n' } := by
    simp [Scan.read, Piece.newlines, Piece.text, Piece.token?, Piece.fault?]
  have hall := foldl_read_of_fits s (.openComment h)
  rwa [hread, Piece.cut_nil, List.append_nil] at hall

/-- **Comments nest.** Behind an opener, the comment ends with the only prefix of the text that
closes it together with all comments opened in it, and reading goes on with what follows, as many
lines further down as that prefix has newlines. If there is no such prefix, the comment takes all
of the text, with all its newlines. Neither way is there a token or an error. -/
theorem comment_extent (cs : List Char) :
    (∃ t rest, cs = t ++ rest ∧ CommentBody t ∧ (∀ u, CommentBody u → u <+: cs → u = t) ∧
      Piece.first '/' ('*' :: cs) = (.blockComment ('/' :: '*' :: t), rest) ∧
      (Piece.cut ('/' :: '*' :: cs)).foldl Scan.read s =
        (Piece.cut rest).foldl Scan.read { s with line := s.line + t.count '\n' }) ∨
    ((∀ t, CommentBody t → ¬ t <+: cs) ∧
      Piece.first '/' ('*' :: cs) = (.openComment ('/' :: '*' :: cs), []) ∧
      (Piece.cut ('/' :: '*' :: cs)).foldl Scan.read s =
        { s with line := s.line + cs.count '\n' }) := by
  by_cases hclosed : ∃ t, CommentBody t ∧ t <+: cs
  · obtain ⟨t, ht, rest, rfl⟩ := hclosed
    refine .inl ⟨t, rest, rfl, ht, fun u hu hucs => ?_, Piece.first_blockComment ht rest,
      foldl_read_comment s ht rest⟩
    exact hu.eq_of_isPrefix ht hucs (List.prefix_append t rest)
  · have hopen : ∀ t, CommentBody t → ¬ t <+: cs := fun t ht hpre => hclosed ⟨t, ht, hpre⟩
    exact .inr ⟨hopen, Piece.first_openComment hopen, foldl_read_openComment s hopen⟩

/-- Pairs do not overlap: the slash behind the second opener closes nothing. -/
example : Piece.first '/' "*/*/ */*/ x".toList =
    (.blockComment "/*/*/ */*/".toList, " x".toList) := by decide

end Lox.Source
