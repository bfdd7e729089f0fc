import Lox.Proofs.Source.Lossless
import Lox.Proofs.Number.ReadBack

/-!
# Lexemes and texts made of them

* `Lexeme`: the characters of a token of a kind (`Lexeme.eq_of_fixed`: one text for each kind of
  mark or keyword);
* `Token.Scanned`: a token as it comes from a text, with the value of its lexeme;
* `Lexeme.fits`, `Lexeme.fits_space`: a lexeme is a token of its own at the end of a text and in
  front of a space;
* `words_of_splits`, `snd_scan_of_splits`: what the pieces of a text tell of its tokens and errors;
* `spaced`, `snd_scan_spaced`, `words_spaced`: lexemes with spaces between them are scanned one by
  one.
-/

namespace Lox

open Token (Kind)
open Number (IsNumeral)

namespace Source

/-! ## Lexemes -/

/-- The characters of a token of a kind. -/
inductive Lexeme : Kind → List Char → Prop
  | string {cs : List Char} : '"' ∉ cs → Lexeme .string ('"' :: (cs ++ ['"']))
  | number {cs ds es : List Char} : IsNumeral cs ds es → Lexeme .number cs
  | word {c : Char} {cs : List Char} : isWordStart c = true → (∀ d ∈ cs, isWordPart d = true) →
      Lexeme (Kind.ofWord (c :: cs)) (c :: cs)
  | mark {cs : List Char} {k : Kind} : (cs, k) ∈ Kind.punctuation → Lexeme k cs

/-- The kinds whose text is fixed, with that text. -/
def fixed : List (List Char × Kind) := Kind.punctuation ++ Kind.keywords

theorem fixed_injective : ∀ e ∈ fixed, ∀ f ∈ fixed, e.2 = f.2 → e.1 = f.1 := by decide +kernel

theorem kind_of_fixed : ∀ e ∈ fixed, e.2 ∉ [Kind.identifier, .string, .number, .eof] := by decide

/-- A mark or keyword is written in one way. -/
theorem Lexeme.eq_of_fixed {k : Kind} {cs ds : List Char} (h : Lexeme k cs)
    (hfixed : (ds, k) ∈ fixed) : cs = ds := by
  have hkind := kind_of_fixed _ hfixed
  have hunique : (cs, k) ∈ fixed → cs = ds := fun hmem => fixed_injective _ hmem _ hfixed rfl
  cases h with
  | string => simp at hkind
  | number => simp at hkind
  | word =>
    rcases Piece.ofWord_eq _ with hmem | hword
    · exact hunique (List.mem_append_right _ hmem)
    · simp [hword] at hkind
  | mark hmem => exact hunique (List.mem_append_left _ hmem)

theorem literal_of_fixed {k : Kind} {cs : List Char} (hfixed : (cs, k) ∈ fixed)
    (ds : List Char) : Piece.literal k ds = none := by
  have hkind := kind_of_fixed _ hfixed
  cases k <;> first | rfl | simp at hkind

theorem Lexeme.exists_isNumeral {k : Kind} {cs : List Char} (h : Lexeme k cs) (hk : k = .number) :
    ∃ ds es, IsNumeral cs ds es := by
  cases h with
  | string => cases hk
  | number hnum => exact ⟨_, _, hnum⟩
  | @word c cs => exact absurd (Piece.kind_ofWord (c :: cs)) (by simp [hk])
  | mark hmem => exact absurd (Piece.kind_mark _ hmem) (by simp [hk])

theorem numeralValue_eq {cs ds es : List Char} (h : IsNumeral cs ds es) :
    numeralValue cs = Number.ofNumeral ds es := by
  have hvalue : ∀ {ds rest : List Char}, (∀ d ∈ ds, isDigit d = true) →
      (∀ d ∈ rest.head?, isDigit d = false) →
      numeralValue (ds ++ rest) = Number.ofNumeral ds (rest.drop 1) := fun hds hrest => by
    rw [numeralValue, Piece.takeWhile_of_stop hds hrest, Piece.dropWhile_of_stop hds hrest]
  cases h with
  | whole _ hds => simpa using @hvalue cs [] hds (by simp)
  | fraction _ hds =>
    refine hvalue hds ?_
    rintro d ⟨⟩
    exact Piece.isDigit_point

/-! ## Lexemes as pieces -/

theorem Piece.Fits.lexeme {k : Kind} {cs rest : List Char} (h : (token k cs).Fits rest) :
    Lexeme k cs := by
  cases h with
  | string hcs => exact .string hcs
  | whole hne hds => exact .number (.whole hne hds)
  | fraction hne hds hes hdigits => exact .number (.fraction hne hds hes hdigits)
  | word hc hcs => exact .word hc hcs
  | mark hmem => exact .mark hmem

theorem not_comment_mark : ∀ e ∈ Kind.punctuation,
    ¬ ['/', '/'] <+: e.1 ∧ ¬ ['/', '*'] <+: e.1 := by decide

/-- A lexeme is a token of its own at the end of a text. -/
theorem Lexeme.fits {k : Kind} {cs : List Char} (h : Lexeme k cs) : (Piece.token k cs).Fits [] := by
  cases h with
  | string hcs => exact .string hcs
  | number hnum =>
    cases hnum with
    | whole hne hds => exact .whole hne hds (by simp) (by simp)
    | fraction hne hds hes hdigits => exact .fraction hne hds hes hdigits (by simp)
  | word hc hcs => exact .word hc hcs (by simp)
  | mark hmem =>
    obtain ⟨hline, hblock⟩ := not_comment_mark _ hmem
    refine .mark hmem (fun e he hpre => ?_) ?_ ?_ <;> rw [List.append_nil] at *
    · exact hpre.length_le
    · exact hline
    · exact hblock

theorem Lexeme.fits_space {k : Kind} {cs : List Char} (h : Lexeme k cs) (rest : List Char) :
    (Piece.token k cs).Fits (' ' :: rest) :=
  h.fits.gap rfl (by decide) (fun _ ht => nomatch ht) rest

end Source

/-! ## Tokens from a text -/

namespace Token

/-- The kind and the characters of a token. -/
def word (t : Token) : Kind × List Char := (t.kind, t.lexeme.toList)

/-- The token is as a text gives it: its characters are a lexeme of its kind, and its value is
theirs. -/
structure Scanned (t : Token) : Prop where
  lexeme : Source.Lexeme t.kind t.lexeme.toList
  literal : t.literal = Source.Piece.literal t.kind t.lexeme.toList

/-- The value of a number is the double nearest to its digits. -/
theorem Scanned.exists_literal {t : Token} (h : t.Scanned) (hk : t.kind = .number) :
    ∃ ds es, t.literal = some (.number (Number.ofNumeral ds es)) := by
  obtain ⟨ds, es, hnum⟩ := h.lexeme.exists_isNumeral hk
  exact ⟨ds, es, by rw [h.literal, hk, Source.Piece.literal, Source.numeralValue_eq hnum]⟩

end Token

namespace Source

theorem scanned_of_mem {source : String} {t : Token} (h : t ∈ pieceTokens source) :
    t.Scanned := by
  obtain ⟨k, cs, rest, line, hfit, rfl⟩ := mem_pieceTokens h
  exact ⟨by simpa using hfit.lexeme, by simp⟩

/-! ## Lexemes with spaces between them -/

/-- The texts, one space between each and the next. -/
def spaced (ws : List String) : String := " ".intercalate ws

/-- The pieces of lexemes with spaces between them. -/
def spacedPieces : List (Kind × List Char) → List Piece
  | [] => []
  | [(k, cs)] => [.token k cs]
  | (k, cs) :: w :: ws => .token k cs :: .blank ' ' :: spacedPieces (w :: ws)

theorem splits_spaced : ∀ {ws : List (Kind × List Char)}, (∀ w ∈ ws, Lexeme w.1 w.2) →
    Splits ([' '].intercalate (ws.map (·.2))) (spacedPieces ws)
  | [], _ => .nil
  | [(k, cs)], h => by
    have hw : Lexeme k cs := h (k, cs) (by simp)
    simpa [spacedPieces, Piece.text] using Splits.cons hw.fits .nil
  | (k, cs) :: w :: ws, h => by
    obtain ⟨hw, hws⟩ := List.forall_mem_cons.mp h
    have hrest := Splits.cons (p := .blank ' ') (.blank (by simp)) (splits_spaced hws)
    simpa [spacedPieces, Piece.text, List.intercalate_cons_cons] using
      Splits.cons (hw.fits_space _) hrest

/-- The kind and the characters of a piece that is a token. -/
def Piece.word? : Piece → Option (Kind × List Char)
  | token k cs => some (k, cs)
  | _ => none

theorem word?_spacedPieces : ∀ ws : List (Kind × List Char),
    (spacedPieces ws).filterMap Piece.word? = ws
  | [] => rfl
  | [_] => rfl
  | w :: v :: ws => congrArg (w :: ·) (word?_spacedPieces (v :: ws))

theorem fault?_spacedPieces : ∀ ws : List (Kind × List Char),
    (spacedPieces ws).filterMap Piece.fault? = []
  | [] => rfl
  | [_] => rfl
  | _ :: v :: ws => fault?_spacedPieces (v :: ws)

theorem map_word_numbered (line : Nat) (ps : List Piece) :
    ((Piece.numbered line ps).filterMap fun (l, p) => p.token? l).map Token.word =
      ps.filterMap Piece.word? := by
  induction ps generalizing line with
  | nil => rfl
  | cons p ps ih =>
    rw [Piece.numbered]
    cases p with
    | token k cs =>
      have hword : ∀ l, Token.word ⟨k, String.ofList cs, Piece.literal k cs, l⟩ = (k, cs) :=
        fun _ => congrArg (k, ·) String.toList_ofList
      exact congrArg₂ List.cons (hword _) (ih _)
    | _ => exact ih _

/-- The pieces of a text tell its tokens but for the lines. -/
theorem words_of_splits {text : String} {ps : List Piece} (h : Splits text.toList ps) :
    (pieceTokens text).map Token.word = ps.filterMap Piece.word? := by
  rw [pieceTokens, ← h.eq_cut, map_word_numbered]

theorem snd_scan_of_splits {text : String} {ps : List Piece} (h : Splits text.toList ps)
    (hfaults : ps.filterMap Piece.fault? = []) : (scan text).2 = [] := by
  rw [snd_scan, ← h.eq_cut, Piece.numbered_eq_zipIdx, List.filterMap_map,
    List.filterMap_eq_nil_iff]
  rintro ⟨p, i⟩ hp
  have hnone := List.filterMap_eq_nil_iff.mp hfaults p (List.fst_mem_of_mem_zipIdx hp)
  simp [Piece.diagnostic?, hnone]

variable {ws : List (Kind × List Char)} {texts : List String}

theorem splits_toList_spaced (h : ∀ w ∈ ws, Lexeme w.1 w.2)
    (htexts : texts.map String.toList = ws.map (·.2)) :
    Splits (spaced texts).toList (spacedPieces ws) := by
  have hsplits := splits_spaced h
  rw [← htexts] at hsplits
  rwa [spaced, String.toList_intercalate]

theorem snd_scan_spaced (h : ∀ w ∈ ws, Lexeme w.1 w.2)
    (htexts : texts.map String.toList = ws.map (·.2)) : (scan (spaced texts)).2 = [] :=
  snd_scan_of_splits (splits_toList_spaced h htexts) (fault?_spacedPieces ws)

/-- Lexemes with spaces between them are scanned one by one. -/
theorem words_spaced (h : ∀ w ∈ ws, Lexeme w.1 w.2)
    (htexts : texts.map String.toList = ws.map (·.2)) :
    (pieceTokens (spaced texts)).map Token.word = ws := by
  rw [words_of_splits (splits_toList_spaced h htexts), word?_spacedPieces]

end Source

end Lox
