import Lox.Proofs.Source.Fits
import Lox.Proofs.Source.Lines

/-!
# Scanning loses nothing and invents nothing

* `Piece.kind_ofWord`, `Piece.kind_mark`: words and marks have no value and do not end a text;
* `Piece.endLine`: the line on which a piece ends;
* `before_scan`: the tokens of a text are those of its pieces;
* the main result: the pieces, tokens and errors of a text, with their lines.
-/

namespace Lox.Source

open Token (Kind)

namespace Piece

/-- A word is a keyword or an identifier. -/
theorem ofWord_eq (w : List Char) :
    (w, Kind.ofWord w) ∈ Kind.keywords ∨ Kind.ofWord w = .identifier := by
  unfold Kind.ofWord
  cases hlookup : Kind.keywords.lookup w with
  | none => exact .inr rfl
  | some k =>
    obtain ⟨as, bs, hsplit, -⟩ := List.lookup_eq_some_iff.mp hlookup
    exact .inl (by rw [hsplit]; simp)

theorem kind_ofWord (w : List Char) : Kind.ofWord w ∉ [.string, .number, .eof] := by
  have hkeywords : ∀ e ∈ Kind.keywords, e.2 ∉ [.string, .number, .eof] := by decide
  rcases ofWord_eq w with hmem | hword
  · exact hkeywords _ hmem
  · rw [hword]
    decide

theorem kind_mark : ∀ e ∈ Kind.punctuation, e.2 ∉ [.string, .number, .eof] := by decide

/-- What a token with the text `t` carries: a string what stands between its quotes, a number its
value, any other nothing. -/
def Carries (t : List Char) (value : Option Value) : Kind → Prop
  | .string => ∃ cs, t = '"' :: (cs ++ ['"']) ∧ value = some (.string (String.ofList cs))
  | .number => value = some (.number (numeralValue t))
  | _ => value = none

theorem carries_of_notMem {k : Kind} (h : k ∉ [.string, .number, .eof]) (t : List Char) :
    Carries t (literal k t) k := by
  cases k <;> simp_all [Carries, literal]

theorem Fits.carries {k : Kind} {t rest : List Char} (h : (token k t).Fits rest) :
    Carries t (Piece.literal k t) k := by
  cases h with
  | @string cs _ hcs => exact ⟨cs, rfl, by simp [Piece.literal]⟩
  | whole | fraction => rfl
  | word => exact carries_of_notMem (kind_ofWord _) _
  | mark hmem => exact carries_of_notMem (kind_mark _ hmem) _

theorem Fits.kind_ne_eof {k : Kind} {t rest : List Char} (h : (token k t).Fits rest) :
    k ≠ .eof := by
  have hplain : k ∉ [.string, .number, .eof] → k ≠ .eof := by
    rintro hk rfl
    exact hk (by simp)
  cases h with
  | string | whole | fraction => decide
  | word => exact hplain (kind_ofWord _)
  | mark hmem => exact hplain (kind_mark _ hmem)

theorem Carries.isSome_iff {t : List Char} {value : Option Value} {k : Kind}
    (h : Carries t value k) : value.isSome = true ↔ k = .string ∨ k = .number := by
  cases k <;> simp_all [Carries]
  obtain ⟨cs, -, rfl⟩ := h
  rfl

/-- The line on which the piece ends that stands behind `i` others: one more than the newlines up
to there. -/
def endLine (ps : List Piece) (i : Nat) : Nat := 1 + (texts (ps.take (i + 1))).count '\n'

end Piece

theorem Splits.texts {cs : List Char} {ps : List Piece} (h : Splits cs ps) :
    Piece.texts ps = cs := by
  induction h with
  | nil => rfl
  | cons _ _ ih => rw [Piece.texts_cons, ih]

theorem Splits.mem {cs : List Char} {ps : List Piece} (h : Splits cs ps) :
    ∀ p ∈ ps, ∃ rest, p.Fits rest := by
  induction h with
  | nil => simp
  | cons hfit _ ih => exact List.forall_mem_cons.mpr ⟨⟨_, hfit⟩, ih⟩

theorem exists_of_token? {line : Nat} {p : Piece} {t : Token} (h : p.token? line = some t) :
    ∃ k cs, p = .token k cs ∧ t = ⟨k, String.ofList cs, Piece.literal k cs, line⟩ := by
  cases p with
  | token k cs => exact ⟨k, cs, rfl, by cases h; rfl⟩
  | _ => cases h

/-- The tokens of the pieces of a text, in order. -/
def pieceTokens (source : String) : List Token :=
  (Piece.numbered 1 (Piece.cut source.toList)).filterMap fun (line, p) => p.token? line

theorem mem_pieceTokens {source : String} {t : Token} (h : t ∈ pieceTokens source) :
    ∃ k cs rest line, (Piece.token k cs).Fits rest ∧
      t = ⟨k, String.ofList cs, Piece.literal k cs, line⟩ := by
  obtain ⟨⟨line, p⟩, hp, ht⟩ := List.mem_filterMap.mp h
  obtain ⟨k, cs, rfl, rfl⟩ := exists_of_token? ht
  rw [Piece.numbered_eq_zipIdx, List.mem_map] at hp
  obtain ⟨⟨q, i⟩, hq, heq⟩ := hp
  obtain ⟨-, rfl⟩ := Prod.mk.inj heq
  obtain ⟨rest, hfit⟩ := (splits_cut source.toList).mem _ (List.fst_mem_of_mem_zipIdx hq)
  exact ⟨k, cs, rest, line, hfit, rfl⟩

/-- A token lies on a line of its text. -/
theorem line_of_mem_pieceTokens {source : String} {t : Token} (h : t ∈ pieceTokens source) :
    1 ≤ t.line ∧ t.line ≤ 1 + source.toList.count '\n' := by
  obtain ⟨⟨line, p⟩, hp, ht⟩ := List.mem_filterMap.mp h
  obtain ⟨k, cs, rfl, rfl⟩ := exists_of_token? ht
  rw [Piece.numbered_eq_zipIdx, List.mem_map] at hp
  obtain ⟨⟨q, i⟩, -, heq⟩ := hp
  obtain ⟨rfl, -⟩ := Prod.mk.inj heq
  -- the pieces up to the token's make up a beginning of the text
  have htext : Piece.texts ((Piece.cut source.toList).take (i + 1)) ++
      Piece.texts ((Piece.cut source.toList).drop (i + 1)) = source.toList := by
    rw [← Piece.texts_append, List.take_append_drop, Piece.texts_cut]
  have hcount := congrArg (List.count '\n') htext
  rw [List.count_append] at hcount
  dsimp only
  omega

theorem fst_scan (source : String) :
    (scan source).1 = pieceTokens source ++ [.endOn (1 + source.toList.count '\n')] := by
  rw [scan_eq]
  rfl

theorem dropLast_scan (source : String) : (scan source).1.dropLast = pieceTokens source := by
  rw [fst_scan, List.dropLast_concat]

theorem snd_scan (source : String) : (scan source).2 =
    (Piece.numbered 1 (Piece.cut source.toList)).filterMap fun (line, p) => p.diagnostic? line := by
  rw [scan_eq]

theorem before_scan (source : String) :
    (scan source).1.takeWhile (!·.isEnd) = pieceTokens source := by
  rw [fst_scan, List.takeWhile_append_of_pos]
  · simp [Token.endOn, Token.isEnd]
  · intro t ht
    obtain ⟨k, cs, rest, line, hfit, rfl⟩ := mem_pieceTokens ht
    simpa [Token.isEnd] using hfit.kind_ne_eof

/-- **Scanning loses nothing and invents nothing.** A text splits into pieces in one way. There is
one token for each piece that is one, with its text, and one error for each stray character and
for an open string; each lies on the line on which its piece ends. -/
theorem scan_lossless (source : String) : ∃ ps : List Piece,
    Piece.texts ps = source.toList ∧ (∀ qs, Splits source.toList qs ↔ qs = ps) ∧
    (scan source).1 = (ps.zipIdx.filterMap fun (p, i) => match p with
      | .token k t => some ⟨k, String.ofList t, Piece.literal k t, Piece.endLine ps i⟩
      | _ => none) ++ [.endOn (1 + source.toList.count '\n')] ∧
    (∀ t ∈ (scan source).1, (t.literal.isSome = true ↔ t.kind = .string ∨ t.kind = .number) ∧
      Piece.Carries t.lexeme.toList t.literal t.kind) ∧
    (scan source).2 = ps.zipIdx.filterMap fun (p, i) => match p with
      | .stray c => some (.lexical (Piece.endLine ps i) ("Unexpected character: " ++ c.toString))
      | .openString _ => some (.lexical (Piece.endLine ps i) "Unterminated string.")
      | _ => none := by
  refine ⟨Piece.cut source.toList, Piece.texts_cut _, fun qs => splits_iff, ?_, ?_, ?_⟩
  · rw [fst_scan, pieceTokens, Piece.numbered_eq_zipIdx, List.filterMap_map]
    rfl
  · intro t ht
    have hcarries : Piece.Carries t.lexeme.toList t.literal t.kind := by
      rw [fst_scan, List.mem_append, List.mem_singleton] at ht
      rcases ht with ht | rfl
      · obtain ⟨k, cs, rest, line, hfit, rfl⟩ := mem_pieceTokens ht
        simpa using hfit.carries
      · rfl
    exact ⟨hcarries.isSome_iff, hcarries⟩
  · rw [snd_scan, Piece.numbered_eq_zipIdx, List.filterMap_map]
    congr 1
    funext ⟨p, i⟩
    cases p <;> rfl

end Lox.Source
