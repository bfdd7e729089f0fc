import Lox.Proofs.Source.Comment
import Mathlib.Data.List.TakeWhile

/-!
# What a piece may be

* `Piece.Fits`: a piece that may stand before a given rest of the text;
* `Splits`: a text as a sequence of such pieces;
* `Piece.first_of_fits`, `Piece.fits_first`: the first piece is the only one that fits;
* `splits_iff`: so a text splits in one way only, which is how it is cut;
* `Piece.Fits.gap`: a blank ends every piece that can end there;
* `Piece.cut_join`: so texts are cut one by one if they are joined by newlines.
-/

namespace Lox.Source

open Token (Kind)

/-! ## Characters -/

theorem isBlank_iff {c : Char} : isBlank c = true ↔ c ∈ [' ', '\t', '\r', '\n'] := by
  simp [isBlank, or_assoc]

theorem isDigit_iff {c : Char} : isDigit c = true ↔ 48 ≤ c.toNat ∧ c.toNat ≤ 57 := by
  simp [isDigit, Char.le_def, UInt32.le_iff_toNat_le]

theorem isWordStart_iff {c : Char} : isWordStart c = true ↔
    97 ≤ c.toNat ∧ c.toNat ≤ 122 ∨ 65 ≤ c.toNat ∧ c.toNat ≤ 90 ∨ c = '_' := by
  simp [isWordStart, Char.le_def, UInt32.le_iff_toNat_le, or_assoc]

theorem of_isBlank {c : Char} (h : isBlank c = true) :
    isDigit c = false ∧ isWordStart c = false ∧ c ≠ '"' := by
  rw [isBlank_iff] at h
  simp only [List.mem_cons, List.not_mem_nil, or_false] at h
  rcases h with rfl | rfl | rfl | rfl <;> decide

theorem isWordStart_of_isDigit {c : Char} (h : isDigit c = true) : isWordStart c = false := by
  rw [isDigit_iff] at h
  rw [← Bool.not_eq_true, isWordStart_iff]
  rintro (hc | hc | rfl)
  · omega
  · omega
  · exact absurd h (by decide)

/-- The first character of a mark begins nothing else. -/
theorem of_mark : ∀ e ∈ Kind.punctuation, ∃ c cs, e.1 = c :: cs ∧ isBlank c = false ∧ c ≠ '"' ∧
    isDigit c = false ∧ isWordStart c = false := by
  have h : ∀ e ∈ Kind.punctuation, e.1.head?.any fun c => !isBlank c && c != '"' && !isDigit c &&
      !isWordStart c := by decide
  intro e he
  obtain ⟨cs, k⟩ := e
  cases cs with
  | nil => exact absurd (h _ he) (by simp)
  | cons c cs =>
    have hc := h _ he
    simp only [List.head?_cons, Option.any_some, Bool.and_eq_true, Bool.not_eq_true',
      bne_iff_ne] at hc
    obtain ⟨⟨⟨hb, hq⟩, hd⟩, hw⟩ := hc
    exact ⟨c, cs, rfl, hb, hq, hd, hw⟩

theorem isBlank_of_mem_mark : ∀ e ∈ Kind.punctuation, ∀ c ∈ e.1, isBlank c = false := by
  have h : ∀ e ∈ Kind.punctuation, (e.1.all fun c => !isBlank c) = true := by decide
  intro e he c hc
  simpa using List.all_eq_true.mp (h e he) c hc

namespace Piece

/-- The piece may stand before the rest of a text: its own text has the form that the piece asks
for, and the rest neither belongs to the piece nor makes it another one. -/
inductive Fits : Piece → List Char → Prop
  | blank {c : Char} {rest : List Char} : c ∈ [' ', '\t', '\r', '\n'] → Fits (blank c) rest
  | lineComment {cs rest : List Char} : '\n' ∉ cs → rest.head? ∈ [none, some '\n'] →
      Fits (lineComment ('/' :: '/' :: cs)) rest
  | blockComment {cs rest : List Char} : CommentBody cs →
      Fits (blockComment ('/' :: '*' :: cs)) rest
  | string {cs rest : List Char} : '"' ∉ cs → Fits (token .string ('"' :: (cs ++ ['"']))) rest
  | whole {ds rest : List Char} : ds ≠ [] → (∀ d ∈ ds, isDigit d = true) →
      (∀ d ∈ rest.head?, isDigit d = false) →
      (∀ d es, rest = '.' :: d :: es → isDigit d = false) → Fits (token .number ds) rest
  | fraction {ds es rest : List Char} : ds ≠ [] → (∀ d ∈ ds, isDigit d = true) → es ≠ [] →
      (∀ e ∈ es, isDigit e = true) → (∀ d ∈ rest.head?, isDigit d = false) →
      Fits (token .number (ds ++ '.' :: es)) rest
  | word {c : Char} {cs rest : List Char} : isWordStart c = true → (∀ d ∈ cs, isWordPart d = true) →
      (∀ d ∈ rest.head?, isWordPart d = false) →
      Fits (token (Kind.ofWord (c :: cs)) (c :: cs)) rest
  | mark {cs rest : List Char} {k : Kind} : (cs, k) ∈ Kind.punctuation →
      (∀ e ∈ Kind.punctuation, e.1 <+: cs ++ rest → e.1.length ≤ cs.length) →
      ¬ ['/', '/'] <+: cs ++ rest → ¬ ['/', '*'] <+: cs ++ rest → Fits (token k cs) rest
  | stray {c : Char} {rest : List Char} : c ∉ [' ', '\t', '\r', '\n'] → c ≠ '"' →
      isDigit c = false → isWordStart c = false →
      (∀ e ∈ Kind.punctuation, e.1.head? ≠ some c) → Fits (stray c) rest
  | openComment {cs : List Char} : (∀ t, CommentBody t → ¬ t <+: cs) →
      Fits (openComment ('/' :: '*' :: cs)) []
  | openString {cs : List Char} : '"' ∉ cs → Fits (openString ('"' :: cs)) []

end Piece

/-- The text is made up of the pieces, each of which fits where it stands. -/
inductive Splits : List Char → List Piece → Prop
  | nil : Splits [] []
  | cons {p : Piece} {ps : List Piece} {cs : List Char} : p.Fits cs → Splits cs ps →
      Splits (p.text ++ cs) (p :: ps)

namespace Piece

/-! ## The branches of `first` -/

theorem first_blank {c : Char} (h : isBlank c = true) (cs : List Char) :
    first c cs = (blank c, cs) := by
  rw [first, if_pos h]

theorem first_quote (cs : List Char) : first '"' cs = match cs.dropWhile (· != '"') with
    | quote :: rest => (token .string ('"' :: cs.takeWhile (· != '"') ++ [quote]), rest)
    | [] => (openString ('"' :: cs), []) := by
  have hb : ¬ isBlank '"' = true := by decide
  exact (if_neg hb).trans (if_pos rfl)

theorem first_digit {c : Char} (h : isDigit c = true) (cs : List Char) :
    first c cs = (token .number (numeral (c :: cs)).1, (numeral (c :: cs)).2) := by
  have hb : ¬ isBlank c = true := fun hb => by simp [(of_isBlank hb).1] at h
  have hq : c ≠ '"' := by rintro rfl; exact absurd h (by decide)
  rw [first, if_neg hb, if_neg hq, if_pos h]

theorem first_wordStart {c : Char} (h : isWordStart c = true) (cs : List Char) :
    first c cs = (token (Kind.ofWord (c :: cs.takeWhile isWordPart))
      (c :: cs.takeWhile isWordPart), cs.dropWhile isWordPart) := by
  have hb : ¬ isBlank c = true := fun hb => by simp [(of_isBlank hb).2.1] at h
  have hq : c ≠ '"' := by rintro rfl; exact absurd h (by decide)
  have hd : ¬ isDigit c = true := fun hd => by simp [isWordStart_of_isDigit hd] at h
  rw [first, if_neg hb, if_neg hq, if_neg hd, if_pos h]

theorem first_slash_slash (cs : List Char) : first '/' ('/' :: cs) =
    (lineComment ('/' :: '/' :: cs.takeWhile (· != '\n')), cs.dropWhile (· != '\n')) := by
  rw [first, if_neg (by decide), if_neg (by decide), if_neg (by decide), if_neg (by decide),
    if_pos (by simp)]
  rfl

theorem first_slash_star (cs : List Char) : first '/' ('*' :: cs) = match commentEnd 0 2 cs with
    | some n => (blockComment ('/' :: ('*' :: cs).take (n - 1)), ('*' :: cs).drop (n - 1))
    | none => (openComment ('/' :: '*' :: cs), []) := by
  rw [first, if_neg (by decide), if_neg (by decide), if_neg (by decide), if_neg (by decide),
    if_neg (by simp), if_pos (by simp)]
  rfl

theorem first_other {c : Char} {cs : List Char} (hb : isBlank c = false) (hq : c ≠ '"')
    (hd : isDigit c = false) (hw : isWordStart c = false) (hl : ¬ ['/', '/'] <+: c :: cs)
    (hc : ¬ ['/', '*'] <+: c :: cs) : first c cs = match punctuation? (c :: cs) with
      | some (mark, kind) =>
        (token kind (c :: cs.take (mark.length - 1)), cs.drop (mark.length - 1))
      | none => (stray c, cs) := by
  rw [← List.isPrefixOf_iff_prefix] at hl hc
  rw [← Bool.not_eq_true] at hb hd hw
  exact (if_neg hb).trans <| (if_neg hq).trans <| (if_neg hd).trans <| (if_neg hw).trans <|
    (if_neg hl).trans (if_neg hc)

/-! ## Runs of characters and marks -/

theorem takeWhile_of_stop {p : Char → Bool} {ds rest : List Char} (hds : ∀ d ∈ ds, p d = true)
    (hrest : ∀ d ∈ rest.head?, p d = false) : (ds ++ rest).takeWhile p = ds := by
  rw [List.takeWhile_append_of_pos hds]
  cases rest with
  | nil => simp
  | cons d rest => simp [hrest d rfl]

theorem dropWhile_of_stop {p : Char → Bool} {ds rest : List Char} (hds : ∀ d ∈ ds, p d = true)
    (hrest : ∀ d ∈ rest.head?, p d = false) : (ds ++ rest).dropWhile p = rest := by
  rw [List.dropWhile_append_of_pos hds]
  cases rest with
  | nil => rfl
  | cons d rest => simp [hrest d rfl]

theorem head?_dropWhile (p : Char → Bool) (cs : List Char) :
    ∀ d ∈ (cs.dropWhile p).head?, p d = false := by
  intro d hd
  have h := List.head?_dropWhile_not p cs
  rw [Option.mem_def.mp hd] at h
  exact h

theorem isDigit_point : isDigit '.' = false := by decide

theorem numeral_whole {ds rest : List Char} (hds : ∀ d ∈ ds, isDigit d = true)
    (hrest : ∀ d ∈ rest.head?, isDigit d = false)
    (hpoint : ∀ d es, rest = '.' :: d :: es → isDigit d = false) :
    numeral (ds ++ rest) = (ds, rest) := by
  have hcut := numeral_cases (ds ++ rest)
  rw [takeWhile_of_stop hds hrest, dropWhile_of_stop hds hrest] at hcut
  rcases hcut with ⟨d, es, hpiece, hd, -⟩ | ⟨-, heq⟩
  · rw [hpoint d es hpiece] at hd
    cases hd
  · exact heq

theorem numeral_fraction {ds es rest : List Char} (hds : ∀ d ∈ ds, isDigit d = true)
    (hes : es ≠ []) (hdigits : ∀ e ∈ es, isDigit e = true)
    (hrest : ∀ d ∈ rest.head?, isDigit d = false) :
    numeral (ds ++ '.' :: (es ++ rest)) = (ds ++ '.' :: es, rest) := by
  have hpoint : ∀ d ∈ ('.' :: (es ++ rest)).head?, isDigit d = false := by
    rintro d ⟨⟩
    exact isDigit_point
  unfold numeral
  rw [takeWhile_of_stop hds hpoint, dropWhile_of_stop hds hpoint]
  obtain ⟨e, es, rfl⟩ := List.exists_cons_of_ne_nil hes
  obtain ⟨he, hes⟩ := List.forall_mem_cons.mp hdigits
  simp only [List.cons_append, he, if_true, takeWhile_of_stop hes hrest,
    dropWhile_of_stop hes hrest]

theorem pairwise_punctuation :
    Kind.punctuation.Pairwise fun e f => f.1.length ≤ e.1.length := by decide

theorem punctuation_injective : ∀ e ∈ Kind.punctuation, ∀ f ∈ Kind.punctuation,
    e.1 = f.1 → e = f := by decide

/-- The mark that is read is the longest with which the text begins. -/
theorem punctuation?_eq_some_iff {cs mark : List Char} {k : Kind} :
    punctuation? cs = some (mark, k) ↔ (mark, k) ∈ Kind.punctuation ∧ mark <+: cs ∧
      ∀ e ∈ Kind.punctuation, e.1 <+: cs → e.1.length ≤ mark.length := by
  have hlongest : ∀ {f}, punctuation? cs = some f → f ∈ Kind.punctuation ∧ f.1 <+: cs ∧
      ∀ e ∈ Kind.punctuation, e.1 <+: cs → e.1.length ≤ f.1.length := by
    intro f hf
    obtain ⟨hpre, as, bs, hsplit, has⟩ := List.find?_eq_some_iff_append.mp hf
    have hpair := pairwise_punctuation
    rw [hsplit, List.pairwise_append, List.pairwise_cons] at hpair
    refine ⟨by rw [hsplit]; simp, List.isPrefixOf_iff_prefix.mp hpre, fun e he hcs => ?_⟩
    rw [hsplit, List.mem_append, List.mem_cons] at he
    rcases he with he | rfl | he
    · have hnot := has e he
      rw [List.isPrefixOf_iff_prefix.mpr hcs] at hnot
      cases hnot
    · exact Nat.le_refl _
    · exact hpair.2.1.1 e he
  constructor
  · exact hlongest
  · rintro ⟨hmem, hpre, hlong⟩
    cases hf : punctuation? cs with
    | none =>
      have hnone := List.find?_eq_none.mp hf _ hmem
      exact absurd (List.isPrefixOf_iff_prefix.mpr hpre) hnone
    | some f =>
      obtain ⟨hfmem, hfpre, hflong⟩ := hlongest hf
      have hlen : f.1.length = mark.length :=
        Nat.le_antisymm (hlong f hfmem hfpre) (hflong _ hmem hpre)
      have hfmark := List.prefix_of_prefix_length_le hfpre hpre (Nat.le_of_eq hlen)
      have heq : f.1 = mark := hfmark.eq_of_length hlen
      rw [punctuation_injective f hfmem _ hmem heq]

/-! ## The piece that fits is read first -/

theorem run_of_notMem {c : Char} {cs : List Char} (h : c ∉ cs) : ∀ d ∈ cs, (d != c) = true := by
  intro d hd
  rw [bne_iff_ne]
  rintro rfl
  exact h hd

theorem first_lineComment {cs rest : List Char} (hcs : '\n' ∉ cs)
    (hrest : rest.head? ∈ [none, some '\n']) :
    first '/' ('/' :: (cs ++ rest)) = (lineComment ('/' :: '/' :: cs), rest) := by
  have hstop : ∀ d ∈ rest.head?, (d != '\n') = false := by
    intro d hd
    rw [Option.mem_def.mp hd] at hrest
    simpa using hrest
  rw [first_slash_slash, takeWhile_of_stop (run_of_notMem hcs) hstop,
    dropWhile_of_stop (run_of_notMem hcs) hstop]

theorem first_blockComment {cs : List Char} (h : CommentBody cs) (rest : List Char) :
    first '/' ('*' :: (cs ++ rest)) = (blockComment ('/' :: '*' :: cs), rest) := by
  have hlen : 2 + cs.length - 1 = cs.length + 1 := by omega
  rw [first_slash_star, commentEnd_append h]
  dsimp only
  rw [hlen, List.take_succ_cons, List.drop_succ_cons, List.take_left, List.drop_left]

theorem first_openComment {cs : List Char} (h : ∀ t, CommentBody t → ¬ t <+: cs) :
    first '/' ('*' :: cs) = (openComment ('/' :: '*' :: cs), []) := by
  have hnone : commentEnd 0 2 cs = none := by
    rw [Option.eq_none_iff_forall_ne_some]
    intro n hn
    obtain ⟨t, rest, rfl, ht, -⟩ := commentEnd_eq_some_iff.mp hn
    exact h t ht (List.prefix_append _ _)
  rw [first_slash_star, hnone]

theorem first_string {cs : List Char} (h : '"' ∉ cs) (rest : List Char) :
    first '"' (cs ++ ['"'] ++ rest) = (token .string ('"' :: (cs ++ ['"'])), rest) := by
  have hstop : ∀ d ∈ ('"' :: rest).head?, (d != '"') = false := by simp
  rw [first_quote, List.append_assoc, List.singleton_append,
    takeWhile_of_stop (run_of_notMem h) hstop, dropWhile_of_stop (run_of_notMem h) hstop]
  rfl

theorem first_openString {cs : List Char} (h : '"' ∉ cs) :
    first '"' cs = (openString ('"' :: cs), []) := by
  rw [first_quote, List.dropWhile_eq_nil_iff.mpr (run_of_notMem h)]

theorem first_number {c : Char} {cs ds rest : List Char} (hc : isDigit c = true)
    (h : numeral (c :: cs) = (ds, rest)) : first c cs = (token .number ds, rest) := by
  rw [first_digit hc, h]

theorem first_word {c : Char} {cs rest : List Char} (hc : isWordStart c = true)
    (hcs : ∀ d ∈ cs, isWordPart d = true) (hrest : ∀ d ∈ rest.head?, isWordPart d = false) :
    first c (cs ++ rest) = (token (Kind.ofWord (c :: cs)) (c :: cs), rest) := by
  rw [first_wordStart hc, takeWhile_of_stop hcs hrest, dropWhile_of_stop hcs hrest]

theorem first_mark {c : Char} {cs rest : List Char} {k : Kind}
    (hmem : (c :: cs, k) ∈ Kind.punctuation)
    (hlong : ∀ e ∈ Kind.punctuation, e.1 <+: c :: (cs ++ rest) → e.1.length ≤ (c :: cs).length)
    (hl : ¬ ['/', '/'] <+: c :: (cs ++ rest)) (hc : ¬ ['/', '*'] <+: c :: (cs ++ rest)) :
    first c (cs ++ rest) = (token k (c :: cs), rest) := by
  have hmark : punctuation? (c :: (cs ++ rest)) = some (c :: cs, k) :=
    punctuation?_eq_some_iff.mpr ⟨hmem, ⟨rest, rfl⟩, hlong⟩
  obtain ⟨d, ds, hd, hb, hq, hdigit, hw⟩ := of_mark _ hmem
  obtain ⟨rfl, rfl⟩ := List.cons_eq_cons.mp hd
  rw [first_other hb hq hdigit hw hl hc, hmark]
  simp

theorem first_stray {c : Char} (hb : c ∉ [' ', '\t', '\r', '\n']) (hq : c ≠ '"')
    (hd : isDigit c = false) (hw : isWordStart c = false)
    (hmarks : ∀ e ∈ Kind.punctuation, e.1.head? ≠ some c) (rest : List Char) :
    first c rest = (stray c, rest) := by
  have hnone : punctuation? (c :: rest) = none := by
    refine List.find?_eq_none.mpr fun e he => ?_
    rw [List.isPrefixOf_iff_prefix]
    rintro ⟨tail, htail⟩
    obtain ⟨d, ds, hds, -⟩ := of_mark e he
    rw [hds] at htail
    obtain ⟨rfl, -⟩ := List.cons_eq_cons.mp htail
    exact hmarks e he (by rw [hds]; rfl)
  have hslash : ∀ d, ¬ ['/', d] <+: c :: rest := by
    rintro d ⟨tail, htail⟩
    obtain ⟨rfl, -⟩ := List.cons_eq_cons.mp htail
    exact hmarks (['/'], .slash) (by decide) rfl
  have hblank : isBlank c = false := by rwa [← Bool.not_eq_true, isBlank_iff]
  rw [first_other hblank hq hd hw (hslash _) (hslash _), hnone]

theorem first_of_fits {p : Piece} {c : Char} {cs rest : List Char} (h : p.Fits rest)
    (hp : p.text ++ rest = c :: cs) : first c cs = (p, rest) := by
  cases h with
  | blank hc =>
    cases hp
    exact first_blank (isBlank_iff.mpr hc) _
  | lineComment hcs hrest =>
    cases hp
    exact first_lineComment hcs hrest
  | blockComment hcs =>
    cases hp
    exact first_blockComment hcs _
  | string hcs =>
    cases hp
    exact first_string hcs _
  | whole hne hds hrest hpoint =>
    obtain ⟨d, ds, rfl⟩ := List.exists_cons_of_ne_nil hne
    cases hp
    exact first_number (hds c (by simp)) (numeral_whole hds hrest hpoint)
  | @fraction ds es _ hne hds hes hdigits hrest =>
    obtain ⟨d, ds, rfl⟩ := List.exists_cons_of_ne_nil hne
    cases hp
    refine first_number (hds c (by simp)) ?_
    have hnum := numeral_fraction hds hes hdigits hrest
    simpa using hnum
  | word hc hcs hrest =>
    cases hp
    exact first_word hc hcs hrest
  | mark hmem hlong hl hc =>
    obtain ⟨d, ms, rfl, -⟩ := of_mark _ hmem
    cases hp
    exact first_mark hmem hlong hl hc
  | stray hb hq hd hw hmarks =>
    cases hp
    exact first_stray hb hq hd hw hmarks _
  | openComment hcs =>
    rw [List.append_nil] at hp
    cases hp
    exact first_openComment hcs
  | openString hcs =>
    rw [List.append_nil] at hp
    cases hp
    exact first_openString hcs

/-! ## The piece that is read first fits -/

theorem notMem_takeWhile (c : Char) (cs : List Char) : c ∉ cs.takeWhile (· != c) := by
  intro h
  have hne := List.mem_takeWhile_imp h
  simp at hne

theorem fits_numeral {c : Char} (hc : isDigit c = true) (cs : List Char) :
    (token .number (numeral (c :: cs)).1).Fits (numeral (c :: cs)).2 := by
  have hne : (c :: cs).takeWhile isDigit ≠ [] := by simp [hc]
  have hds : ∀ d ∈ (c :: cs).takeWhile isDigit, isDigit d = true := fun d hd =>
    List.mem_takeWhile_imp hd
  have hstop := head?_dropWhile isDigit (c :: cs)
  rcases numeral_cases (c :: cs) with ⟨d, rest, -, hd, heq⟩ | ⟨hpoint, heq⟩ <;> rw [heq]
  · refine .fraction hne hds (List.cons_ne_nil _ _) ?_ (head?_dropWhile _ _)
    exact List.forall_mem_cons.mpr ⟨hd, fun e he => List.mem_takeWhile_imp he⟩
  · exact .whole hne hds hstop hpoint

theorem fits_quote (cs : List Char) : (first '"' cs).1.Fits (first '"' cs).2 := by
  rw [first_quote]
  cases hrest : cs.dropWhile (· != '"') with
  | cons quote rest =>
    have hquote := head?_dropWhile (· != '"') cs
    rw [hrest] at hquote
    obtain rfl : quote = '"' := by simpa using hquote
    exact .string (notMem_takeWhile _ _)
  | nil =>
    refine .openString fun hmem => ?_
    have hrun := List.dropWhile_eq_nil_iff.mp hrest _ hmem
    simp at hrun

theorem fits_slash_slash (cs : List Char) :
    (first '/' ('/' :: cs)).1.Fits (first '/' ('/' :: cs)).2 := by
  rw [first_slash_slash]
  refine .lineComment (notMem_takeWhile _ _) ?_
  have hstop := head?_dropWhile (· != '\n') cs
  cases hrest : (cs.dropWhile (· != '\n')).head? with
  | none => simp
  | some d => simpa using hstop d hrest

theorem fits_slash_star (cs : List Char) :
    (first '/' ('*' :: cs)).1.Fits (first '/' ('*' :: cs)).2 := by
  cases hend : commentEnd 0 2 cs with
  | some n =>
    obtain ⟨t, rest, rfl, ht, -⟩ := commentEnd_eq_some_iff.mp hend
    rw [first_blockComment ht]
    exact .blockComment ht
  | none =>
    have hopen : ∀ t, CommentBody t → ¬ t <+: cs := by
      rintro t ht ⟨rest, rfl⟩
      rw [commentEnd_append ht] at hend
      cases hend
    rw [first_openComment hopen]
    exact .openComment hopen

/-- A character that begins a mark is one itself. -/
theorem single_mark : ∀ e ∈ Kind.punctuation, ∃ f ∈ Kind.punctuation, f.1 = e.1.take 1 := by
  decide

theorem fits_other {c : Char} {cs : List Char} (hb : isBlank c = false) (hq : c ≠ '"')
    (hd : isDigit c = false) (hw : isWordStart c = false) (hl : ¬ ['/', '/'] <+: c :: cs)
    (hc : ¬ ['/', '*'] <+: c :: cs) : (first c cs).1.Fits (first c cs).2 := by
  rw [first_other hb hq hd hw hl hc]
  cases hmark : punctuation? (c :: cs) with
  | some e =>
    obtain ⟨mark, k⟩ := e
    obtain ⟨hmem, ⟨rest, hrest⟩, hlong⟩ := punctuation?_eq_some_iff.mp hmark
    obtain ⟨d, ds, rfl, -⟩ := of_mark _ hmem
    obtain ⟨rfl, rfl⟩ := List.cons_eq_cons.mp hrest
    simpa using Fits.mark hmem hlong hl hc
  | none =>
    refine .stray (by rwa [← isBlank_iff, Bool.not_eq_true]) hq hd hw fun e he hhead => ?_
    obtain ⟨d, ds, hds, -⟩ := of_mark e he
    rw [hds, List.head?_cons, Option.some.injEq] at hhead
    subst hhead
    obtain ⟨f, hf, hfe⟩ := single_mark e he
    have hnone := List.find?_eq_none.mp hmark f hf
    rw [hfe, hds] at hnone
    simp at hnone

theorem fits_first (c : Char) (cs : List Char) : (first c cs).1.Fits (first c cs).2 := by
  by_cases hb : isBlank c = true
  · rw [first_blank hb]
    exact .blank (isBlank_iff.mp hb)
  by_cases hq : c = '"'
  · subst hq
    exact fits_quote cs
  by_cases hd : isDigit c = true
  · rw [first_digit hd]
    exact fits_numeral hd cs
  by_cases hw : isWordStart c = true
  · rw [first_wordStart hw]
    exact .word hw (fun d hd => List.mem_takeWhile_imp hd) (head?_dropWhile _ _)
  by_cases hl : ['/', '/'] <+: c :: cs
  · obtain ⟨ds, hds⟩ := hl
    obtain ⟨rfl, rfl⟩ := List.cons_eq_cons.mp hds
    exact fits_slash_slash ds
  by_cases hc : ['/', '*'] <+: c :: cs
  · obtain ⟨ds, hds⟩ := hc
    obtain ⟨rfl, rfl⟩ := List.cons_eq_cons.mp hds
    exact fits_slash_star ds
  rw [Bool.not_eq_true] at hb hd hw
  exact fits_other hb hq hd hw hl hc

end Piece

/-! ## The pieces of a text -/

theorem Piece.text_ne_nil {p : Piece} {rest : List Char} (h : p.Fits rest) : p.text ≠ [] := by
  cases h with
  | whole hne => exact hne
  | fraction hne => simp [Piece.text]
  | mark hmem =>
    obtain ⟨c, cs, rfl, -⟩ := of_mark _ hmem
    exact List.cons_ne_nil _ _
  | _ => exact List.cons_ne_nil _ _

/-- A place is taken by one piece only. -/
theorem Piece.Fits.unique {p q : Piece} {r s : List Char} (hp : p.Fits r) (hq : q.Fits s)
    (h : p.text ++ r = q.text ++ s) : p = q := by
  obtain ⟨c, cs, hcs⟩ := List.exists_cons_of_ne_nil (Piece.text_ne_nil hp)
  have hfirst : p.text ++ r = c :: (cs ++ r) := by rw [hcs, List.cons_append]
  have hboth := (first_of_fits hp hfirst).symm.trans (first_of_fits hq (h ▸ hfirst))
  exact (Prod.mk.inj hboth).1

theorem splits_cut (cs : List Char) : Splits cs (Piece.cut cs) := by
  induction hn : cs.length using Nat.strongRecOn generalizing cs with
  | ind n ih =>
    cases cs with
    | nil =>
      rw [Piece.cut_nil]
      exact .nil
    | cons c cs =>
      have hlt := Piece.first_lt c cs
      rw [hn] at hlt
      have hcons := Splits.cons (Piece.fits_first c cs) (ih _ hlt _ rfl)
      rwa [Piece.first_append, ← Piece.cut_cons] at hcons

theorem Splits.eq_cut {cs : List Char} {ps : List Piece} (h : Splits cs ps) :
    ps = Piece.cut cs := by
  induction h with
  | nil => exact Piece.cut_nil.symm
  | @cons p ps rest hfit _ ih =>
    obtain ⟨c, cs, hcs⟩ := List.exists_cons_of_ne_nil (Piece.text_ne_nil hfit)
    have hfirst : Piece.first c (cs ++ rest) = (p, rest) :=
      Piece.first_of_fits hfit (by rw [hcs, List.cons_append])
    rw [hcs, List.cons_append, Piece.cut_cons, hfirst, ih]

/-- A text splits in one way only. -/
theorem splits_iff {cs : List Char} {ps : List Piece} : Splits cs ps ↔ ps = Piece.cut cs := by
  constructor
  · exact Splits.eq_cut
  · rintro rfl
    exact splits_cut cs

/-! ## Texts joined by blanks -/

/-- The piece does not ask for more text than there is. -/
def Piece.isClosed : Piece → Bool
  | openComment _ | openString _ => false
  | _ => true

/-- What stands before a character that it does not contain stands before all that precedes the
character. -/
theorem isPrefix_of_notMem {c : Char} {es xs ys : List Char} (hes : c ∉ es)
    (h : es <+: xs ++ c :: ys) : es <+: xs := by
  by_cases hlen : es.length ≤ xs.length
  · exact List.prefix_of_prefix_length_le h (List.prefix_append _ _) hlen
  · have hline : xs ++ [c] <+: xs ++ c :: ys := ⟨ys, by simp⟩
    have hpre : xs ++ [c] <+: es := by
      refine List.prefix_of_prefix_length_le hline h ?_
      rw [List.length_append, List.length_singleton]
      omega
    exact absurd (hpre.subset (by simp)) hes

/-- A blank ends every piece that is closed, but a line comment ends at a newline only. -/
theorem Piece.Fits.gap {p : Piece} {rest : List Char} (h : p.Fits rest)
    (hclosed : p.isClosed = true) {c : Char} (hc : isBlank c = true)
    (hline : ∀ t, p = .lineComment t → c = '\n') (ys : List Char) : p.Fits (rest ++ c :: ys) := by
  obtain ⟨hdigit, hword, -⟩ := of_isBlank hc
  have hpart : isWordPart c = false := by rw [isWordPart, hword, hdigit, Bool.or_false]
  -- What follows begins as before, or with the blank.
  have hhead : ∀ {f : Char → Bool}, (∀ d ∈ rest.head?, f d = false) → f c = false →
      ∀ d ∈ (rest ++ c :: ys).head?, f d = false := by
    intro f hrest hn d hd
    cases rest with
    | nil =>
      obtain rfl : c = d := by simpa using hd
      exact hn
    | cons e rest => exact hrest d (by simpa using hd)
  -- No mark reaches past the blank.
  have hblank : ∀ {es xs : List Char}, (∀ e ∈ es, isBlank e = false) → es <+: xs ++ c :: ys →
      es <+: xs := by
    intro es xs hes hpre
    refine isPrefix_of_notMem (fun hmem => ?_) hpre
    rw [hes c hmem] at hc
    cases hc
  cases h with
  | blank hb => exact .blank hb
  | lineComment hcs hrest =>
    obtain rfl := hline _ rfl
    refine .lineComment hcs ?_
    cases rest with
    | nil => simp
    | cons d rest => simpa using hrest
  | blockComment hcs => exact .blockComment hcs
  | string hcs => exact .string hcs
  | whole hne hds hrest hpoint =>
    refine .whole hne hds (hhead hrest hdigit) fun d es heq => ?_
    cases rest with
    | nil =>
      obtain ⟨rfl, -⟩ := List.cons_eq_cons.mp heq
      exact absurd hc (by decide)
    | cons e rest =>
      obtain ⟨rfl, htail⟩ := List.cons_eq_cons.mp heq
      cases rest with
      | nil =>
        obtain ⟨rfl, -⟩ := List.cons_eq_cons.mp htail
        exact hdigit
      | cons e rest =>
        obtain ⟨rfl, -⟩ := List.cons_eq_cons.mp htail
        exact hpoint e rest rfl
  | fraction hne hds hes hdigits hrest =>
    exact .fraction hne hds hes hdigits (hhead hrest hdigit)
  | word hstart hcs hrest => exact .word hstart hcs (hhead hrest hpart)
  | mark hmem hlong hl hb =>
    refine .mark hmem (fun e he hpre => ?_) (fun hpre => ?_) (fun hpre => ?_) <;>
      rw [← List.append_assoc] at hpre
    · exact hlong e he (hblank (isBlank_of_mem_mark e he) hpre)
    · exact hl (hblank (by simp [isBlank]) hpre)
    · exact hb (hblank (by simp [isBlank]) hpre)
  | stray hb hq hd hw hmarks => exact .stray hb hq hd hw hmarks
  | openComment _ | openString _ => cases hclosed

theorem Splits.join {xs ys : List Char} {ps qs : List Piece} (hx : Splits xs ps)
    (hclosed : ∀ p ∈ ps, p.isClosed = true) (hy : Splits ys qs) :
    Splits (xs ++ '\n' :: ys) (ps ++ .blank '\n' :: qs) := by
  induction hx with
  | nil => exact .cons (.blank (by simp)) hy
  | cons hfit _ ih =>
    obtain ⟨hp, hps⟩ := List.forall_mem_cons.mp hclosed
    rw [List.append_assoc]
    exact .cons (hfit.gap hp (by decide) (fun _ _ => rfl) ys) (ih hps)

/-- Texts that are joined by a newline are cut one by one. -/
theorem Piece.cut_join {xs : List Char} (h : ∀ p ∈ cut xs, p.isClosed = true) (ys : List Char) :
    cut (xs ++ '\n' :: ys) = cut xs ++ blank '\n' :: cut ys :=
  ((splits_cut xs).join h (splits_cut ys)).eq_cut.symm

end Lox.Source
