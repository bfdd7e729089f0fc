import Lox.Proofs.Source.Lexeme

/-!
# Tokens are as long as they can be

* `Form`: the texts of tokens and their kinds, read off the tables of marks and keywords and the
  shapes of names, numbers and strings (`form_iff`: they are the lexemes, `Form.kind_unique`: a
  text has one kind);
* `Longest`: the longest such text with which another text begins (`exists_longest`);
* `Piece.fits_token_iff`: a token fits where it is the longest and no comment begins;
* `Between`, `placedWords`: the places between pieces, and those of the tokens;
* `scan_longest`: the tokens of a text are the longest ones at these places.
-/

namespace Lox.Source

open Token (Kind)
open Number (IsNumeral)

/-! ## The texts of tokens -/

/-- A letter or an underscore, and any letters, underscores and digits after it. -/
def IsWord : List Char → Prop
  | [] => False
  | c :: cs => isWordStart c = true ∧ ∀ d ∈ cs, isWordPart d = true

/-- The text of a token, with the kind that goes with it: a mark or a keyword of the tables, a word
that is no keyword, a numeral, or quotes around a text that has none. -/
inductive Form : Kind → List Char → Prop
  | mark {cs : List Char} {k : Kind} : (cs, k) ∈ Kind.punctuation → Form k cs
  | keyword {cs : List Char} {k : Kind} : (cs, k) ∈ Kind.keywords → Form k cs
  | name {cs : List Char} : IsWord cs → (∀ k, (cs, k) ∉ Kind.keywords) → Form .identifier cs
  | number {cs ds es : List Char} : IsNumeral cs ds es → Form .number cs
  | string {cs : List Char} : '"' ∉ cs → Form .string ('"' :: (cs ++ ['"']))

theorem ofWord_keyword : ∀ e ∈ Kind.keywords, Kind.ofWord e.1 = e.2 := by decide

theorem isWord_of_mem_keywords {cs : List Char} {k : Kind} (h : (cs, k) ∈ Kind.keywords) :
    IsWord cs := by
  have hwords : ∀ e ∈ Kind.keywords,
      (e.1.head?.any isWordStart && e.1.tail.all isWordPart) = true := by decide
  have hword := hwords _ h
  cases cs with
  | nil => cases hword
  | cons c cs => simpa [IsWord] using hword

theorem IsWord.lexeme {cs : List Char} (h : IsWord cs) : Lexeme (Kind.ofWord cs) cs := by
  cases cs with
  | nil => exact h.elim
  | cons c cs => exact .word h.1 h.2

theorem IsWord.form {cs : List Char} (h : IsWord cs) : Form (Kind.ofWord cs) cs := by
  rcases Piece.ofWord_eq cs with hmem | hname
  · exact .keyword hmem
  · rw [hname]
    refine .name h fun k hk => ?_
    obtain rfl : Kind.ofWord cs = k := ofWord_keyword _ hk
    have hkind := kind_of_fixed _ (List.mem_append_right _ hk)
    simp [hname] at hkind

theorem form_iff {k : Kind} {cs : List Char} : Form k cs ↔ Lexeme k cs := by
  constructor
  · intro h
    cases h with
    | mark hmem => exact .mark hmem
    | keyword hmem =>
      have hlexeme := (isWord_of_mem_keywords hmem).lexeme
      rwa [ofWord_keyword _ hmem] at hlexeme
    | name hword hnone =>
      have hof : Kind.ofWord cs = .identifier :=
        (Piece.ofWord_eq cs).resolve_left (hnone _)
      rw [← hof]
      exact hword.lexeme
    | number hnum => exact .number hnum
    | string hcs => exact .string hcs
  · intro h
    cases h with
    | string hcs => exact .string hcs
    | number hnum => exact .number hnum
    | word hc hcs => exact IsWord.form ⟨hc, hcs⟩
    | mark hmem => exact .mark hmem

namespace Form

variable {k : Kind} {cs : List Char} (h : Form k cs)
include h

theorem kind_unique {k' : Kind} (h' : Form k' cs) : k = k' := by
  have hpiece := (form_iff.mp h).fits.unique (form_iff.mp h').fits rfl
  exact (Piece.token.inj hpiece).1

theorem ne_nil : cs ≠ [] := Piece.text_ne_nil (form_iff.mp h).fits

theorem keyword_iff : (∃ w, (w, k) ∈ Kind.keywords) ↔ ∃ k', (cs, k') ∈ Kind.keywords := by
  constructor
  · rintro ⟨w, hw⟩
    have hfixed : (w, k) ∈ fixed := List.mem_append_right _ hw
    obtain rfl := (form_iff.mp h).eq_of_fixed hfixed
    exact ⟨k, hw⟩
  · rintro ⟨k', hk'⟩
    obtain rfl := h.kind_unique (.keyword hk')
    exact ⟨cs, hk'⟩

theorem identifier_iff : k = .identifier ↔ IsWord cs ∧ ∀ k', (cs, k') ∉ Kind.keywords := by
  constructor
  · rintro rfl
    have hname : ∀ w, (w, Kind.identifier) ∉ fixed := fun w hw => by
      simpa using kind_of_fixed _ hw
    cases h with
    | mark hmem => exact absurd (List.mem_append_left _ hmem) (hname cs)
    | keyword hmem => exact absurd (List.mem_append_right _ hmem) (hname cs)
    | name hword hnone => exact ⟨hword, hnone⟩
  · rintro ⟨hword, hnone⟩
    exact h.kind_unique (.name hword hnone)

end Form

/-! ## The longest -/

/-- The text `cs` begins with the token text `t`, and with none that is longer. -/
structure Longest (k : Kind) (t cs : List Char) : Prop where
  form : Form k t
  isPrefix : t <+: cs
  longest : ∀ k' u, Form k' u → u <+: cs → u.length ≤ t.length

/-- A text that begins with the text of a token begins with a longest one. -/
theorem exists_longest {k : Kind} {t cs : List Char} (h : Form k t) (hpre : t <+: cs) :
    ∃ k' u, Longest k' u cs := by
  -- a longer one is nearer to the end of the text
  induction hn : cs.length - t.length using Nat.strongRecOn generalizing k t with
  | ind n ih =>
    by_cases hmax : ∀ k' u, Form k' u → u <+: cs → u.length ≤ t.length
    · exact ⟨k, t, h, hpre, hmax⟩
    · simp only [not_forall, Nat.not_le] at hmax
      obtain ⟨k', u, hu, hucs, hlonger⟩ := hmax
      have hend := hucs.length_le
      exact ih _ (by omega) hu hucs rfl

/-- Two slashes, or a slash and a star, begin the text. -/
def OpensComment (cs : List Char) : Prop := ['/', '/'] <+: cs ∨ ['/', '*'] <+: cs

namespace Longest

variable {k : Kind} {t rest : List Char} (h : Longest k t (t ++ rest))
include h

theorem not_form_append {k' : Kind} {u : List Char} (hu : u <+: rest) (hne : u ≠ []) :
    ¬ Form k' (t ++ u) := by
  intro hform
  have hle := h.longest k' _ hform ((List.prefix_append_right_inj t).mpr hu)
  have hpos := List.length_pos_iff.mpr hne
  rw [List.length_append] at hle
  omega

theorem stops {f : Char → Bool} (hlonger : ∀ d, f d = true → ∃ k', Form k' (t ++ [d])) :
    ∀ d ∈ rest.head?, f d = false := by
  intro d hd
  rw [← Bool.not_eq_true]
  intro hf
  obtain ⟨k', hform⟩ := hlonger d hf
  obtain ⟨ds, rfl⟩ := List.head?_eq_some_iff.mp hd
  exact h.not_form_append ⟨ds, rfl⟩ (List.cons_ne_nil _ _) hform

theorem fits_number {ds es : List Char} (hnum : IsNumeral t ds es) :
    (Piece.token .number t).Fits rest := by
  have hconcat : ∀ {xs : List Char} {d : Char}, (∀ x ∈ xs, isDigit x = true) → isDigit d = true →
      ∀ x ∈ xs ++ [d], isDigit x = true := fun hxs hd =>
    List.forall_mem_append.mpr ⟨hxs, List.forall_mem_singleton.mpr hd⟩
  cases hnum with
  | whole hne hds =>
    refine .whole hne hds (h.stops fun d hd => ?_) fun d cs hrest => ?_
    · exact ⟨.number, .number (.whole (by simp) (hconcat hds hd))⟩
    · -- a point is read with the digit behind it
      rw [← Bool.not_eq_true]
      intro hd
      have hlonger : IsNumeral (t ++ ['.', d]) t [d] :=
        .fraction hne hds (List.cons_ne_nil _ _) (List.forall_mem_singleton.mpr hd)
      exact h.not_form_append ⟨cs, hrest.symm⟩ (List.cons_ne_nil _ _) (.number hlonger)
  | fraction hne hds hes hdigits =>
    refine .fraction hne hds hes hdigits (h.stops fun d hd => ⟨.number, ?_⟩)
    rw [List.append_assoc, List.cons_append]
    exact .number (.fraction hne hds (by simp) (hconcat hdigits hd))

theorem fits_word {c : Char} {cs : List Char} (ht : t = c :: cs) (hc : isWordStart c = true)
    (hcs : ∀ d ∈ cs, isWordPart d = true) : (Piece.token (Kind.ofWord t) t).Fits rest := by
  subst ht
  refine .word hc hcs (h.stops fun d hd => ⟨_, IsWord.form ⟨hc, ?_⟩⟩)
  exact List.forall_mem_append.mpr ⟨hcs, List.forall_mem_singleton.mpr hd⟩

theorem fits (hcomment : ¬ OpensComment (t ++ rest)) : (Piece.token k t).Fits rest := by
  cases form_iff.mp h.form with
  | string hcs => exact .string hcs
  | number hnum => exact h.fits_number hnum
  | word hc hcs => exact h.fits_word rfl hc hcs
  | mark hmem =>
    refine .mark hmem (fun e he hpre => ?_) (fun hl => ?_) (fun hb => ?_)
    · exact h.longest e.2 e.1 (.mark he) hpre
    · exact hcomment (.inl hl)
    · exact hcomment (.inr hb)

end Longest

namespace Piece

/-- No token fits where a comment begins. -/
theorem Fits.not_opensComment {k : Kind} {t rest : List Char} (h : (token k t).Fits rest) :
    ¬ OpensComment (t ++ rest) := by
  rintro (⟨cs, hcs⟩ | ⟨cs, hcs⟩)
  · have hfirst : first '/' ('/' :: cs) = (token k t, rest) := first_of_fits h hcs.symm
    rw [first_slash_slash] at hfirst
    cases hfirst
  · have hfirst : first '/' ('*' :: cs) = (token k t, rest) := first_of_fits h hcs.symm
    rw [first_slash_star] at hfirst
    split at hfirst <;> cases hfirst

/-- A token fits where it is the longest that the text begins with and no comment begins, and
nowhere else. -/
theorem fits_token_iff {k : Kind} {t rest : List Char} : (token k t).Fits rest ↔
    Longest k t (t ++ rest) ∧ ¬ OpensComment (t ++ rest) := by
  constructor
  · intro h
    have hcomment := h.not_opensComment
    obtain ⟨k', u, hlong⟩ :=
      exists_longest (form_iff.mpr h.lexeme) (List.prefix_append t rest)
    -- the longest fits as well, so that it is the token
    obtain ⟨tail, htail⟩ := hlong.isPrefix
    rw [← htail] at hlong hcomment
    have htoken := (hlong.fits hcomment).unique h htail
    obtain ⟨rfl, rfl⟩ := token.inj htoken
    rw [← htail]
    exact ⟨hlong, hcomment⟩
  · rintro ⟨hlong, hcomment⟩
    exact hlong.fits hcomment

/-! ## Places -/

/-- The number of characters before the piece that stands behind `n` others. -/
def start (ps : List Piece) (n : Nat) : Nat := (texts (ps.take n)).length

theorem start_succ {ps : List Piece} {p : Piece} {n : Nat} (h : ps[n]? = some p) :
    start ps (n + 1) = start ps n + p.text.length := by
  rw [start, List.take_add_one, h, texts_append]
  simp [start]

theorem start_mono (ps : List Piece) {n m : Nat} (h : n ≤ m) : start ps n ≤ start ps m := by
  have hsplit := List.take_append_drop n (ps.take m)
  rw [List.take_take, Nat.min_eq_left h] at hsplit
  rw [start, start, ← hsplit, texts_append, List.length_append]
  exact Nat.le_add_right _ _

theorem drop_start (ps : List Piece) (n : Nat) :
    (texts ps).drop (start ps n) = texts (ps.drop n) := by
  have hsplit : texts ps = texts (ps.take n) ++ texts (ps.drop n) := by
    rw [← texts_append, List.take_append_drop]
  rw [hsplit, start, List.drop_left]

end Piece

theorem Splits.fits_getElem? {cs : List Char} {ps : List Piece} (h : Splits cs ps) {p : Piece} :
    ∀ {n : Nat}, ps[n]? = some p → p.Fits (Piece.texts (ps.drop (n + 1))) := by
  induction h with
  | nil => simp
  | cons hfit hsplits ih =>
    intro n hn
    cases n with
    | zero =>
      obtain rfl := Option.some.inj hn
      rwa [List.drop_succ_cons, List.drop_zero, hsplits.texts]
    | succ n => exact ih hn

/-- Between two pieces of the text, before the first or behind the last. -/
def Between (source : String) (i : Nat) : Prop :=
  ∃ n ≤ (Piece.cut source.toList).length, i = Piece.start (Piece.cut source.toList) n

/-- The kinds and texts of the tokens, and the places at which they begin. -/
def placedWords (source : String) : List (Nat × Kind × List Char) :=
  (Piece.cut source.toList).zipIdx.filterMap fun (p, n) =>
    p.word?.map (Piece.start (Piece.cut source.toList) n, ·)

theorem word?_eq_some_iff {p : Piece} {k : Kind} {t : List Char} :
    p.word? = some (k, t) ↔ p = .token k t := by
  cases p <;> simp [Piece.word?]

variable {source : String}

theorem mem_placedWords {i : Nat} {k : Kind} {t : List Char} : (i, k, t) ∈ placedWords source ↔
    ∃ n, (Piece.cut source.toList)[n]? = some (.token k t) ∧
      i = Piece.start (Piece.cut source.toList) n := by
  simp only [placedWords, List.mem_filterMap, Prod.exists, List.mem_zipIdx_iff_getElem?,
    Option.map_eq_some_iff, Prod.mk.injEq]
  constructor
  · rintro ⟨p, n, hn, _, _, hword, rfl, rfl, rfl⟩
    exact ⟨n, by rw [hn, word?_eq_some_iff.mp hword], rfl⟩
  · rintro ⟨n, hn, rfl⟩
    exact ⟨_, n, hn, k, t, rfl, rfl, rfl, rfl⟩

theorem map_snd_placedWords (source : String) :
    (placedWords source).map (·.2) = (Piece.cut source.toList).filterMap Piece.word? := by
  have hfst := List.zipIdx_map_fst 0 (Piece.cut source.toList)
  conv_rhs => rw [← hfst, List.filterMap_map]
  rw [placedWords, List.map_filterMap]
  simp [Function.comp_def]

/-- The tokens stand in the order in which they begin, and none begins before the end of another. -/
theorem pairwise_placedWords (source : String) :
    (placedWords source).Pairwise fun v w => v.1 + v.2.2.length ≤ w.1 := by
  rw [placedWords, List.pairwise_filterMap, List.pairwise_iff_getElem]
  intro n m hn hm hlt v hv w hw
  rw [List.getElem_zipIdx, Nat.zero_add] at hv hw
  obtain ⟨⟨k, t⟩, hword, rfl⟩ := Option.map_eq_some_iff.mp hv
  obtain ⟨_, -, rfl⟩ := Option.map_eq_some_iff.mp hw
  have hpiece := List.getElem?_eq_getElem (List.length_zipIdx ▸ hn)
  rw [word?_eq_some_iff.mp hword] at hpiece
  have hend := Piece.start_succ hpiece
  have hnext := Piece.start_mono (Piece.cut source.toList) (Nat.succ_le_of_lt hlt)
  rw [Nat.succ_eq_add_one, hend] at hnext
  exact hnext

theorem drop_start_cut (n : Nat) :
    source.toList.drop (Piece.start (Piece.cut source.toList) n) =
      Piece.texts ((Piece.cut source.toList).drop n) := by
  rw [← Piece.drop_start, Piece.texts_cut]

/-- The token that stands at a place is the longest there, and where no comment begins the longest
is the token. -/
theorem mem_placedWords_iff_longest {i : Nat} {k : Kind} {t : List Char} :
    (i, k, t) ∈ placedWords source ↔ Between source i ∧
      Longest k t (source.toList.drop i) ∧ ¬ OpensComment (source.toList.drop i) := by
  rw [mem_placedWords]
  have hsplits := splits_cut source.toList
  constructor
  · rintro ⟨n, hn, rfl⟩
    have hfit := hsplits.fits_getElem? hn
    obtain ⟨hlt, hget⟩ := List.getElem?_eq_some_iff.mp hn
    rw [drop_start_cut, List.drop_eq_getElem_cons hlt, hget]
    exact ⟨⟨n, hlt.le, rfl⟩, Piece.fits_token_iff.mp hfit⟩
  · rintro ⟨⟨n, hle, rfl⟩, hlong, hcomment⟩
    obtain ⟨rest, hrest⟩ := hlong.isPrefix
    rw [← hrest] at hlong hcomment
    rw [drop_start_cut] at hrest
    rcases Nat.lt_or_eq_of_le hle with hlt | rfl
    · have hget := List.getElem?_eq_getElem hlt
      rw [List.drop_eq_getElem_cons hlt] at hrest
      have hpiece := (hlong.fits hcomment).unique (hsplits.fits_getElem? hget) hrest
      exact ⟨n, by rw [hget, hpiece], rfl⟩
    · rw [List.drop_length, Piece.texts_nil, List.append_eq_nil_iff] at hrest
      exact absurd hrest.1 hlong.form.ne_nil

/-- **Tokens are as long as they can be.** The tokens of a text but for its end stand one behind
the other, each between two pieces. At such a place stands a token if and only if it is the longest
with which the text from there on begins, and no comment begins there; and if any text of a token
begins there and no comment does, there is one. It is a keyword if and only if all of its text is
in the table of keywords, and any other word is an identifier. -/
theorem scan_longest (source : String) :
    (scan source).1.map Token.word = (placedWords source).map (·.2) ++ [(.eof, [])] ∧
    (placedWords source).Pairwise (fun v w => v.1 + v.2.2.length ≤ w.1) ∧
    (∀ i k t, (i, k, t) ∈ placedWords source ↔ Between source i ∧
      Longest k t (source.toList.drop i) ∧ ¬ OpensComment (source.toList.drop i)) ∧
    (∀ i, Between source i → ¬ OpensComment (source.toList.drop i) →
      (∃ k t, Form k t ∧ t <+: source.toList.drop i) → ∃ k t, (i, k, t) ∈ placedWords source) ∧
    ∀ i k t, (i, k, t) ∈ placedWords source →
      ((∃ w, (w, k) ∈ Kind.keywords) ↔ ∃ k', (t, k') ∈ Kind.keywords) ∧
      (k = .identifier ↔ IsWord t ∧ ∀ k', (t, k') ∉ Kind.keywords) := by
  refine ⟨?_, pairwise_placedWords source, fun i k t => mem_placedWords_iff_longest, ?_, ?_⟩
  · rw [fst_scan, List.map_append, pieceTokens, map_word_numbered, map_snd_placedWords]
    rfl
  · rintro i hi hcomment ⟨k, t, hform, hpre⟩
    obtain ⟨k', u, hlong⟩ := exists_longest hform hpre
    exact ⟨k', u, mem_placedWords_iff_longest.mpr ⟨hi, hlong, hcomment⟩⟩
  · intro i k t h
    have hform := (mem_placedWords_iff_longest.mp h).2.1.form
    exact ⟨hform.keyword_iff, hform.identifier_iff⟩

/-- A point is read with a digit behind it only, and a keyword only as a whole word. -/
example : placedWords "12.orx!===" = [(0, .number, "12".toList), (2, .dot, ".".toList),
    (3, .identifier, "orx".toList), (6, .bangEqual, "!=".toList),
    (8, .equalEqual, "==".toList)] := by decide +kernel

end Lox.Source
