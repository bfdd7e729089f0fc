import Lox.Proofs.Source.Lexeme
import Lox.Proofs.Grammar.Rules

/-!
# Writing trees out as program text

* `Value.word`, `Expr.words`, `Stmt.words`: the words of a tree in the order of the grammar, with
  parentheses only where the tree has a grouping;
* `Stmt.source`: statements as a text, one space between each word and the next;
* `Token.written`: what is written for a token (`Scanned.lexeme_written`: it is read as the same
  token again unless it is a number beyond all doubles);
* `Expression.words_eq`, `Declarations.words_eq`: a tree is written as its tokens are, one by one.
-/

namespace Lox

open Token (Kind)

/-! ## Words of a tree -/

/-- A literal as it is written in a program. -/
def Value.word : Value → String
  | string s => "\"" ++ s ++ "\""
  | v => v.text

/-- The words of an expression. -/
def Expr.words : Expr → List String
  | literal v => [v.word]
  | grouping e => "(" :: (e.words ++ [")"])
  | unary op _ e => op.symbol :: e.words
  | binary op _ l r => l.words ++ op.symbol :: r.words
  | logical op _ l r => l.words ++ op.symbol :: r.words
  | var n => [n.text]
  | assign n e => n.text :: "=" :: e.words

namespace Stmt

mutual

/-- The words of a statement. -/
def words : Stmt → List String
  | expression e => e.words ++ [";"]
  | print e => "print" :: (e.words ++ [";"])
  | declare n none => ["var", n.text, ";"]
  | declare n (some e) => "var" :: n.text :: "=" :: (e.words ++ [";"])
  | block ss => "\x7b" :: (wordsAll ss ++ ["\x7d"])
  | ifThen c s => "if" :: "(" :: (c.words ++ ")" :: s.words)
  | ifElse c s t => "if" :: "(" :: (c.words ++ ")" :: (s.words ++ "else" :: t.words))
  | loop c s => "while" :: "(" :: (c.words ++ ")" :: s.words)

/-- The words of several statements in order. -/
def wordsAll : List Stmt → List String
  | [] => []
  | s :: ss => s.words ++ wordsAll ss

end

/-- Statements as the text of a program. -/
def source (ss : List Stmt) : String := Source.spaced (wordsAll ss)

end Stmt

/-! ## Words of a token -/

namespace Token

open Source (Lexeme fixed)

/-- What is written for a token: its value if it has one. -/
def written (t : Token) : String := t.literal.elim t.lexeme Value.word

namespace Scanned

variable {t : Token} (h : t.Scanned)
include h

theorem carries : Source.Piece.Carries t.lexeme.toList t.literal t.kind := by
  rw [h.literal]
  exact h.lexeme.fits.carries

theorem written_eq {k : Kind} (s : String) (hk : t.kind = k)
    (hfixed : (s.toList, k) ∈ fixed) : t.written = s := by
  subst hk
  have hlexeme : t.lexeme.toList = s.toList := h.lexeme.eq_of_fixed hfixed
  rw [written, h.literal, Source.literal_of_fixed hfixed]
  exact String.toList_injective hlexeme

/-- Only a number may be written otherwise than it was. -/
theorem written_of_ne_number (hk : t.kind ≠ .number) : t.written = t.lexeme := by
  have hcarries := h.carries
  rw [written]
  cases hkind : t.kind <;> rw [hkind] at hcarries
  case number => exact absurd hkind hk
  case string =>
    obtain ⟨cs, hcs, hvalue⟩ := hcarries
    rw [hvalue]
    refine String.toList_injective ?_
    simp [Value.word, hcs, String.toList_append]
  all_goals rw [hcarries]; rfl

/-- What is written for a token is read as the same token, unless it is a number beyond all
doubles. -/
theorem lexeme_written (hfinite : t.literal ≠ some (.number Number.infinity)) :
    Lexeme t.kind t.written.toList ∧
      Source.Piece.literal t.kind t.written.toList = t.literal := by
  by_cases hk : t.kind = .number
  · obtain ⟨ds, es, hnum⟩ := h.lexeme.exists_isNumeral hk
    have hliteral : t.literal = some (.number (Number.ofNumeral ds es)) := by
      rw [h.literal, hk, Source.Piece.literal, Source.numeralValue_eq hnum]
    rw [hliteral] at hfinite
    have hdouble : ∃ m n, Number.Double.ofFloat (Number.ofNumeral ds es) = .finite false m n :=
      Number.exists_ofFloat_nearest fun heq => hfinite (by rw [Number.ofNumeral, heq])
    obtain ⟨m, n, hdouble⟩ := hdouble
    obtain ⟨ds', es', hnum', hvalue⟩ := Number.numeral_reads_back hdouble
    have hwritten : t.written = Number.numeral (Number.ofNumeral ds es) := by
      rw [written, hliteral]
      rfl
    rw [hwritten, hk, hliteral, Source.Piece.literal]
    exact ⟨.number hnum', by rw [Source.numeralValue_eq hnum', hvalue]⟩
  · rw [h.written_of_ne_number hk]
    exact ⟨h.lexeme, h.literal.symm⟩

end Scanned

end Token

namespace Grammar

/-! ## Trees are written as their tokens are -/

theorem Atom.words_eq {t : Token} {e : Expr} (h : Atom t e) (ht : t.Scanned) :
    e.words = [t.written] := by
  cases h with
  | ofFalse hk => rw [ht.written_eq "false" hk (by decide)]; rfl
  | ofTrue hk => rw [ht.written_eq "true" hk (by decide)]; rfl
  | ofNil hk => rw [ht.written_eq "nil" hk (by decide)]; rfl
  | number hk | string hk =>
    have hsome := ht.carries.isSome_iff.mpr (by simp [hk])
    obtain ⟨v, hv⟩ := Option.isSome_iff_exists.mp hsome
    rw [Token.written, hv]
    rfl
  | name hk => rw [ht.written_of_ne_number (by simp [hk])]; rfl

theorem fixed_unary (op : UnaryOp) : (op.symbol.toList, op.kind) ∈ Source.fixed := by
  cases op <;> decide

theorem fixed_binary (op : BinaryOp) : (op.symbol.toList, op.kind) ∈ Source.fixed := by
  cases op <;> decide

theorem fixed_logical (op : LogicalOp) : (op.symbol.toList, op.kind) ∈ Source.fixed := by
  cases op <;> decide

theorem Expression.words_eq {g : Rung} {ts : List Token} {e : Expr} (h : Expression g ts e) :
    (∀ t ∈ ts, t.Scanned) → e.words = ts.map Token.written := by
  induction h with
  | atom ha => exact fun hts => ha.words_eq (hts _ (by simp))
  | grouping hl _ hr ih =>
    intro hts
    simp only [List.forall_mem_cons, List.forall_mem_append] at hts
    obtain ⟨hleft, hts, hright, -⟩ := hts
    have hl := hleft.written_eq "(" hl (by decide)
    have hr := hright.written_eq ")" hr (by decide)
    simp [Expr.words, ih hts, hl, hr]
  | unary hk _ ih =>
    intro hts
    obtain ⟨hop, hts⟩ := List.forall_mem_cons.mp hts
    simp [Expr.words, ih hts, hop.written_eq _ hk (fixed_unary _)]
  | binary _ hk _ ihl ihr =>
    intro hts
    simp only [List.forall_mem_cons, List.forall_mem_append] at hts
    obtain ⟨hus, hop, hvs⟩ := hts
    simp [Expr.words, ihl hus, ihr hvs, hop.written_eq _ hk (fixed_binary _)]
  | logical _ hk _ ihl ihr =>
    intro hts
    simp only [List.forall_mem_cons, List.forall_mem_append] at hts
    obtain ⟨hus, hop, hvs⟩ := hts
    simp [Expr.words, ihl hus, ihr hvs, hop.written_eq _ hk (fixed_logical _)]
  | assign hn hq _ ih =>
    intro hts
    simp only [List.forall_mem_cons] at hts
    obtain ⟨hname, hequal, hts⟩ := hts
    have hq := hequal.written_eq "=" hq (by decide)
    simp [Expr.words, ih hts, hname.written_of_ne_number (by simp [hn]), hq]
  | above _ ih => exact ih

mutual

theorem Statement.words_eq : ∀ {ts : List Token} {s : Stmt}, Statement ts s →
    (∀ t ∈ ts, t.Scanned) → s.words = ts.map Token.written
  | _, _, .expression he ht, hts => by
    simp only [List.forall_mem_append, List.forall_mem_singleton] at hts
    obtain ⟨hts, hend⟩ := hts
    have ht := hend.written_eq ";" ht (by decide)
    simp [Stmt.words, he.words_eq hts, ht]
  | _, _, .print hp he ht, hts => by
    simp only [List.forall_mem_cons, List.forall_mem_append] at hts
    obtain ⟨hprint, hts, hend, -⟩ := hts
    have hp := hprint.written_eq "print" hp (by decide)
    have ht := hend.written_eq ";" ht (by decide)
    simp [Stmt.words, he.words_eq hts, hp, ht]
  | _, _, .block hl hds hr, hts => by
    simp only [List.forall_mem_cons, List.forall_mem_append] at hts
    obtain ⟨hleft, hts, hright, -⟩ := hts
    have hl := hleft.written_eq "\x7b" hl (by decide)
    have hr := hright.written_eq "\x7d" hr (by decide)
    simp [Stmt.words, Declarations.words_eq hds hts, hl, hr]
  | _, _, .ifThen hi hl hc hr hs, hts => by
    simp only [List.forall_mem_cons, List.forall_mem_append] at hts
    obtain ⟨hif, hleft, hus, hright, hvs⟩ := hts
    have hi := hif.written_eq "if" hi (by decide)
    have hl := hleft.written_eq "(" hl (by decide)
    have hr := hright.written_eq ")" hr (by decide)
    simp [Stmt.words, hc.words_eq hus, Statement.words_eq hs hvs, hi, hl, hr]
  | _, _, .ifElse hi hl hc hr hs hf ht, hts => by
    simp only [List.forall_mem_cons, List.forall_mem_append] at hts
    obtain ⟨hif, hleft, hus, hright, hvs, helse, hws⟩ := hts
    have hi := hif.written_eq "if" hi (by decide)
    have hl := hleft.written_eq "(" hl (by decide)
    have hr := hright.written_eq ")" hr (by decide)
    have hf := helse.written_eq "else" hf (by decide)
    simp [Stmt.words, hc.words_eq hus, Statement.words_eq hs hvs, Statement.words_eq ht hws, hi,
      hl, hr, hf]
  | _, _, .loop hw hl hc hr hs, hts => by
    simp only [List.forall_mem_cons, List.forall_mem_append] at hts
    obtain ⟨hwhile, hleft, hus, hright, hvs⟩ := hts
    have hw := hwhile.written_eq "while" hw (by decide)
    have hl := hleft.written_eq "(" hl (by decide)
    have hr := hright.written_eq ")" hr (by decide)
    simp [Stmt.words, hc.words_eq hus, Statement.words_eq hs hvs, hw, hl, hr]

theorem Declaration.words_eq : ∀ {ts : List Token} {s : Stmt}, Declaration ts s →
    (∀ t ∈ ts, t.Scanned) → s.words = ts.map Token.written
  | _, _, .plain hv hn ht, hts => by
    simp only [List.forall_mem_cons] at hts
    obtain ⟨hvar, hname, hend, -⟩ := hts
    have hv := hvar.written_eq "var" hv (by decide)
    have ht := hend.written_eq ";" ht (by decide)
    simp [Stmt.words, hname.written_of_ne_number (by simp [hn]), hv, ht]
  | _, _, .initialized hv hn hq he ht, hts => by
    simp only [List.forall_mem_cons, List.forall_mem_append] at hts
    obtain ⟨hvar, hname, hequal, hts, hend, -⟩ := hts
    have hv := hvar.written_eq "var" hv (by decide)
    have hq := hequal.written_eq "=" hq (by decide)
    have ht := hend.written_eq ";" ht (by decide)
    simp [Stmt.words, he.words_eq hts, hname.written_of_ne_number (by simp [hn]), hv, hq, ht]
  | _, _, .statement hs, hts => Statement.words_eq hs hts

/-- A program is written as its tokens are, one by one. -/
theorem Declarations.words_eq : ∀ {ts : List Token} {ss : List Stmt}, Declarations ts ss →
    (∀ t ∈ ts, t.Scanned) → Stmt.wordsAll ss = ts.map Token.written
  | _, _, .nil, _ => rfl
  | _, _, .cons hd hds, hts => by
    obtain ⟨hus, hvs⟩ := List.forall_mem_append.mp hts
    rw [Stmt.wordsAll, Declaration.words_eq hd hus, Declarations.words_eq hds hvs,
      List.map_append]

end

end Grammar

end Lox
