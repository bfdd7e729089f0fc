import Lox.Proofs.Lines.Trees
import Lox.Proofs.Parse.Drawn
import Lox.Proofs.Source.Longest
import Lox.Proofs.Write.Bracketed

/-!
# The text of a tree tells the tree

* `Bracketed.expr`, `Bracketed.stmt`: the tree that words and forms stand for;
* `Expr.Plain`, `Stmt.Plain`: names are identifiers, and literals are `nil`, booleans and numbers
  without a sign; any others may look like something else;
* `Expr.Plain.expr_bracketed`, `Stmt.Plain.stmt_bracketed`: plain trees are read back;
* `Expr.Drawn.plain`, `Stmt.Drawn.plain`: trees read from a text without strings are plain;
* the main result: `text_identifies`.
-/

namespace Lox

open Token (Kind)
open Number (IsNumeral)
open Bracketed (Solid isSolid)

/-! ## What is read back -/

/-- The operator with the symbol. -/
def UnaryOp.ofSymbol? (s : String) : Option UnaryOp := [not, negate].find? (·.symbol == s)

/-- The operator with the symbol. -/
def BinaryOp.ofSymbol? (s : String) : Option BinaryOp :=
  [add, subtract, multiply, divide, greater, greaterEqual, less, lessEqual, equal, notEqual].find?
    (·.symbol == s)

/-- The operator with the symbol. -/
def LogicalOp.ofSymbol? (s : String) : Option LogicalOp := [and, or].find? (·.symbol == s)

namespace Bracketed

/-- The expression that is a word: `nil`, a boolean, a number or a name. -/
def atom (w : String) : Expr :=
  if w = "nil" then .literal .nil
  else if w = "true" then .literal (.bool true)
  else if w = "false" then .literal (.bool false)
  else if w.toList.head?.any Source.isDigit then .literal (.number (Source.numeralValue w.toList))
  else .var ⟨w, 0⟩

/-- The expression that the head and one part make up. -/
def unary (head : String) (e : Expr) : Expr :=
  if head = "group" then .grouping e
  else match UnaryOp.ofSymbol? head with
    | some op => .unary op 0 e
    | none => default

/-- The expression that the head and two parts make up. -/
def binary (head : String) (l r : Expr) : Expr :=
  match BinaryOp.ofSymbol? head, LogicalOp.ofSymbol? head, l with
  | some op, _, _ => .binary op 0 l r
  | none, some op, _ => .logical op 0 l r
  | none, none, .var n => .assign n r
  | none, none, _ => default

/-- The expression that words and forms stand for, without lines, and any for what stands for
none. -/
def expr : Bracketed → Expr
  | word w => atom w
  | form head [x] => unary head x.expr
  | form head [x, y] => binary head x.expr y.expr
  | form _ _ => default

mutual

/-- The statement that a form stands for, without lines, and any for what stands for none. -/
def stmt : Bracketed → Stmt
  | form ";" [x] => .expression x.expr
  | form "print" [x] => .print x.expr
  | form "var" [word w] => .declare ⟨w, 0⟩ none
  | form "var" [word w, x] => .declare ⟨w, 0⟩ (some x.expr)
  | form "block" xs => .block (stmts xs)
  | form "if" [x, y] => .ifThen x.expr y.stmt
  | form "if" [x, y, z] => .ifElse x.expr y.stmt z.stmt
  | form "while" [x, y] => .loop x.expr y.stmt
  | _ => default

/-- The same for the parts of a block. -/
def stmts : List Bracketed → List Stmt
  | [] => []
  | x :: xs => x.stmt :: stmts xs

end

end Bracketed

/-! ## Plain trees -/

/-- The value is `nil`, a boolean, or a finite number without a sign. -/
inductive Value.Plain : Value → Prop
  | nil : Plain nil
  | bool (b : Bool) : Plain (bool b)
  | number {x : Float} {m t : Nat} : Number.Double.ofFloat x = .finite false m t →
      Plain (number x)

/-- The name is spelt as an identifier that is no keyword. -/
def Name.Plain (n : Name) : Prop := Source.Form .identifier n.text.toList

/-- All names and literals of the expression are plain. -/
def Expr.Plain : Expr → Prop
  | literal v => v.Plain
  | var n => n.Plain
  | grouping e | unary _ _ e => e.Plain
  | binary _ _ l r | logical _ _ l r => l.Plain ∧ r.Plain
  | assign n e => n.Plain ∧ e.Plain

namespace Stmt

mutual

/-- All names and literals of the statement are plain. -/
def Plain : Stmt → Prop
  | expression e | print e => e.Plain
  | declare n none => n.Plain
  | declare n (some e) => n.Plain ∧ e.Plain
  | block ss => PlainAll ss
  | ifThen c s | loop c s => c.Plain ∧ s.Plain
  | ifElse c s t => c.Plain ∧ s.Plain ∧ t.Plain

/-- The same for the statements of a list. -/
def PlainAll : List Stmt → Prop
  | [] => True
  | s :: ss => s.Plain ∧ PlainAll ss

end

end Stmt

/-! ## Words are read back -/

namespace Bracketed

variable {c : Char} {w : String}

theorem isSolid_of_isWordPart (h : Source.isWordPart c = true) : isSolid c = true := by
  have hne : ∀ d ∈ [' ', '(', ')'], c ≠ d := by
    rintro d hd rfl
    simp only [List.mem_cons, List.not_mem_nil, or_false] at hd
    rcases hd with rfl | rfl | rfl <;> revert h <;> decide
  simpa [isSolid, and_assoc] using hne

theorem isSolid_of_isDigit (h : Source.isDigit c = true) : isSolid c = true :=
  isSolid_of_isWordPart (by simp [Source.isWordPart, h])

theorem proper_of_isWord (h : Source.IsWord w.toList) : (word w).Proper := by
  refine ⟨fun hw => ?_, fun c hc => isSolid_of_isWordPart ?_⟩
  · subst hw
    exact h
  · cases hcs : w.toList with
    | nil => simp [hcs] at hc
    | cons d cs =>
      rw [hcs] at h hc
      rcases List.mem_cons.mp hc with rfl | hc
      · simp [Source.isWordPart, h.1]
      · exact h.2 c hc

theorem proper_of_keyword {k : Kind} (h : (w.toList, k) ∈ Kind.keywords) : (word w).Proper :=
  proper_of_isWord (Source.isWord_of_mem_keywords h)

theorem head_of_isNumeral {cs ds es : List Char} (h : IsNumeral cs ds es) :
    cs.head?.any Source.isDigit = true := by
  have hhead : ∀ {ds : List Char} (rest : List Char), ds ≠ [] →
      (∀ d ∈ ds, Source.isDigit d = true) → (ds ++ rest).head?.any Source.isDigit = true := by
    rintro (- | ⟨d, ds⟩) rest hne hds
    · exact absurd rfl hne
    · exact hds d List.mem_cons_self
  cases h with
  | whole hne hds => simpa using hhead [] hne hds
  | fraction hne hds => exact hhead _ hne hds

theorem proper_of_isNumeral {ds es : List Char} (h : IsNumeral w.toList ds es) :
    (word w).Proper := by
  refine ⟨fun hw => ?_, ?_⟩
  · have hhead := head_of_isNumeral h
    simp [hw] at hhead
  · unfold Solid
    generalize w.toList = cs at h
    cases h with
    | whole _ hds => exact fun c hc => isSolid_of_isDigit (hds c hc)
    | fraction _ hds _ hes =>
      refine List.forall_mem_append.mpr ⟨fun c hc => isSolid_of_isDigit (hds c hc), ?_⟩
      exact List.forall_mem_cons.mpr ⟨by decide, fun c hc => isSolid_of_isDigit (hes c hc)⟩

theorem atom_of_ne (h : ∀ v ∈ ["nil", "true", "false"], w ≠ v) : atom w =
    if w.toList.head?.any Source.isDigit then .literal (.number (Source.numeralValue w.toList))
    else .var ⟨w, 0⟩ := by
  rw [atom, if_neg (h _ (by simp)), if_neg (h _ (by simp)), if_neg (h _ (by simp))]

theorem atom_of_digit (h : w.toList.head?.any Source.isDigit = true) :
    atom w = .literal (.number (Source.numeralValue w.toList)) := by
  have hne : ∀ v ∈ ["nil", "true", "false"], w ≠ v := by
    rintro v hv rfl
    simp only [List.mem_cons, List.not_mem_nil, or_false] at hv
    rcases hv with rfl | rfl | rfl <;> revert h <;> decide
  rw [atom_of_ne hne, if_pos h]

theorem atom_of_identifier (h : Source.Form .identifier w.toList) : atom w = .var ⟨w, 0⟩ := by
  obtain ⟨hword, hnone⟩ := h.identifier_iff.mp rfl
  have hkeyword : ∀ v ∈ ["nil", "true", "false"], w ≠ v := by
    rintro v hv rfl
    simp only [List.mem_cons, List.not_mem_nil, or_false] at hv
    rcases hv with rfl | rfl | rfl
    · exact hnone .nilKw (by decide)
    · exact hnone .trueKw (by decide)
    · exact hnone .falseKw (by decide)
  have hdigit : ¬ w.toList.head?.any Source.isDigit = true := by
    cases hcs : w.toList with
    | nil => simp
    | cons c cs =>
      rw [hcs] at hword
      intro hc
      have hstart := Source.isWordStart_of_isDigit (c := c) hc
      simp [hword.1] at hstart
  rw [atom_of_ne hkeyword, if_neg hdigit]

end Bracketed

namespace Value.Plain

variable {v : Value} (h : v.Plain)
include h

theorem proper : (Bracketed.word v.text).Proper := by
  cases h with
  | nil => exact Bracketed.proper_of_keyword (k := .nilKw) (by decide)
  | bool b =>
    cases b with
    | false => exact Bracketed.proper_of_keyword (k := .falseKw) (by decide)
    | true => exact Bracketed.proper_of_keyword (k := .trueKw) (by decide)
  | number hx =>
    obtain ⟨ds, es, hnum, -⟩ := Number.numeral_reads_back hx
    exact Bracketed.proper_of_isNumeral hnum

theorem atom_text : Bracketed.atom v.text = .literal v := by
  cases h with
  | nil => simp [Bracketed.atom, Value.text]
  | bool b => cases b <;> simp [Bracketed.atom, Value.text]
  | number hx =>
    obtain ⟨ds, es, hnum, hvalue⟩ := Number.numeral_reads_back hx
    rw [Value.text, Bracketed.atom_of_digit (Bracketed.head_of_isNumeral hnum),
      Source.numeralValue_eq hnum, hvalue]

end Value.Plain

namespace Name.Plain

variable {n : Name} (h : n.Plain)
include h

theorem proper : (Bracketed.word n.text).Proper :=
  Bracketed.proper_of_isWord (h.identifier_iff.mp rfl).1

theorem atom_text : Bracketed.atom n.text = .var (n.mapLine fun _ => 0) :=
  Bracketed.atom_of_identifier h

end Name.Plain

/-! ## Trees are read back -/

theorem UnaryOp.solid_symbol (op : UnaryOp) : Solid op.symbol :=
  List.all_eq_true.mp (by cases op <;> rfl)

theorem BinaryOp.solid_symbol (op : BinaryOp) : Solid op.symbol :=
  List.all_eq_true.mp (by cases op <;> rfl)

theorem LogicalOp.solid_symbol (op : LogicalOp) : Solid op.symbol :=
  List.all_eq_true.mp (by cases op <;> rfl)

theorem Bracketed.unary_symbol (op : UnaryOp) (e : Expr) :
    unary op.symbol e = .unary op 0 e := by
  cases op <;> rfl

theorem Bracketed.binary_symbol (op : BinaryOp) (l r : Expr) :
    binary op.symbol l r = .binary op 0 l r := by
  cases op <;> rfl

theorem Bracketed.binary_symbol_logical (op : LogicalOp) (l r : Expr) :
    binary op.symbol l r = .logical op 0 l r := by
  cases op <;> rfl

namespace Expr.Plain

variable {e : Expr}

theorem proper (h : e.Plain) : e.bracketed.Proper := by
  induction e with
  | literal v => exact Value.Plain.proper h
  | var n => exact Name.Plain.proper h
  | grouping e ih => exact ⟨List.all_eq_true.mp rfl, ih h, trivial⟩
  | unary op line e ih => exact ⟨op.solid_symbol, ih h, trivial⟩
  | binary op line l r ihl ihr => exact ⟨op.solid_symbol, ihl h.1, ihr h.2, trivial⟩
  | logical op line l r ihl ihr => exact ⟨op.solid_symbol, ihl h.1, ihr h.2, trivial⟩
  | assign n e ih => exact ⟨List.all_eq_true.mp rfl, Name.Plain.proper h.1, ih h.2, trivial⟩

/-- The tree is read back, without its lines. -/
theorem expr_bracketed (h : e.Plain) : e.bracketed.expr = e.mapLines fun _ => 0 := by
  induction e with
  | literal v => exact Value.Plain.atom_text h
  | var n => exact Name.Plain.atom_text h
  | grouping e ih => rw [bracketed, Bracketed.expr, ih h]; rfl
  | unary op line e ih => rw [bracketed, Bracketed.expr, ih h, Bracketed.unary_symbol]; rfl
  | binary op line l r ihl ihr =>
    rw [bracketed, Bracketed.expr, ihl h.1, ihr h.2, Bracketed.binary_symbol]
    rfl
  | logical op line l r ihl ihr =>
    rw [bracketed, Bracketed.expr, ihl h.1, ihr h.2, Bracketed.binary_symbol_logical]
    rfl
  | assign n e ih =>
    rw [bracketed, Bracketed.expr, Bracketed.expr, Name.Plain.atom_text h.1, ih h.2]
    rfl

end Expr.Plain

namespace Stmt

mutual

theorem Plain.proper : ∀ {s : Stmt}, s.Plain → s.bracketed.Proper
  | expression _, h | print _, h => ⟨List.all_eq_true.mp rfl, Expr.Plain.proper h, trivial⟩
  | declare _ none, h => ⟨List.all_eq_true.mp rfl, Name.Plain.proper h, trivial⟩
  | declare _ (some _), h => ⟨List.all_eq_true.mp rfl, h.1.proper, h.2.proper, trivial⟩
  | block _, h => ⟨List.all_eq_true.mp rfl, PlainAll.proper h⟩
  | ifThen _ _, h | loop _ _, h =>
    ⟨List.all_eq_true.mp rfl, h.1.proper, Plain.proper h.2, trivial⟩
  | ifElse _ _ _, h =>
    ⟨List.all_eq_true.mp rfl, h.1.proper, Plain.proper h.2.1, Plain.proper h.2.2, trivial⟩

theorem PlainAll.proper : ∀ {ss : List Stmt}, PlainAll ss → Bracketed.ProperAll (bracketedAll ss)
  | [], _ => trivial
  | _ :: _, h => ⟨Plain.proper h.1, PlainAll.proper h.2⟩

end

mutual

theorem Plain.stmt_bracketed : ∀ {s : Stmt}, s.Plain →
    s.bracketed.stmt = s.mapLines fun _ => 0
  | expression _, h | print _, h => by
    rw [bracketed, Bracketed.stmt, Expr.Plain.expr_bracketed h, mapLines]
  | declare _ none, _ => rfl
  | declare _ (some _), h => by
    rw [bracketed, Bracketed.stmt, h.2.expr_bracketed]
    rfl
  | block _, h => by rw [bracketed, Bracketed.stmt, PlainAll.stmts_bracketedAll h, mapLines]
  | ifThen _ _, h | loop _ _, h => by
    rw [bracketed, Bracketed.stmt, h.1.expr_bracketed, Plain.stmt_bracketed h.2, mapLines]
  | ifElse _ _ _, h => by
    rw [bracketed, Bracketed.stmt, h.1.expr_bracketed, Plain.stmt_bracketed h.2.1,
      Plain.stmt_bracketed h.2.2, mapLines]

theorem PlainAll.stmts_bracketedAll : ∀ {ss : List Stmt}, PlainAll ss →
    Bracketed.stmts (bracketedAll ss) = mapLinesAll (fun _ => 0) ss
  | [], _ => rfl
  | _ :: _, h => by
    rw [bracketedAll, Bracketed.stmts, Plain.stmt_bracketed h.1, PlainAll.stmts_bracketedAll h.2,
      mapLinesAll]

end

end Stmt

/-! ## Trees read from a text -/

/-- The token is as a text gives it, and neither a string nor a number beyond all doubles. -/
structure Token.Plain (t : Token) : Prop where
  scanned : t.Scanned
  not_string : t.kind ≠ .string
  finite : t.literal ≠ some (.number Number.infinity)

section

variable {ts : List Token}

theorem Token.Plain.atom {t : Token} {e : Expr} (h : t.Plain) (ha : Grammar.Atom t e) :
    e.Plain := by
  cases ha with
  | ofFalse => exact .bool false
  | ofTrue => exact .bool true
  | ofNil => exact .nil
  | string hk => exact absurd hk h.not_string
  | number hk =>
    obtain ⟨ds, es, hliteral⟩ := h.scanned.exists_literal hk
    have hfinite : Number.ofNumeral ds es ≠ Number.infinity := fun heq =>
      h.finite (by rw [hliteral, heq])
    obtain ⟨m, n, hdouble⟩ := Number.exists_ofFloat_nearest hfinite
    rw [hliteral]
    exact .number hdouble
  | name hk =>
    have hform := Source.form_iff.mpr h.scanned.lexeme
    rwa [hk] at hform

theorem Name.Drawn.plain (hts : ∀ t ∈ ts, t.Plain) {n : Name} (h : n.Drawn ts) : n.Plain := by
  obtain ⟨t, ht, hk, rfl⟩ := h
  exact (hts t ht).atom (.name hk)

theorem Expr.Drawn.plain (hts : ∀ t ∈ ts, t.Plain) {e : Expr} (h : e.Drawn ts) : e.Plain := by
  induction e with
  | literal v =>
    obtain ⟨t, ht, ha⟩ := h
    exact (hts t ht).atom ha
  | var n => exact Name.Drawn.plain hts h
  | grouping e ih => exact ih h
  | unary op line e ih => exact ih h.2
  | binary op line l r ihl ihr | logical op line l r ihl ihr => exact ⟨ihl h.2.1, ihr h.2.2⟩
  | assign n e ih => exact ⟨h.1.plain hts, ih h.2⟩

namespace Stmt

mutual

theorem Drawn.plain (hts : ∀ t ∈ ts, t.Plain) : ∀ {s : Stmt}, s.Drawn ts → s.Plain
  | expression _, h | print _, h => Expr.Drawn.plain hts h
  | declare _ none, h => Name.Drawn.plain hts h
  | declare _ (some _), h => ⟨h.1.plain hts, h.2.plain hts⟩
  | block _, h => DrawnAll.plain hts h
  | ifThen _ _, h | loop _ _, h => ⟨h.1.plain hts, Drawn.plain hts h.2⟩
  | ifElse _ _ _, h => ⟨h.1.plain hts, Drawn.plain hts h.2.1, Drawn.plain hts h.2.2⟩

theorem DrawnAll.plain (hts : ∀ t ∈ ts, t.Plain) : ∀ {ss : List Stmt}, DrawnAll ts ss → PlainAll ss
  | [], _ => trivial
  | _ :: _, h => ⟨Drawn.plain hts h.1, DrawnAll.plain hts h.2⟩

end

end Stmt

end

/-! ## Texts tell trees apart -/

theorem Expr.Plain.write_inj {e f : Expr} (he : e.Plain) (hf : f.Plain)
    (h : e.write [] = f.write []) : (e.mapLines fun _ => 0) = f.mapLines fun _ => 0 := by
  have hend := Bracketed.stops_nil
  rw [← e.write_bracketed, ← f.write_bracketed] at h
  obtain ⟨heq, -⟩ := Bracketed.write_inj he.proper hf.proper hend hend h
  rw [← he.expr_bracketed, heq, hf.expr_bracketed]

theorem Stmt.Plain.write_inj {s t : Stmt} (hs : s.Plain) (ht : t.Plain)
    (h : s.write [] = t.write []) : (s.mapLines fun _ => 0) = t.mapLines fun _ => 0 := by
  have hend := Bracketed.stops_nil
  rw [← s.write_bracketed, ← t.write_bracketed] at h
  obtain ⟨heq, -⟩ := Bracketed.write_inj hs.proper ht.proper hend hend h
  rw [← hs.stmt_bracketed, heq, ht.stmt_bracketed]

/-- **The text of a tree tells the tree.** Plain trees that are written alike are the same but for
their lines. Every tree read from a text is plain, whatever faults the text has, if the text has
no strings and no numbers beyond all doubles. -/
theorem text_identifies :
    (∀ s t : Stmt, s.Plain → t.Plain → s.text = t.text →
      (s.mapLines fun _ => 0) = t.mapLines fun _ => 0) ∧
    (∀ e f : Expr, e.Plain → f.Plain → e.text = f.text →
      (e.mapLines fun _ => 0) = f.mapLines fun _ => 0) ∧
    ∀ source : String,
      (∀ t ∈ (Source.scan source).1,
        t.kind ≠ .string ∧ t.literal ≠ some (.number Number.infinity)) →
      (∀ s, some s ∈ (Parse.parse (Source.scan source).1).slots → s.Plain) ∧
        ∀ e, (Parse.parseExpr (Source.scan source).1).1 = .ok e → e.Plain := by
  refine ⟨fun s t hs ht h => ?_, fun e f he hf h => ?_, fun source hsource => ?_⟩
  · exact hs.write_inj ht (String.ofList_injective h)
  · exact he.write_inj hf (String.ofList_injective h)
  · have hplain : ∀ t ∈ Source.pieceTokens source, t.Plain := by
      intro t ht
      have hmem : t ∈ (Source.scan source).1 := by
        rw [Source.fst_scan]
        exact List.mem_append_left _ ht
      obtain ⟨hstring, hfinite⟩ := hsource t hmem
      exact ⟨Source.scanned_of_mem ht, hstring, hfinite⟩
    exact ⟨fun s hs => (Parse.parse_scan_drawn hs).plain hplain,
      fun e he => (Parse.parseExpr_scan_drawn he).plain hplain⟩

/-- The same statement and the same expression on two lines, read from two texts. -/
theorem text_identifies_lines :
    let e (line : Nat) : Expr := .unary .negate line (.var ⟨"a", line⟩)
    let s (line : Nat) : Stmt := .print (e line)
    ((Parse.parse (Source.scan "print -a;").1).slots = [some (s 1)] ∧
      (Parse.parse (Source.scan "\n\nprint -a;").1).slots = [some (s 3)] ∧
      (s 1).Plain ∧ (s 3).Plain ∧ (s 1).text = (s 3).text ∧
      ((s 1).mapLines fun _ => 0) = (s 3).mapLines fun _ => 0) ∧
    (Parse.parseExpr (Source.scan "-a").1).1 = .ok (e 1) ∧
      (Parse.parseExpr (Source.scan "\n\n-a").1).1 = .ok (e 3) ∧
      (e 1).Plain ∧ (e 3).Plain ∧ (e 1).text = (e 3).text ∧
      ((e 1).mapLines fun _ => 0) = (e 3).mapLines fun _ => 0 := by
  intro e s
  obtain ⟨hstmt, hexpr, hsource⟩ := text_identifies
  have hread (line : Nat) (source : String)
      (hscan : (Source.scan source).1 = [⟨.printKw, "print", none, line⟩, ⟨.minus, "-", none, line⟩,
        ⟨.identifier, "a", none, line⟩, ⟨.semicolon, ";", none, line⟩, .endOn line]) :
      (Parse.parse (Source.scan source).1).slots = [some (s line)] ∧ (s line).Plain := by
    have hslots : (Parse.parse (Source.scan source).1).slots = [some (s line)] := by
      rw [hscan]
      rfl
    exact ⟨hslots, (hsource source (by simp [hscan, Token.endOn])).1 _ (by simp [hslots])⟩
  have hreadExpr (line : Nat) (source : String)
      (hscan : (Source.scan source).1 = [⟨.minus, "-", none, line⟩,
        ⟨.identifier, "a", none, line⟩, .endOn line]) :
      (Parse.parseExpr (Source.scan source).1).1 = .ok (e line) ∧ (e line).Plain := by
    have he : (Parse.parseExpr (Source.scan source).1).1 = .ok (e line) := by
      rw [hscan]
      rfl
    exact ⟨he, (hsource source (by simp [hscan, Token.endOn])).2 _ he⟩
  obtain ⟨hslots1, hs1⟩ := hread 1 "print -a;" (by decide +kernel)
  obtain ⟨hslots3, hs3⟩ := hread 3 "\n\nprint -a;" (by decide +kernel)
  obtain ⟨hok1, he1⟩ := hreadExpr 1 "-a" (by decide +kernel)
  obtain ⟨hok3, he3⟩ := hreadExpr 3 "\n\n-a" (by decide +kernel)
  exact ⟨⟨hslots1, hslots3, hs1, hs3, rfl, hstmt _ _ hs1 hs3 rfl⟩,
    hok1, hok3, he1, he3, rfl, hexpr _ _ he1 he3 rfl⟩

/-- A string stands without its quotes and may look like a name. -/
example : (Expr.literal (.string "a")).text = (Expr.var ⟨"a", 1⟩).text := rfl

end Lox
