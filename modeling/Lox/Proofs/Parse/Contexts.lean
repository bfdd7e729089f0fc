import Lox.Proofs.Descent.Single
import Lox.Proofs.Parse.Infix

/-!
# An expression in its contexts

* `ReadsAs`, `IsProgram`: tokens that are read as an expression, or as one statement;
* `readsAs_iff_place`, `body_around`: the places of the tokens in a longer sequence;
* `readsAs_iff_isProgram`: before a semicolon; `ReadsAs.grouping`, `ReadsAs.of_grouping`: in
  parentheses;
* the main result: `expression_contexts`.
-/

namespace Lox.Parse

open Token (Kind)
open Grammar (isEnd_of_kind)

variable {ts tail : List Token} {e : Expr} {ds : List Diagnostic} {s : Stmt}

/-! ## Token sequences -/

/-- The tokens are read as the expression, with the errors. -/
def ReadsAs (tokens : List Token) (e : Expr) (ds : List Diagnostic) : Prop :=
  (parseExpr tokens).1 = .ok e ∧ (parseExpr tokens).2.map Fault.diagnostic = ds

/-- The tokens are a program of the one statement, with the errors. -/
def IsProgram (tokens : List Token) (s : Stmt) (ds : List Diagnostic) : Prop :=
  (parse tokens).slots = [some s] ∧ (parse tokens).diagnostics = ds

theorem readsAs_iff {tokens : List Token} : ReadsAs tokens e ds ↔
    ∃ fs, Spans (body tokens) e fs ∧ fs.map Fault.diagnostic = ds := by
  constructor
  · rintro ⟨he, hds⟩
    exact ⟨_, parseExpr_eq_ok_iff.mp (Prod.ext he rfl), hds⟩
  · rintro ⟨fs, hspans, rfl⟩
    rw [ReadsAs, parseExpr_eq_ok_iff.mpr hspans]
    exact ⟨rfl, rfl⟩

theorem isProgram_iff {tokens : List Token} : IsProgram tokens s ds ↔
    ∃ fs, parse tokens = ⟨[some s], fs⟩ ∧ fs.map Fault.diagnostic = ds := by
  constructor
  · rintro ⟨hslots, hds⟩
    exact ⟨(parse tokens).faults, by rw [← hslots], hds⟩
  · rintro ⟨fs, hparse, rfl⟩
    rw [IsProgram, hparse]
    exact ⟨rfl, rfl⟩

theorem before_append (hts : ∀ t ∈ ts, t.isEnd = false) (htail : before tail = []) :
    before (ts ++ tail) = ts := by
  have hall : ∀ t ∈ ts, (!t.isEnd) = true := fun t ht => by simp [hts t ht]
  rw [before] at htail ⊢
  rw [List.takeWhile_append_of_pos hall, htail, List.append_nil]

theorem body_append (hts : ∀ t ∈ ts, t.isEnd = false) (htail : before tail = []) :
    body (ts ++ tail) = place 0 ts := by
  rw [body_eq, before_append hts htail]

/-- Errors do not tell where tokens stand, apart from their lines. -/
theorem readsAs_iff_place (hts : ∀ t ∈ ts, t.isEnd = false) (htail : before tail = []) (n : Nat) :
    ReadsAs (ts ++ tail) e ds ↔
      ∃ fs, Spans (place n ts) e fs ∧ fs.map Fault.diagnostic = ds := by
  rw [readsAs_iff, body_append hts htail]
  constructor
  · rintro ⟨fs, hspans, rfl⟩
    exact hspans.place n
  · rintro ⟨fs, hspans, rfl⟩
    exact hspans.place 0

theorem readsAs_iff_isProgram (hts : ∀ t ∈ ts, t.isEnd = false) (htail : before tail = [])
    {tokens : List Token} {n : Nat}
    (hparse : ∀ fs, parse tokens = ⟨[some s], fs⟩ ↔ Spans (place n ts) e fs) :
    ReadsAs (ts ++ tail) e ds ↔ IsProgram tokens s ds := by
  rw [readsAs_iff_place hts htail n, isProgram_iff]
  exact exists_congr fun fs => and_congr_left' (hparse fs).symm

theorem body_around {pre : List Token} {s : Token} (hpre : ∀ t ∈ pre, t.isEnd = false)
    (hts : ∀ t ∈ ts, t.isEnd = false) (hs : s.isEnd = false) (htail : before tail = []) :
    body (pre ++ (ts ++ s :: tail)) =
      place 0 pre ++ (place pre.length ts ++ [⟨s, pre.length + ts.length⟩]) := by
  have hall : ∀ t ∈ pre ++ (ts ++ [s]), t.isEnd = false := by
    simpa [or_imp, forall_and, hs] using ⟨hpre, hts⟩
  have htokens : pre ++ (ts ++ s :: tail) = pre ++ (ts ++ [s]) ++ tail := by simp
  rw [htokens, body_append hall htail, place_append, place_append, Nat.zero_add]
  rfl

theorem map_toToken_place (n : Nat) (ts : List Token) : (place n ts).map (·.toToken) = ts := by
  rw [place, List.map_map]
  exact List.zipIdx_map_fst n ts

theorem ReadsAs.grouping {l r : Token} (h : ReadsAs (ts ++ tail) e ds)
    (hts : ∀ t ∈ ts, t.isEnd = false) (htail : before tail = []) (hl : l.kind = .leftParen)
    (hr : r.kind = .rightParen) : ReadsAs (l :: (ts ++ r :: tail)) (.grouping e) ds := by
  obtain ⟨fs, hspans, hds⟩ := (readsAs_iff_place hts htail 1).mp h
  have hbody : body ([l] ++ (ts ++ r :: tail)) = _ :=
    body_around (by simp [isEnd_of_kind hl]) hts (isEnd_of_kind hr (by decide)) htail
  refine readsAs_iff.mpr ⟨fs, ?_, hds⟩
  rw [← List.singleton_append, hbody]
  exact hspans.grouping hl hr

theorem ReadsAs.of_grouping {l r : Token} (h : ReadsAs (l :: (ts ++ r :: tail)) (.grouping e) [])
    (hts : ∀ t ∈ ts, t.isEnd = false) (htail : before tail = []) (hl : l.kind = .leftParen)
    (hr : r.kind = .rightParen) : ReadsAs (ts ++ tail) e [] := by
  obtain ⟨fs, hspans, hds⟩ := readsAs_iff.mp h
  obtain rfl := List.map_eq_nil_iff.mp hds
  have hbody : body ([l] ++ (ts ++ r :: tail)) = _ :=
    body_around (by simp [isEnd_of_kind hl]) hts (isEnd_of_kind hr (by decide)) htail
  rw [List.singleton_append] at hbody
  have hgroup := hspans.expression
  rw [hbody, List.map_append, List.map_append, map_toToken_place, map_toToken_place] at hgroup
  obtain ⟨l', us, r', heq, -, he, -⟩ := hgroup.eq_of_grouping
  have heq : l :: (ts ++ [r]) = l' :: (us ++ [r']) := heq
  obtain ⟨rfl, -⟩ := List.append_inj' (List.cons.inj heq).2 rfl
  rw [ReadsAs, parseExpr_of_expression (by rwa [before_append hts htail])]
  exact ⟨rfl, rfl⟩

/-- **An expression is read the same everywhere.** Tokens without an end are an expression by
themselves, with some errors, exactly if they are one as a statement of its own, as the value of a
`print` and as an initializer, before a semicolon and with the same errors. Then they are one in
parentheses too; and if there are no errors, they are no expression in parentheses unless they are
one by themselves. The tokens may be followed by an end and whatever stands behind it. -/
theorem expression_contexts {p v x q s l r : Token} (hts : ∀ t ∈ ts, t.isEnd = false)
    (htail : before tail = []) (hp : p.kind = .printKw) (hv : v.kind = .varKw)
    (hx : x.kind = .identifier) (hq : q.kind = .equal) (hs : s.kind = .semicolon)
    (hl : l.kind = .leftParen) (hr : r.kind = .rightParen) (e : Expr) (ds : List Diagnostic) :
    (ReadsAs (ts ++ tail) e ds ↔ IsProgram (ts ++ s :: tail) (.expression e) ds) ∧
    (ReadsAs (ts ++ tail) e ds ↔ IsProgram (p :: (ts ++ s :: tail)) (.print e) ds) ∧
    (ReadsAs (ts ++ tail) e ds ↔ IsProgram (v :: x :: q :: (ts ++ s :: tail))
      (.declare ⟨x.lexeme, x.line⟩ (some e)) ds) ∧
    (ReadsAs (ts ++ tail) e ds → ReadsAs (l :: (ts ++ r :: tail)) (.grouping e) ds) ∧
    (ds = [] → ReadsAs (l :: (ts ++ r :: tail)) (.grouping e) ds →
      ReadsAs (ts ++ tail) e ds) := by
  have hsemi : s.isEnd = false := isEnd_of_kind hs (by decide)
  refine ⟨?_, ?_, ?_, fun h => h.grouping hts htail hl hr, ?_⟩
  · have hbody : body ([] ++ (ts ++ s :: tail)) = _ := body_around nofun hts hsemi htail
    exact readsAs_iff_isProgram hts htail fun fs => Descent.parse_eq_expression_iff hbody hs
  · have hbody : body ([p] ++ (ts ++ s :: tail)) = _ :=
      body_around (by simp [isEnd_of_kind hp]) hts hsemi htail
    exact readsAs_iff_isProgram hts htail fun fs => Descent.parse_eq_print_iff hbody hp hs
  · have hbody : body ([v, x, q] ++ (ts ++ s :: tail)) = _ :=
      body_around (by simp [isEnd_of_kind hv, isEnd_of_kind hx, isEnd_of_kind hq]) hts hsemi htail
    exact readsAs_iff_isProgram hts htail fun fs =>
      Descent.parse_eq_declare_iff hbody hv hx hq hs
  · rintro rfl h
    exact h.of_grouping hts htail hl hr

/-- `(a) = b` with its invalid target in all contexts, and `a` out of its parentheses. -/
theorem expression_contexts_target :
    let mark (k : Kind) (x : String) : Token := { kind := k, lexeme := x, line := 1 }
    let name (x : String) : Token := mark .identifier x
    let ts := [mark .leftParen "(", name "a", mark .rightParen ")", mark .equal "=", name "b"]
    let e : Expr := .grouping (.var ⟨"a", 1⟩)
    let ds := [Diagnostic.syntactic (mark .equal "=") "Invalid assignment target."]
    let last := mark .eof ""
    IsProgram (ts ++ [mark .semicolon ";", last]) (.expression e) ds ∧
      IsProgram (mark .printKw "print" :: (ts ++ [mark .semicolon ";", last])) (.print e) ds ∧
      IsProgram (mark .varKw "var" :: name "x" :: mark .equal "=" ::
        (ts ++ [mark .semicolon ";", last])) (.declare ⟨"x", 1⟩ (some e)) ds ∧
      ReadsAs (mark .leftParen "(" :: (ts ++ [mark .rightParen ")", last])) (.grouping e) ds ∧
      ReadsAs [name "a", last] (.var ⟨"a", 1⟩) [] := by
  intro mark name ts e ds last
  have hcontexts := fun (us : List Token) (hus : ∀ t ∈ us, t.isEnd = false) =>
    expression_contexts (p := mark .printKw "print") (v := mark .varKw "var") (x := name "x")
      (q := mark .equal "=") (s := mark .semicolon ";") (l := mark .leftParen "(")
      (r := mark .rightParen ")") hus (show before [last] = [] by rfl) rfl rfl rfl rfl rfl rfl rfl
  have h : ReadsAs (ts ++ [last]) e ds := ⟨rfl, rfl⟩
  obtain ⟨hstatement, hprint, hdeclare, hgroup, -⟩ := hcontexts ts (by decide) e ds
  obtain ⟨-, -, -, -, hinside⟩ := hcontexts [name "a"] (by decide) (.var ⟨"a", 1⟩) []
  exact ⟨hstatement.mp h, hprint.mp h, hdeclare.mp h, hgroup h, hinside rfl ⟨rfl, rfl⟩⟩

/-- With an error, tokens that are no expression may be one in parentheses: `a) = (b`. -/
example :
    let mark (k : Kind) (x : String) : Token := { kind := k, lexeme := x, line := 1 }
    let ts := [mark .identifier "a", mark .rightParen ")", mark .equal "=", mark .leftParen "(",
      mark .identifier "b"]
    ReadsAs (mark .leftParen "(" :: (ts ++ [mark .rightParen ")"])) (.grouping (.var ⟨"a", 1⟩))
      [Diagnostic.syntactic (mark .equal "=") "Invalid assignment target."] ∧
      ∃ f, (parseExpr ts).1 = .error f :=
  ⟨⟨rfl, rfl⟩, _, rfl⟩

end Lox.Parse
