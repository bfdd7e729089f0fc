import Lox.Proofs.Lines.Trees

/-!
# Tokens that mean the same

The grammar looks at the kind and the value of a token, and at the text of a name. Nothing else
that a token carries gets into a tree but its line.

* `Token.sense`: what the grammar looks at (`sense_eq_iff`);
* `Expression.of_sense`, `Declarations.of_sense`: tokens of the same sense derive the same trees
  but for the lines.
-/

namespace Lox

open Token (Kind)

/-- What the grammar looks at: kind and value, and the text of a name. -/
def Token.sense (t : Token) : Kind × Option Value × Option String :=
  (t.kind, t.literal, if t.kind = .identifier then some t.lexeme else none)

theorem Token.sense_eq_iff {t u : Token} : u.sense = t.sense ↔
    u.kind = t.kind ∧ u.literal = t.literal ∧ (t.kind = .identifier → u.lexeme = t.lexeme) := by
  simp only [sense, Prod.mk.injEq]
  refine and_congr_right fun hk => and_congr_right fun _ => ?_
  rw [hk]
  by_cases hname : t.kind = .identifier <;> simp [hname]

namespace Grammar

theorem Atom.of_sense {t u : Token} {e : Expr} (h : Atom t e) (hs : u.sense = t.sense) :
    ∃ e', Atom u e' ∧ e'.mapLines (fun _ => 0) = e.mapLines (fun _ => 0) := by
  obtain ⟨hkind, hvalue, hname⟩ := Token.sense_eq_iff.mp hs
  cases h with
  | ofFalse hk => exact ⟨_, .ofFalse (hkind.trans hk), rfl⟩
  | ofTrue hk => exact ⟨_, .ofTrue (hkind.trans hk), rfl⟩
  | ofNil hk => exact ⟨_, .ofNil (hkind.trans hk), rfl⟩
  | number hk => exact ⟨_, .number (hkind.trans hk), by rw [hvalue]⟩
  | string hk => exact ⟨_, .string (hkind.trans hk), by rw [hvalue]⟩
  | name hk =>
    exact ⟨_, .name (hkind.trans hk), by simp [Expr.mapLines, Name.mapLine, hname hk]⟩

theorem kind_of_sense {t u : Token} {k : Kind} (hk : t.kind = k) (hs : u.sense = t.sense) :
    u.kind = k :=
  (Token.sense_eq_iff.mp hs).1.trans hk

theorem name_of_sense {n m : Token} (hk : n.kind = .identifier) (hs : m.sense = n.sense) :
    Name.mapLine (fun _ => 0) ⟨m.lexeme, m.line⟩ =
      Name.mapLine (fun _ => 0) ⟨n.lexeme, n.line⟩ := by
  simp [Name.mapLine, (Token.sense_eq_iff.mp hs).2.2 hk]

theorem Expression.of_sense {g : Rung} {ts : List Token} {e : Expr} (h : Expression g ts e) :
    ∀ {us : List Token}, us.map Token.sense = ts.map Token.sense →
    ∃ e', Expression g us e' ∧ e'.mapLines (fun _ => 0) = e.mapLines (fun _ => 0) := by
  -- the new tokens are cut where the derivation cuts the old ones
  induction h with
  | atom ha =>
    intro us hs
    obtain ⟨u, vs, rfl, hu, hvs⟩ := List.map_eq_cons_iff.mp hs
    obtain ⟨e', ha', he⟩ := ha.of_sense hu
    obtain rfl := List.map_eq_nil_iff.mp hvs
    exact ⟨e', .atom ha', he⟩
  | grouping hl _ hr ih =>
    intro us hs
    simp only [List.map_cons, List.map_append, List.map_eq_cons_iff, List.map_eq_append_iff,
      List.map_nil, List.map_eq_nil_iff] at hs
    obtain ⟨l, us, rfl, hleft, us, rs, rfl, hus, r, rs, rfl, hright, rfl⟩ := hs
    obtain ⟨e', he', heq⟩ := ih hus
    exact ⟨_, .grouping (kind_of_sense hl hleft) he' (kind_of_sense hr hright),
      by rw [Expr.mapLines, heq]; rfl⟩
  | unary hk _ ih =>
    intro us hs
    simp only [List.map_cons, List.map_eq_cons_iff] at hs
    obtain ⟨t, us, rfl, hop, hus⟩ := hs
    obtain ⟨e', he', heq⟩ := ih hus
    exact ⟨_, .unary (kind_of_sense hk hop) he', by rw [Expr.mapLines, heq]; rfl⟩
  | binary _ hk _ ihl ihr =>
    intro us hs
    simp only [List.map_cons, List.map_append, List.map_eq_cons_iff,
      List.map_eq_append_iff] at hs
    obtain ⟨us, vs, rfl, hus, t, vs, rfl, hop, hvs⟩ := hs
    obtain ⟨l', hl', hleft⟩ := ihl hus
    obtain ⟨r', hr', hright⟩ := ihr hvs
    exact ⟨_, .binary hl' (kind_of_sense hk hop) hr',
      by rw [Expr.mapLines, hleft, hright]; rfl⟩
  | logical _ hk _ ihl ihr =>
    intro us hs
    simp only [List.map_cons, List.map_append, List.map_eq_cons_iff,
      List.map_eq_append_iff] at hs
    obtain ⟨us, vs, rfl, hus, t, vs, rfl, hop, hvs⟩ := hs
    obtain ⟨l', hl', hleft⟩ := ihl hus
    obtain ⟨r', hr', hright⟩ := ihr hvs
    exact ⟨_, .logical hl' (kind_of_sense hk hop) hr',
      by rw [Expr.mapLines, hleft, hright]; rfl⟩
  | assign hn hq _ ih =>
    intro us hs
    simp only [List.map_cons, List.map_eq_cons_iff] at hs
    obtain ⟨n, us, rfl, hname, q, us, rfl, hequal, hus⟩ := hs
    obtain ⟨e', he', heq⟩ := ih hus
    exact ⟨_, .assign (kind_of_sense hn hname) (kind_of_sense hq hequal) he',
      by rw [Expr.mapLines, name_of_sense hn hname, heq]; rfl⟩
  | above _ ih =>
    intro us hs
    obtain ⟨e', he', heq⟩ := ih hs
    exact ⟨e', .above he', heq⟩

mutual

theorem Statement.of_sense : ∀ {ts : List Token} {s : Stmt}, Statement ts s →
    ∀ {us : List Token}, us.map Token.sense = ts.map Token.sense →
    ∃ s', Statement us s' ∧ s'.mapLines (fun _ => 0) = s.mapLines (fun _ => 0)
  | _, _, .expression he ht, us, hs => by
    simp only [List.map_cons, List.map_append, List.map_eq_cons_iff, List.map_eq_append_iff,
      List.map_nil, List.map_eq_nil_iff] at hs
    obtain ⟨us, rs, rfl, hus, t, rs, rfl, hend, rfl⟩ := hs
    obtain ⟨e', he', heq⟩ := he.of_sense hus
    exact ⟨_, .expression he' (kind_of_sense ht hend), by rw [Stmt.mapLines, heq]; rfl⟩
  | _, _, .print hp he ht, us, hs => by
    simp only [List.map_cons, List.map_append, List.map_eq_cons_iff, List.map_eq_append_iff,
      List.map_nil, List.map_eq_nil_iff] at hs
    obtain ⟨p, us, rfl, hprint, us, rs, rfl, hus, t, rs, rfl, hend, rfl⟩ := hs
    obtain ⟨e', he', heq⟩ := he.of_sense hus
    exact ⟨_, .print (kind_of_sense hp hprint) he' (kind_of_sense ht hend),
      by rw [Stmt.mapLines, heq]; rfl⟩
  | _, _, .block hl hds hr, us, hs => by
    simp only [List.map_cons, List.map_append, List.map_eq_cons_iff, List.map_eq_append_iff,
      List.map_nil, List.map_eq_nil_iff] at hs
    obtain ⟨l, us, rfl, hleft, us, rs, rfl, hus, r, rs, rfl, hright, rfl⟩ := hs
    obtain ⟨ss', hds', heq⟩ := Declarations.of_sense hds hus
    exact ⟨_, .block (kind_of_sense hl hleft) hds' (kind_of_sense hr hright),
      by rw [Stmt.mapLines, heq]; rfl⟩
  | _, _, .ifThen hi hl hc hr hv, us, hs => by
    simp only [List.map_cons, List.map_append, List.map_eq_cons_iff,
      List.map_eq_append_iff] at hs
    obtain ⟨i, us, rfl, hif, l, us, rfl, hleft, us, vs, rfl, hus, r, vs, rfl, hright, hvs⟩ := hs
    obtain ⟨c', hc', hceq⟩ := hc.of_sense hus
    obtain ⟨s', hs', hseq⟩ := Statement.of_sense hv hvs
    exact ⟨_, .ifThen (kind_of_sense hi hif) (kind_of_sense hl hleft) hc'
      (kind_of_sense hr hright) hs', by rw [Stmt.mapLines, hceq, hseq]; rfl⟩
  | _, _, .ifElse hi hl hc hr hv hf hw, us, hs => by
    simp only [List.map_cons, List.map_append, List.map_eq_cons_iff,
      List.map_eq_append_iff] at hs
    obtain ⟨i, us, rfl, hif, l, us, rfl, hleft, us, vs, rfl, hus, r, vs, rfl, hright, vs, ws, rfl,
      hvs, f, ws, rfl, helse, hws⟩ := hs
    obtain ⟨c', hc', hceq⟩ := hc.of_sense hus
    obtain ⟨s', hs', hseq⟩ := Statement.of_sense hv hvs
    obtain ⟨t', ht', hteq⟩ := Statement.of_sense hw hws
    exact ⟨_, .ifElse (kind_of_sense hi hif) (kind_of_sense hl hleft) hc'
      (kind_of_sense hr hright) hs' (kind_of_sense hf helse) ht',
      by rw [Stmt.mapLines, hceq, hseq, hteq]; rfl⟩
  | _, _, .loop hk hl hc hr hv, us, hs => by
    simp only [List.map_cons, List.map_append, List.map_eq_cons_iff,
      List.map_eq_append_iff] at hs
    obtain ⟨w, us, rfl, hwhile, l, us, rfl, hleft, us, vs, rfl, hus, r, vs, rfl, hright, hvs⟩ := hs
    obtain ⟨c', hc', hceq⟩ := hc.of_sense hus
    obtain ⟨s', hs', hseq⟩ := Statement.of_sense hv hvs
    exact ⟨_, .loop (kind_of_sense hk hwhile) (kind_of_sense hl hleft) hc'
      (kind_of_sense hr hright) hs', by rw [Stmt.mapLines, hceq, hseq]; rfl⟩

theorem Declaration.of_sense : ∀ {ts : List Token} {s : Stmt}, Declaration ts s →
    ∀ {us : List Token}, us.map Token.sense = ts.map Token.sense →
    ∃ s', Declaration us s' ∧ s'.mapLines (fun _ => 0) = s.mapLines (fun _ => 0)
  | _, _, .plain hv hn ht, us, hs => by
    simp only [List.map_cons, List.map_eq_cons_iff, List.map_nil, List.map_eq_nil_iff] at hs
    obtain ⟨v, us, rfl, hvar, n, us, rfl, hname, t, us, rfl, hend, rfl⟩ := hs
    exact ⟨_, .plain (kind_of_sense hv hvar) (kind_of_sense hn hname) (kind_of_sense ht hend),
      by rw [Stmt.mapLines, name_of_sense hn hname]; rfl⟩
  | _, _, .initialized hv hn hq he ht, us, hs => by
    simp only [List.map_cons, List.map_append, List.map_eq_cons_iff, List.map_eq_append_iff,
      List.map_nil, List.map_eq_nil_iff] at hs
    obtain ⟨v, us, rfl, hvar, n, us, rfl, hname, q, us, rfl, hequal, us, rs, rfl, hus, t, rs, rfl,
      hend, rfl⟩ := hs
    obtain ⟨e', he', heq⟩ := he.of_sense hus
    exact ⟨_, .initialized (kind_of_sense hv hvar) (kind_of_sense hn hname)
      (kind_of_sense hq hequal) he' (kind_of_sense ht hend),
      by rw [Stmt.mapLines, name_of_sense hn hname, Option.map_some, heq]; rfl⟩
  | _, _, .statement hv, us, hs => by
    obtain ⟨s', hs', heq⟩ := Statement.of_sense hv hs
    exact ⟨s', .statement hs', heq⟩

/-- Tokens of the same sense derive the same program but for the lines. -/
theorem Declarations.of_sense : ∀ {ts : List Token} {ss : List Stmt}, Declarations ts ss →
    ∀ {us : List Token}, us.map Token.sense = ts.map Token.sense →
    ∃ ss', Declarations us ss' ∧
      Stmt.mapLinesAll (fun _ => 0) ss' = Stmt.mapLinesAll (fun _ => 0) ss
  | _, _, .nil, us, hs => by
    obtain rfl := List.map_eq_nil_iff.mp hs
    exact ⟨[], .nil, rfl⟩
  | _, _, .cons hd hds, us, hs => by
    simp only [List.map_append, List.map_eq_append_iff] at hs
    obtain ⟨us, vs, rfl, hus, hvs⟩ := hs
    obtain ⟨s', hd', hseq⟩ := Declaration.of_sense hd hus
    obtain ⟨ss', hds', heq⟩ := Declarations.of_sense hds hvs
    exact ⟨s' :: ss', .cons hd' hds', by rw [Stmt.mapLinesAll, hseq, heq]; rfl⟩

end

end Grammar

end Lox
