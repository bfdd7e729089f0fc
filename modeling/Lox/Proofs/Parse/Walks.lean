import Lox.Proofs.Lines.Read
import Lox.Proofs.Parse.Cascade
import Lox.Proofs.Parse.ExprDerives

/-!
# Walking through an expression

* `ExprReader.walk`: the reader behind tokens that belong to an expression, and the faults found;
* `ExprReader.exists_stop`: otherwise some token is the first that does not belong to it;
* `ExprReader.walk_under`, `ExprReader.walk_move`: inside a parenthesis, and at another place;
* `Spans`: tokens that make up an expression, with its faults;
* `parseExpr_eq_ok_iff`: these are the tokens that are read as an expression;
* `Spans.exists_cons`: they begin with none of the tokens that begin another declaration;
* `Spans.place`: they make up the expression wherever they stand;
* `Spans.grouping`, `Spans.expression`: in parentheses, and without faults.
-/

namespace Lox

theorem Expr.mapLines_id (e : Expr) : e.mapLines id = e := by
  induction e <;> simp_all [mapLines, Name.mapLine]

namespace Parse

open Token (Kind)
open Grammar

namespace ExprReader

variable {reader next last : ExprReader} {t : Placed} {ps qs : List Placed} {fs gs : List Fault}
  {e : Expr}

/-! ## Walks -/

/-- The reader behind the tokens, if all of them belong to the expression, and the faults found on
the way, in order. -/
def walk : ExprReader → List Placed → Option (ExprReader × List Fault)
  | reader, [] => some (reader, [])
  | reader, t :: ts =>
    match reader.read t with
    | .next next fs => (walk next ts).map fun (last, gs) => (last, fs ++ gs)
    | _ => none

theorem walk_cons (h : reader.read t = .next next fs) (hrest : next.walk ps = some (last, gs)) :
    reader.walk (t :: ps) = some (last, fs ++ gs) := by
  rw [walk, h]
  dsimp only
  rw [hrest]
  rfl

theorem walk_cons_iff : reader.walk (t :: ps) = some (last, fs) ↔ ∃ next gs hs,
    reader.read t = .next next gs ∧ next.walk ps = some (last, hs) ∧ fs = gs ++ hs := by
  constructor
  · intro h
    rw [walk] at h
    cases hread : reader.read t with
    | next next gs =>
      simp only [hread] at h
      obtain ⟨⟨last', hs⟩, hwalk, heq⟩ := Option.map_eq_some_iff.mp h
      cases heq
      exact ⟨next, gs, hs, rfl, hwalk, rfl⟩
    | ended | failed =>
      simp only [hread] at h
      cases h
  · rintro ⟨next, gs, hs, hread, hwalk, rfl⟩
    exact walk_cons hread hwalk

theorem walk_append (h : reader.walk ps = some (next, fs)) (h' : next.walk qs = some (last, gs)) :
    reader.walk (ps ++ qs) = some (last, fs ++ gs) := by
  induction ps generalizing reader fs with
  | nil =>
    cases h
    exact h'
  | cons t ps ih =>
    obtain ⟨mid, gs', hs, hread, hwalk, rfl⟩ := walk_cons_iff.mp h
    rw [List.append_assoc]
    exact walk_cons hread (ih hwalk)

/-- Tokens that do not all belong to the expression hold a first one that does not. -/
theorem exists_stop (h : reader.walk ps = none) : ∃ qs t us last gs, ps = qs ++ t :: us ∧
    reader.walk qs = some (last, gs) ∧ ∀ next fs, last.read t ≠ .next next fs := by
  induction ps generalizing reader with
  | nil => cases h
  | cons t ps ih =>
    rw [walk] at h
    cases hread : reader.read t with
    | next next fs =>
      simp only [hread] at h
      obtain ⟨qs, u, us, last, gs, rfl, hwalk, hstop⟩ := ih (Option.map_eq_none_iff.mp h)
      exact ⟨t :: qs, u, us, last, fs ++ gs, rfl, walk_cons hread hwalk, hstop⟩
    | ended | failed => exact ⟨[], t, ps, reader, [], rfl, rfl, by simp [hread]⟩

/-- Tokens that are walked through without a fault spell what the reader holds. -/
theorem spells_walk {ts : List Token} (hs : reader.Spells ts)
    (h : reader.walk ps = some (last, [])) : last.Spells (ts ++ ps.map (·.toToken)) := by
  induction ps generalizing reader ts with
  | nil =>
    cases h
    rwa [List.map_nil, List.append_nil]
  | cons t ps ih =>
    obtain ⟨next, gs, hs', hread, hwalk, heq⟩ := walk_cons_iff.mp h
    obtain ⟨rfl, rfl⟩ := List.append_eq_nil_iff.mp heq.symm
    rw [List.map_cons, List.append_cons]
    exact ih (spells_read hs hread) hwalk

/-! ## In parentheses -/

/-- The same reader inside a parenthesis. -/
def under (rest : List Pending) : ExprReader → ExprReader
  | operand pending => operand (pending ++ .paren :: rest)
  | operator e pending => operator e (pending ++ .paren :: rest)

theorem close_under (level : Nat) (e : Expr) (pending rest : List Pending) :
    close level e (pending ++ .paren :: rest) = { close level e pending with
      pending := (close level e pending).pending ++ .paren :: rest } := by
  induction pending generalizing e with
  | nil => rfl
  | cons p pending ih =>
    cases p with
    | unary op line => exact ih _
    | binary op line left | logical op line left =>
      rw [List.cons_append, close, close]
      split
      · exact ih _
      · rfl
    | assign target equals =>
      rw [List.cons_append]
      unfold close
      split
      · split
        · exact ih _
        · rw [ih]
      · rfl
    | paren => rfl

theorem Takes.under {step : ExprStep} (rest : List Pending) (h : Takes t reader step)
    (hstep : step = .next next fs) : Takes t (reader.under rest) (.next (next.under rest) fs) := by
  have hclose (level : Nat) (e : Expr) (pending : List Pending) := close_under level e pending rest
  cases h with
  | noOperand | unclosed | ended => cases hstep
  | unary hop =>
    cases hstep
    exact .unary hop
  | openParen hk =>
    cases hstep
    exact .openParen hk
  | atom hatom =>
    cases hstep
    exact .atom hatom
  | @binary e pending op hop =>
    cases hstep
    have h := @Takes.binary t e (pending ++ .paren :: rest) op hop
    rwa [hclose] at h
  | @logical e pending op hop =>
    cases hstep
    have h := @Takes.logical t e (pending ++ .paren :: rest) op hop
    rwa [hclose] at h
  | @assign e pending hk =>
    cases hstep
    have h := @Takes.assign t e (pending ++ .paren :: rest) hk
    rwa [hclose] at h
  | @closeParen e pending rest' hparen hk =>
    cases hstep
    have h := @Takes.closeParen t e (pending ++ .paren :: rest) (rest' ++ .paren :: rest)
      (by rw [hclose, hparen, List.cons_append]) hk
    rwa [hclose] at h

/-- Around the tokens of an expression a parenthesis changes nothing. -/
theorem read_under (rest : List Pending) (h : reader.read t = .next next fs) :
    (reader.under rest).read t = .next (next.under rest) fs :=
  ((reader.takes t).under rest h).read_eq

theorem walk_under (rest : List Pending) (h : reader.walk ps = some (last, fs)) :
    (reader.under rest).walk ps = some (last.under rest, fs) := by
  induction ps generalizing reader fs with
  | nil =>
    cases h
    rfl
  | cons t ps ih =>
    obtain ⟨next, gs, hs, hread, hwalk, rfl⟩ := walk_cons_iff.mp h
    exact walk_cons (read_under rest hread) (ih hwalk)

theorem read_under_rightParen (h : last.finish = (.ok e, fs)) (ht : t.kind = .rightParen)
    (rest : List Pending) : (last.under rest).read t = .next (operator (.grouping e) rest) fs := by
  cases last with
  | operand pending => simp [finish] at h
  | operator v pending =>
    rw [under, read, readOperator_of_endsExpression (by rw [ht]; rfl), readClosing, close_under]
    rw [finish] at h
    rcases close_zero_pending v pending with hnil | ⟨rest', hparen⟩
    · simp only [hnil] at h
      cases h
      rw [hnil]
      exact if_pos ht
    · simp only [hparen] at h
      cases h

/-! ## On other lines and at other places -/

theorem walk_move (f g : Nat → Nat) (h : reader.walk ps = some (last, fs)) :
    (reader.move f g).walk (ps.map (·.move f g)) =
      some (last.move f g, fs.map (·.move f g)) := by
  induction ps generalizing reader fs with
  | nil =>
    cases h
    rfl
  | cons t ps ih =>
    obtain ⟨next, gs, hs, hread, hwalk, rfl⟩ := walk_cons_iff.mp h
    have hmove : (reader.move f g).read (t.move f g) = _ := read_move f g reader t
    rw [hread] at hmove
    rw [List.map_append]
    exact walk_cons hmove (ih hwalk)

/-- A kind that belongs to no expression ends it exactly where it may end with the tokens. -/
theorem read_eq_ended_iff (ht : endsExpression t.kind = true) :
    last.read t = .ended e fs ↔ last.finish = (.ok e, fs) := by
  cases last with
  | operand pending =>
    exact iff_of_false readOperand_ne_ended (by simp [finish])
  | operator v pending =>
    rw [read, readOperator_of_endsExpression ht, readClosing, finish]
    split
    · refine iff_of_false ?_ (by simp)
      split <;> simp
    · simp

theorem finish_move (f g : Nat → Nat) (h : last.finish = (.ok e, fs)) :
    (last.move f g).finish = (.ok (e.mapLines f), fs.map (·.move f g)) := by
  let t : Placed := ⟨bare .semicolon, 0⟩
  have ht : endsExpression t.kind = true := rfl
  have hmoved : endsExpression (t.move f g).kind = true := rfl
  have hread := read_move f g last t
  rw [(read_eq_ended_iff ht).mpr h] at hread
  exact (read_eq_ended_iff hmoved).mp hread

end ExprReader

/-! ## Tokens that make up an expression -/

/-- The tokens make up the expression, with the faults in order. -/
def Spans (ps : List Placed) (e : Expr) (fs : List Fault) : Prop :=
  ∃ last gs hs, ExprReader.start.walk ps = some (last, gs) ∧ last.finish = (.ok e, hs) ∧
    fs = gs ++ hs

variable {reader last : ExprReader} {ps : List Placed} {fs gs : List Fault} {e : Expr}
  {tokens : List Token}

theorem foldl_exprRun_walk (h : reader.walk ps = some (last, gs)) (fs : List Fault) :
    ps.foldl ExprRun.read ⟨.ok reader, fs⟩ = ⟨.ok last, gs.reverse ++ fs⟩ := by
  induction ps generalizing reader gs fs with
  | nil =>
    cases h
    rfl
  | cons t ps ih =>
    obtain ⟨next, gs', hs, hread, hwalk, rfl⟩ := ExprReader.walk_cons_iff.mp h
    rw [List.foldl_cons, ExprRun.read]
    simp only [hread]
    rw [ih hwalk, List.reverse_append, List.append_assoc]

theorem foldl_exprRun_error (f : Fault) (fs : List Fault) (ps : List Placed) :
    ps.foldl ExprRun.read ⟨.error f, fs⟩ = ⟨.error f, fs⟩ := by
  induction ps with
  | nil => rfl
  | cons t ps ih => exact ih

theorem foldl_exprRun_none (h : reader.walk ps = none) (fs : List Fault) :
    ∃ f gs, ps.foldl ExprRun.read ⟨.ok reader, fs⟩ = ⟨.error f, gs⟩ := by
  obtain ⟨qs, t, us, last, gs, rfl, hwalk, hstop⟩ := ExprReader.exists_stop h
  rw [List.foldl_append, foldl_exprRun_walk hwalk, List.foldl_cons, ExprRun.read]
  dsimp only
  split
  · exact absurd ‹_› (hstop _ _)
  · exact ⟨_, _, foldl_exprRun_error _ _ _⟩
  · exact ⟨_, _, foldl_exprRun_error _ _ _⟩

/-- The tokens that are read as an expression are those that make it up. -/
theorem parseExpr_eq_ok_iff : parseExpr tokens = (.ok e, fs) ↔ Spans (body tokens) e fs := by
  rw [parseExpr]
  cases hwalk : ExprReader.start.walk (body tokens) with
  | none =>
    obtain ⟨f, gs, hrun⟩ := foldl_exprRun_none hwalk []
    have hrun : (body tokens).foldl ExprRun.read {} = ⟨.error f, gs⟩ := hrun
    rw [hrun]
    refine iff_of_false (by simp [ExprRun.finish]) ?_
    rintro ⟨last, gs, hs, h, -⟩
    rw [hwalk] at h
    cases h
  | some out =>
    obtain ⟨last, gs⟩ := out
    have hrun : (body tokens).foldl ExprRun.read {} = ⟨.ok last, gs.reverse ++ []⟩ :=
      foldl_exprRun_walk hwalk []
    rw [hrun, ExprRun.finish]
    constructor
    · intro h
      rcases hfinish : last.finish with ⟨cause | e', hs⟩ <;> simp only [hfinish] at h <;> cases h
      refine ⟨last, gs, _, hwalk, hfinish, ?_⟩
      simp
    · rintro ⟨last', gs', hs, h, hfinish, rfl⟩
      rw [hwalk] at h
      cases h
      simp [hfinish]

theorem Spans.move (f g : Nat → Nat) (h : Spans ps e fs) :
    Spans (ps.map (·.move f g)) (e.mapLines f) (fs.map (·.move f g)) := by
  obtain ⟨last, gs, hs, hwalk, hfinish, rfl⟩ := h
  rw [List.map_append]
  exact ⟨_, _, _, ExprReader.walk_move f g hwalk, ExprReader.finish_move f g hfinish, rfl⟩

/-- The kinds of tokens that begin a declaration which is no expression. -/
def openers : List Kind := [.varKw, .printKw, .leftBrace, .ifKw, .whileKw]

theorem Spans.exists_cons (h : Spans ps e fs) : ∃ u us, ps = u :: us ∧ u.kind ∉ openers := by
  obtain ⟨last, gs, hs, hwalk, hfinish, -⟩ := h
  cases ps with
  | nil =>
    cases hwalk
    cases hfinish
  | cons u us =>
    refine ⟨u, us, rfl, fun hmem => ?_⟩
    obtain ⟨next, gs, hs, hread, -⟩ := ExprReader.walk_cons_iff.mp hwalk
    simp only [openers, List.mem_cons, List.not_mem_nil, or_false] at hmem
    rcases hmem with hk | hk | hk | hk | hk <;>
      simp [ExprReader.start, ExprReader.read, ExprReader.readOperand, UnaryOp.ofKind?,
        atom?, hk] at hread

theorem map_move_place (g : Nat → Nat) {n m : Nat} (h : ∀ k, g (n + k) = m + k)
    (ts : List Token) : (place n ts).map (·.move id g) = place m ts := by
  induction ts generalizing n m with
  | nil => rfl
  | cons t ts ih =>
    have hrest : ∀ k, g (n + 1 + k) = m + 1 + k := fun k => by
      rw [Nat.add_assoc, h, Nat.add_assoc]
    have ht : Placed.move id g ⟨t, n⟩ = ⟨t, m⟩ := congrArg (Placed.mk t) (h 0)
    rw [place_cons, place_cons, List.map_cons, ih hrest, ht]

/-- Wherever the tokens stand, they make up the same expression, with the same errors. -/
theorem Spans.place {ts : List Token} {n : Nat} (h : Spans (place n ts) e fs) (m : Nat) :
    ∃ gs, Spans (Parse.place m ts) e gs ∧
      gs.map Fault.diagnostic = fs.map Fault.diagnostic := by
  have hmove := h.move id fun i => i - n + m
  rw [map_move_place (fun i => i - n + m) (m := m) (by omega), Expr.mapLines_id] at hmove
  refine ⟨_, hmove, ?_⟩
  rw [List.map_map]
  rfl

theorem Spans.grouping {l r : Placed} (h : Spans ps e fs) (hl : l.kind = .leftParen)
    (hr : r.kind = .rightParen) : Spans (l :: (ps ++ [r])) (.grouping e) fs := by
  obtain ⟨last, gs, hs, hwalk, hfinish, rfl⟩ := h
  have hopen : ExprReader.start.read l = .next (ExprReader.start.under []) [] :=
    ExprReader.read_leftParen [] hl
  have hclose := ExprReader.read_under_rightParen hfinish hr []
  refine ⟨_, _, [], ExprReader.walk_cons hopen (ExprReader.walk_append
    (ExprReader.walk_under [] hwalk) (ExprReader.walk_cons hclose rfl)), rfl, ?_⟩
  simp

theorem Spans.expression (h : Spans ps e []) :
    Expression .assignment (ps.map (·.toToken)) e := by
  obtain ⟨last, gs, hs, hwalk, hfinish, heq⟩ := h
  obtain ⟨rfl, rfl⟩ := List.append_eq_nil_iff.mp heq.symm
  have ht : ExprReader.endsExpression (⟨bare .semicolon, 0⟩ : Placed).kind = true := rfl
  have hspells := ExprReader.spells_walk ExprReader.spells_start hwalk
  exact ExprReader.expression_of_ended hspells ((ExprReader.read_eq_ended_iff ht).mpr hfinish)

end Parse

end Lox
