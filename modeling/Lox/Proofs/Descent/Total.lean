import Lox.Proofs.Descent.Returns

/-!
# Every call returns

The calls that begin at one place return because those return that begin behind it. Rules that
call each other at the same place come one after the other: the levels of an expression above the
next ones, a declaration above its statement. Everything else is called behind a token.

* `Returns`, `returns_of_later`, `returns`: expressions;
* `exists_boundary`: the way to the next boundary ends;
* `Settles`, `settles_of_later`, `settles`: statements, declarations and blocks;
* `exists_collects`: whole programs.
-/

namespace Lox.Descent

open Token (Kind)
open Parse (Placed Cause Fault Use atom?)

variable {tokens : List Token} {p : Nat}

/-! ## Expressions -/

/-- There are seven levels. -/
def Part.Valid : Part → Prop
  | level n => n ≤ 7
  | _ => True

/-- Every call for a part that begins at the place returns. -/
def Returns (tokens : List Token) (p : Nat) : Prop :=
  ∀ part : Part, part.Valid → ∃ out q fs, Reads tokens part p out q fs

section

variable (hp : p ≤ size tokens) (later : ∀ p', p < p' → p' ≤ size tokens → Returns tokens p')

include hp later

theorem exists_operand : ∃ out q fs, Reads tokens .operand p out q fs := by
  cases hatom : atom? (current tokens p).toToken with
  | some e => exact ⟨_, _, _, .atom hatom⟩
  | none =>
    cases hop : UnaryOp.ofKind? (kind tokens p) with
    | some op =>
      have hlt := lt_size hp (ne_eof_of_ofKind? hop)
      obtain ⟨out, q, fs, h⟩ := later (p + 1) (Nat.lt_succ_self p) hlt .operand trivial
      exact ⟨_, _, _, .unary hop h⟩
    | none =>
      by_cases hparen : kind tokens p = .leftParen
      · have hlt := lt_size hp (by simp [hparen])
        obtain ⟨out, q, fs, h⟩ := later (p + 1) (Nat.lt_succ_self p) hlt .expression trivial
        cases out with
        | none => exact ⟨_, _, _, .groupingFails hparen h⟩
        | some e =>
          by_cases hclose : kind tokens q = .rightParen
          · exact ⟨_, _, _, .grouping hparen h hclose⟩
          · exact ⟨_, _, _, .groupingOpen hparen h hclose⟩
      · exact ⟨_, _, _, .noOperand hatom hop hparen⟩

theorem exists_chain (n : Nat) (left : Expr) :
    ∃ out q fs, Reads tokens (.chain n left) p out q fs := by
  by_cases hop : ∃ tree, operator? (current tokens p).toToken = some (n, tree)
  · obtain ⟨tree, hop⟩ := hop
    have hlt := lt_size hp (ne_eof_of_operator? hop)
    obtain ⟨out, q, fs, h⟩ :=
      later (p + 1) (Nat.lt_succ_self p) hlt (.level (n + 1)) ((level_of_operator? hop).2)
    cases out with
    | none => exact ⟨_, _, _, .moreFails hop h⟩
    | some right =>
      have hq := h.bounds hlt
      obtain ⟨out, q', gs, h'⟩ := later q hq.1 hq.2 (.chain n (tree left right)) trivial
      exact ⟨_, _, _, .more hop h h'⟩
  · exact ⟨_, _, _, .noMore (not_exists.mp hop)⟩

/-- The levels call each other upwards without taking a token. -/
theorem exists_level (n k : Nat) (hn : n + k = 7) :
    ∃ out q fs, Reads tokens (.level n) p out q fs := by
  induction k generalizing n with
  | zero =>
    obtain rfl : n = 7 := hn
    obtain ⟨out, q, fs, h⟩ := exists_operand hp later
    exact ⟨_, _, _, .above h⟩
  | succ k ih =>
    obtain ⟨out, q, fs, h⟩ := ih (n + 1) (by omega)
    cases out with
    | none => exact ⟨_, _, _, .levelFails (by omega) h⟩
    | some left =>
      have hlt := h.lt hp rfl (Option.some_ne_none _)
      obtain ⟨out, q', gs, h'⟩ := later q hlt (h.bounds hp).2 (.chain n left) trivial
      exact ⟨_, _, _, .level (by omega) h h'⟩

theorem exists_expression : ∃ out q fs, Reads tokens .expression p out q fs := by
  obtain ⟨out, q, fs, h⟩ := exists_level hp later 1 6 rfl
  cases out with
  | none => exact ⟨_, _, _, .plainFails h⟩
  | some e =>
    by_cases hequal : kind tokens q = .equal
    · have hq := h.bounds hp
      have hlt := lt_size hq.2 (by simp [hequal])
      obtain ⟨out, q', gs, h'⟩ := later (q + 1) (by omega) hlt .expression trivial
      cases out with
      | none => exact ⟨_, _, _, .valueFails h hequal h'⟩
      | some value =>
        by_cases hname : ∃ name, e = .var name
        · obtain ⟨name, rfl⟩ := hname
          exact ⟨_, _, _, .assign h hequal h'⟩
        · exact ⟨_, _, _, .noTarget h (not_exists.mp hname) hequal h'⟩
    · exact ⟨_, _, _, .plain h hequal⟩

theorem returns_of_later : Returns tokens p := by
  intro part hpart
  cases part with
  | operand => exact exists_operand hp later
  | chain n left => exact exists_chain hp later n left
  | level n => exact exists_level hp later n (7 - n) (Nat.add_sub_of_le hpart)
  | expression => exact exists_expression hp later

end

/-- Induction from the end of the tokens. -/
theorem induction_from_end {motive : Nat → Prop}
    (h : ∀ p, p ≤ size tokens → (∀ p', p < p' → p' ≤ size tokens → motive p') → motive p)
    (hp : p ≤ size tokens) : motive p := by
  induction hk : size tokens - p using Nat.strongRecOn generalizing p with
  | ind k ih =>
    subst hk
    exact h p hp fun p' hlt hp' => ih _ (by omega) hp' rfl

theorem returns (hp : p ≤ size tokens) : Returns tokens p :=
  induction_from_end (fun _ => returns_of_later) hp

theorem exists_expects (use : Use) (hp : p ≤ size tokens) :
    ∃ out q fs, Expects tokens use p out q fs := by
  obtain ⟨out, q, fs, h⟩ := returns hp .expression trivial
  cases out with
  | none => exact ⟨_, _, _, .fails h⟩
  | some e =>
    by_cases hclose : kind tokens q = use.closer
    · exact ⟨_, _, _, .closed h hclose⟩
    · exact ⟨_, _, _, .missing h hclose⟩

/-! ## Statements -/

theorem exists_boundary (hp : p ≤ size tokens) : ∃ q, Boundary tokens p q := by
  refine induction_from_end (motive := fun p => ∃ q, Boundary tokens p q) ?_ hp
  intro p hp later
  by_cases hend : kind tokens p = .eof
  · exact ⟨_, .ended hend⟩
  cases hfound : Parse.Reader.isBoundary (kind tokens (p - 1)) (current tokens p) with
  | true => exact ⟨_, .found hend hfound⟩
  | false =>
    obtain ⟨q, h⟩ := later (p + 1) (Nat.lt_succ_self p) (lt_size hp hend)
    exact ⟨_, .next hend hfound h⟩

theorem exists_variable (hp : p ≤ size tokens) (h : kind tokens p = .varKw) :
    ∃ tree q fs, Parses tokens .attempt p tree q fs := by
  by_cases hname : kind tokens (p + 1) = .identifier
  · have htwo := add_two_le_size hp (by simp [h]) (by simp [hname])
    by_cases hequal : kind tokens (p + 2) = .equal
    · obtain ⟨out, q, fs, hrest⟩ := exists_expects
        (.initializer ⟨(current tokens (p + 1)).lexeme, (current tokens (p + 1)).line⟩)
        (lt_size htwo (by simp [hequal]))
      exact ⟨_, _, _, .initialized h hname rfl hequal hrest⟩
    by_cases hend : kind tokens (p + 2) = .semicolon
    · exact ⟨_, _, _, .declared h hname hend⟩
    · exact ⟨_, _, _, .unended h hname (by simp [hequal, hend])⟩
  · exact ⟨_, _, _, .nameless h hname⟩

/-- Every call for a task that begins at the place returns. -/
def Settles (tokens : List Token) (p : Nat) : Prop :=
  ∀ task : Task, ∃ tree q fs, Parses tokens task p tree q fs

section

variable (hp : p ≤ size tokens) (later : ∀ p', p < p' → p' ≤ size tokens → Settles tokens p')

include hp later

theorem exists_if (h : kind tokens p = .ifKw) :
    ∃ tree q fs, Parses tokens .statement p tree q fs := by
  by_cases h' : kind tokens (p + 1) = .leftParen
  · have htwo := add_two_le_size hp (by simp [h]) (by simp [h'])
    obtain ⟨out, q, fs, hc⟩ := exists_expects .ifCondition htwo
    cases out with
    | none => exact ⟨_, _, _, .ifFails h h' hc⟩
    | some c =>
      have hq := hc.bounds htwo
      obtain ⟨tree, q', gs, hthen⟩ := later q (by omega) hq.2 .statement
      cases tree with
      | none => exact ⟨_, _, _, .thenFails h h' hc hthen⟩
      | some s =>
        by_cases helse : kind tokens q' = .elseKw
        · have hq' := hthen.bounds hq.2
          have hlt := lt_size hq'.2 (by simp [helse])
          obtain ⟨tree, q'', hs, hrest⟩ := later (q' + 1) (by omega) hlt .statement
          exact ⟨_, _, _, .ifElse h h' hc hthen helse hrest⟩
        · exact ⟨_, _, _, .ifThen h h' hc hthen helse⟩
  · exact ⟨_, _, _, .ifOpen h h'⟩

theorem exists_while (h : kind tokens p = .whileKw) :
    ∃ tree q fs, Parses tokens .statement p tree q fs := by
  by_cases h' : kind tokens (p + 1) = .leftParen
  · have htwo := add_two_le_size hp (by simp [h]) (by simp [h'])
    obtain ⟨out, q, fs, hc⟩ := exists_expects .loopCondition htwo
    cases out with
    | none => exact ⟨_, _, _, .whileFails h h' hc⟩
    | some c =>
      have hq := hc.bounds htwo
      obtain ⟨tree, q', gs, hbody⟩ := later q (by omega) hq.2 .statement
      exact ⟨_, _, _, .loop h h' hc hbody⟩
  · exact ⟨_, _, _, .whileOpen h h'⟩

theorem exists_statement : ∃ tree q fs, Parses tokens .statement p tree q fs := by
  by_cases hprint : kind tokens p = .printKw
  · obtain ⟨out, q, fs, h⟩ := exists_expects .value (lt_size hp (by simp [hprint]))
    exact ⟨_, _, _, .print hprint h⟩
  by_cases hblock : kind tokens p = .leftBrace
  · have hlt := lt_size hp (by simp [hblock])
    obtain ⟨tree, q, fs, h⟩ := later (p + 1) (Nat.lt_succ_self p) hlt (.block [])
    exact ⟨_, _, _, .block hblock h⟩
  by_cases hif : kind tokens p = .ifKw
  · exact exists_if hp later hif
  by_cases hwhile : kind tokens p = .whileKw
  · exact exists_while hp later hwhile
  obtain ⟨out, q, fs, h⟩ := exists_expects .statement hp
  exact ⟨_, _, _, .expression (by simp [hprint, hblock, hif, hwhile]) h⟩

theorem exists_attempt : ∃ tree q fs, Parses tokens .attempt p tree q fs := by
  by_cases hvar : kind tokens p = .varKw
  · exact exists_variable hp hvar
  · obtain ⟨tree, q, fs, h⟩ := exists_statement hp later
    exact ⟨_, _, _, .undeclared hvar h⟩

theorem exists_declaration : ∃ tree q fs, Parses tokens .declaration p tree q fs := by
  obtain ⟨tree, q, fs, h⟩ := exists_attempt hp later
  cases tree with
  | some s => exact ⟨_, _, _, .succeeds h⟩
  | none =>
    obtain ⟨q', hskip⟩ := exists_boundary (advance_bounds (h.bounds hp).2).2
    exact ⟨_, _, _, .recovers h hskip⟩

theorem exists_block (done : List Stmt) : ∃ tree q fs, Parses tokens (.block done) p tree q fs := by
  by_cases hclose : kind tokens p = .rightBrace
  · exact ⟨_, _, _, .closed hclose⟩
  by_cases hend : kind tokens p = .eof
  · exact ⟨_, _, _, .missing hend⟩
  obtain ⟨slot, q, fs, h⟩ := exists_declaration hp later
  have hlt := h.declaration_lt (lt_size hp hend)
  obtain ⟨tree, q', gs, h'⟩ := later q hlt (h.bounds hp).2 (.block (done ++ slot.toList))
  exact ⟨_, _, _, .next (by simp [hclose, hend]) h h'⟩

theorem settles_of_later : Settles tokens p := by
  intro task
  cases task with
  | statement => exact exists_statement hp later
  | attempt => exact exists_attempt hp later
  | declaration => exact exists_declaration hp later
  | block done => exact exists_block hp later done

end

theorem settles (hp : p ≤ size tokens) : Settles tokens p :=
  induction_from_end (fun _ => settles_of_later) hp

theorem exists_collects (hp : p ≤ size tokens) : ∃ slots q fs, Collects tokens p slots q fs := by
  refine induction_from_end (motive := fun p => ∃ slots q fs, Collects tokens p slots q fs) ?_ hp
  intro p hp later
  by_cases hend : kind tokens p = .eof
  · exact ⟨_, _, _, .ended hend⟩
  obtain ⟨slot, q, fs, h⟩ := settles hp .declaration
  have hlt := h.declaration_lt (lt_size hp hend)
  obtain ⟨slots, q', gs, h'⟩ := later q hlt (h.bounds hp).2
  exact ⟨_, _, _, .next hend h h'⟩

end Lox.Descent
