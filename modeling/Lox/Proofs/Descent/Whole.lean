import Lox.Proofs.Descent.Expressions
import Lox.Proofs.Descent.Total

/-!
# Whole expressions

An expression that must span all tokens is read by the same rules, from the first place. What it
amounts to is what a reader makes of the tokens one by one.

* `Whole`: how a call for a whole expression returns; `Whole.unique`, `Whole.le_size`;
* `outcome`: what a reader makes of the tokens from a place on (`outcome_of_failed`,
  `outcome_of_ended`);
* `Whole.parseExpr`, `exists_whole`: what the call returns is what is read.
-/

namespace Lox.Parse

open Token (Kind)

/-- At the end of the tokens there is no expression for the cause for which an end would be no
part of it. -/
theorem ExprReader.finish_of_failed {reader : ExprReader} {t : Placed} {cause : Cause}
    {fs : List Fault} (ht : t.kind = .eof) (h : reader.read t = .failed cause fs) :
    reader.finish = (.error cause, fs) := by
  cases reader with
  | operand pending =>
    simp only [read, readOperand, UnaryOp.ofKind?, atom?, ht, reduceCtorEq, if_false] at h
    cases h
    rfl
  | operator e pending =>
    rw [read, readOperator_of_endsExpression (by rw [ht]; rfl), readClosing] at h
    simp only [ht, reduceCtorEq, if_false] at h
    rw [finish]
    split at h
    · cases h
      rfl
    · cases h

end Lox.Parse

namespace Lox.Descent

open Token (Kind)
open Parse (Fault Cause ExprReader ExprRun body ending)

variable {tokens : List Token} {e : Expr} {out out' : Except Fault Expr} {p q q' : Nat}
  {fs gs : List Fault} {last : ExprReader} {cause : Cause}

/-- A call for an expression that must span all tokens returns with the tree, or with the fault
that prevents one, at the place and with all faults. The fault is the latest found. -/
inductive Whole (tokens : List Token) : Except Fault Expr → Nat → List Fault → Prop
  | spans {e : Expr} {q : Nat} {fs : List Fault} : Reads tokens .expression 0 (some e) q fs →
      kind tokens q = .eof → Whole tokens (.ok e) q fs
  | continues {e : Expr} {q : Nat} {fs : List Fault} :
      Reads tokens .expression 0 (some e) q fs → kind tokens q ≠ .eof →
      Whole tokens (.error ⟨current tokens q, .endOfExpression⟩) q
        (fs ++ [⟨current tokens q, .endOfExpression⟩])
  | fails {f : Fault} {q : Nat} {fs : List Fault} :
      Reads tokens .expression 0 none q (fs ++ [f]) → Whole tokens (.error f) q (fs ++ [f])

theorem Whole.unique (h : Whole tokens out q fs) (h' : Whole tokens out' q' gs) :
    out = out' ∧ q = q' ∧ fs = gs := by
  cases h with
  | spans h | continues h => cases h' <;> grind [Reads.unique]
  | fails h =>
    cases h' with
    | spans h' | continues h' => cases (h.unique h').1
    | fails h' =>
      obtain ⟨-, rfl, heq⟩ := h.unique h'
      obtain ⟨rfl, hf⟩ := List.append_inj' heq rfl
      cases hf
      exact ⟨rfl, rfl, rfl⟩

theorem Whole.le_size (h : Whole tokens out q fs) : q ≤ size tokens := by
  cases h with
  | spans h | continues h | fails h => exact (h.bounds (Nat.zero_le _)).2

/-! ## The tokens behind a place -/

/-- What a reader makes of the tokens from a place on, behind some faults. -/
def outcome (tokens : List Token) (reader : ExprReader) (gs : List Fault) (p : Nat) :
    Except Fault Expr × List Fault :=
  (((body tokens).drop p).foldl ExprRun.read ⟨.ok reader, gs.reverse⟩).finish (ending tokens)

theorem parseExpr_eq_outcome (tokens : List Token) :
    Parse.parseExpr tokens = outcome tokens .start [] 0 := rfl

theorem Reaches.outcome (h : Reaches tokens .start 0 fs last q) :
    outcome tokens .start [] 0 = outcome tokens last fs q := by
  rw [Descent.outcome, ← between_append_drop h.1, List.foldl_append,
    Parse.foldl_exprRun_walk h.2, List.reverse_nil, List.append_nil]
  rfl

theorem outcome_size (tokens : List Token) (last : ExprReader) (gs : List Fault) :
    outcome tokens last gs (size tokens) =
      ExprRun.finish ⟨.ok last, gs.reverse⟩ (ending tokens) := by
  rw [outcome, size, ← Parse.length_body, List.drop_length]
  rfl

theorem outcome_of_read {f : Fault} {hs : List Fault} (hq : q < size tokens)
    (h : ExprRun.read ⟨.ok last, gs.reverse⟩ (current tokens q) = ⟨.error f, hs⟩) :
    outcome tokens last gs q = (.error f, hs.reverse) := by
  rw [outcome, drop_body hq, List.foldl_cons, h, Parse.foldl_exprRun_error]
  rfl

theorem outcome_of_failed (hq : q ≤ size tokens)
    (h : last.read (current tokens q) = .failed cause fs) :
    outcome tokens last gs q =
      (.error ⟨current tokens q, cause⟩, gs ++ fs ++ [⟨current tokens q, cause⟩]) := by
  rcases Nat.lt_or_eq_of_le hq with hlt | rfl
  · rw [outcome_of_read hlt (by simp only [ExprRun.read, h]; rfl)]
    simp
  · have hfinish := ExprReader.finish_of_failed (kind_size tokens) h
    rw [outcome_size, current_size, ExprRun.finish]
    simp [hfinish]

theorem outcome_of_ended (hq : q ≤ size tokens)
    (h : last.read (current tokens q) = .ended e fs) :
    (kind tokens q = .eof → outcome tokens last gs q = (.ok e, gs ++ fs)) ∧
    (kind tokens q ≠ .eof → outcome tokens last gs q =
      (.error ⟨current tokens q, .endOfExpression⟩,
        gs ++ fs ++ [⟨current tokens q, .endOfExpression⟩])) := by
  refine ⟨fun hend => ?_, fun hne => ?_⟩
  · obtain rfl := eq_size hq hend
    have hends : ExprReader.endsExpression (current tokens (size tokens)).kind = true := by
      rw [show (current tokens (size tokens)).kind = .eof from hend]
      rfl
    have hfinish := (ExprReader.read_eq_ended_iff hends).mp h
    rw [outcome_size, ExprRun.finish]
    simp [hfinish]
  · rw [outcome_of_read (lt_size hq hne) (by simp only [ExprRun.read, h]; rfl)]
    simp

/-! ## What is read -/

theorem Reads.exists_fault (h : Reads tokens .expression p none q fs) (hp : p ≤ size tokens) :
    ∃ gs f, fs = gs ++ [f] := by
  have hfollows : Follows tokens 0 .start [] p none q fs := h.follows hp trivial rfl
  cases hfollows with
  | fails hfails =>
    obtain ⟨-, last, early, cause, late, -, -, rfl⟩ := hfails
    exact ⟨_, _, rfl⟩

theorem Whole.parseExpr (h : Whole tokens out q fs) : Parse.parseExpr tokens = (out, fs) := by
  have hread : ∀ {out q fs}, Reads tokens .expression 0 out q fs →
      Follows tokens 0 .start [] 0 out q fs := fun h => h.follows (Nat.zero_le _) trivial rfl
  have hle := h.le_size
  -- Up to the place of return the reader is in the state that the call amounts to; there it ends,
  -- at an end or with a fault.
  rw [parseExpr_eq_outcome]
  cases h with
  | spans h hend =>
    cases hread h with
    | returns hreach hamounts =>
      rw [hreach.outcome]
      exact (outcome_of_ended hle (h.ended hamounts)).1 hend
  | continues h hne =>
    cases hread h with
    | returns hreach hamounts =>
      rw [hreach.outcome]
      exact (outcome_of_ended hle (h.ended hamounts)).2 hne
  | fails h =>
    cases hread h with
    | fails hfails =>
      obtain ⟨hq, last, early, cause, late, hreach, hfailed, heq⟩ := hfails
      obtain ⟨rfl, hf⟩ := List.append_inj' heq rfl
      cases hf
      rw [hreach.outcome]
      exact outcome_of_failed hq hfailed

theorem exists_whole (tokens : List Token) : ∃ out q fs, Whole tokens out q fs := by
  obtain ⟨out, q, fs, h⟩ := returns (Nat.zero_le (size tokens)) .expression trivial
  cases out with
  | none =>
    obtain ⟨gs, f, rfl⟩ := h.exists_fault (Nat.zero_le _)
    exact ⟨_, _, _, .fails h⟩
  | some e =>
    by_cases hend : kind tokens q = .eof
    · exact ⟨_, _, _, .spans h hend⟩
    · exact ⟨_, _, _, .continues h hend⟩

/-- The expression that the tokens make up is what the call for it returns. -/
theorem whole_parseExpr (tokens : List Token) :
    ∃ q, Whole tokens (Parse.parseExpr tokens).1 q (Parse.parseExpr tokens).2 := by
  obtain ⟨out, q, fs, h⟩ := exists_whole tokens
  rw [h.parseExpr]
  exact ⟨q, h⟩

end Lox.Descent
