import Lox.Proofs.Grammar.Rules
import Lox.Proofs.Parse.Takes

/-!
# What an expression reader holds derives from what it has read

* `Opens`: the tokens before the operand that a stack of pending operators waits for;
* `Closes`, `close_closes`: completing pending operators regroups the tokens read;
* `ExprReader.Spells`: the tokens that a reader has read;
* `ExprReader.spells_read`, `ExprReader.expression_of_ended`: one more token, and the end.
-/

namespace Lox.Parse

open Token (Kind)
open Grammar

theorem atom_of_atom? {t : Token} {e : Expr} (h : atom? t = some e) : Atom t e := by
  unfold atom? at h
  split at h <;> cases h
  · exact .ofFalse ‹_›
  · exact .ofTrue ‹_›
  · exact .ofNil ‹_›
  · exact .number ‹_›
  · exact .string ‹_›
  · exact .name ‹_›

/-! ## Pending operators -/

/-- The tokens `ts` lead to pending operators `ps` whose operand stands on the rung. -/
inductive Opens : Rung → List Pending → List Token → Prop
  | nil : Opens .assignment [] []
  | unary {g : Rung} {ps : List Pending} {ts : List Token} {t : Token} {op : UnaryOp} :
      Opens g ps ts → t.kind = op.kind → Opens .unary (.unary op t.line :: ps) (ts ++ [t])
  | binary {g : Rung} {ps : List Pending} {ts us : List Token} {t : Token} {op : BinaryOp}
      {l : Expr} : Opens g ps ts → g.rank ≤ op.level → Expression (binaryRung op) us l →
      t.kind = op.kind →
      Opens (binaryRung op).next (.binary op t.line l :: ps) (ts ++ (us ++ [t]))
  | logical {g : Rung} {ps : List Pending} {ts us : List Token} {t : Token} {op : LogicalOp}
      {l : Expr} : Opens g ps ts → g.rank ≤ op.level → Expression (logicalRung op) us l →
      t.kind = op.kind →
      Opens (logicalRung op).next (.logical op t.line l :: ps) (ts ++ (us ++ [t]))
  | assign {ps : List Pending} {ts us : List Token} {q : Placed} {e : Expr} {g : Rung} :
      Opens .assignment ps ts → Expression g us e → q.kind = .equal →
      Opens .assignment (.assign e q :: ps) (ts ++ (us ++ [q.toToken]))
  | paren {g : Rung} {ps : List Pending} {ts : List Token} {t : Token} :
      Opens g ps ts → t.kind = .leftParen → Opens .assignment (.paren :: ps) (ts ++ [t])

namespace Opens

variable {g : Rung} {ps : List Pending} {ts : List Token}

theorem rank_le (h : Opens g ps ts) : g.rank ≤ 7 := by
  cases h with
  | @binary _ _ _ _ _ op => cases op <;> decide
  | @logical _ _ _ _ _ op => cases op <;> decide
  | _ => decide

/-- The operand of an assignment or parenthesis stands on the lowest rung, all others two or more
above it. -/
theorem eq_assignment (h : Opens g ps ts) (hg : g.rank ≤ 1) : g = .assignment := by
  cases h with
  | unary => simp [Rung.rank] at hg
  | @binary _ _ _ _ _ op => cases op <;> simp_all [binaryRung, Rung.next, Rung.rank]
  | @logical _ _ _ _ _ op => cases op <;> simp_all [logicalRung, Rung.next, Rung.rank]
  | _ => rfl

end Opens

/-- What is closed down to a level of binding, spelt by the tokens `ts`: a value on a rung at
least as high, behind pending operators that bind looser. -/
def Closes (level : Nat) (c : Closed) (ts : List Token) : Prop :=
  ∃ g h us vs, ts = us ++ vs ∧ Opens g c.pending us ∧ Expression h vs c.value ∧
    g.rank ≤ level ∧ level ≤ h.rank

/-- Completing pending operators without a fault regroups the tokens read. -/
theorem close_closes {level : Nat} (hlevel : level ≤ 7) {g : Rung} {ps : List Pending}
    {ts : List Token} (hps : Opens g ps ts) {h : Rung} {us : List Token} {e : Expr}
    (he : Expression h us e) (hgh : g.rank ≤ h.rank) (hh : level ≤ h.rank)
    (hf : (close level e ps).faults = []) : Closes level (close level e ps) (ts ++ us) := by
  -- The stack is completed from its top, and each operator makes a larger operand for the next.
  induction hps generalizing h us e with
  | nil => exact ⟨_, _, _, _, rfl, .nil, he, Nat.zero_le _, hh⟩
  | @unary g ps ts t op hps hk ih =>
    rw [List.append_assoc]
    exact ih (.unary hk (he.lower hgh)) hps.rank_le hlevel hf
  | @binary g ps ts us' t op l hps hg hl hk ih =>
    rw [close] at hf ⊢
    split_ifs at hf ⊢ with hop
    · have hb := Expression.binary hl hk (he.lower hgh)
      rw [← rank_binaryRung] at hg hop
      simpa using ih hb hg hop hf
    · have hnext := (binaryRung op).rank_next
      rw [rank_binaryRung] at hnext
      exact ⟨_, _, _, _, rfl, .binary hps hg hl hk, he, by omega, hh⟩
  | @logical g ps ts us' t op l hps hg hl hk ih =>
    rw [close] at hf ⊢
    split_ifs at hf ⊢ with hop
    · have hb := Expression.logical hl hk (he.lower hgh)
      rw [← rank_logicalRung] at hg hop
      simpa using ih hb hg hop hf
    · have hnext := (logicalRung op).rank_next
      rw [rank_logicalRung] at hnext
      exact ⟨_, _, _, _, rfl, .logical hps hg hl hk, he, by omega, hh⟩
  | @assign ps ts us' q e' g' hps ht hk ih =>
    unfold close at hf ⊢
    split_ifs at hf ⊢ with hzero
    · subst hzero
      cases e' with
      | var n =>
        obtain ⟨n, rfl, hn, rfl⟩ := ht.eq_of_var
        have ha := Expression.assign hn hk (he.lower (Nat.zero_le _))
        simpa using ih ha (Nat.zero_le _) (Nat.zero_le _) hf
      | _ => cases hf
    · exact ⟨_, _, _, _, rfl, .assign hps ht hk, he, Nat.zero_le _, hh⟩
  | paren hps hk ih => exact ⟨_, _, _, _, rfl, .paren hps hk, he, Nat.zero_le _, hh⟩

/-! ## Readers -/

namespace ExprReader

/-- The tokens that a reader has read. An operand stands on the highest rung: operators before it
are completed when the token behind it is known. -/
inductive Spells : ExprReader → List Token → Prop
  | operand {g : Rung} {ps : List Pending} {ts : List Token} :
      Opens g ps ts → Spells (operand ps) ts
  | operator {g : Rung} {ps : List Pending} {ts us : List Token} {e : Expr} :
      Opens g ps ts → Expression .primary us e → Spells (operator e ps) (ts ++ us)

theorem spells_start : start.Spells [] := .operand .nil

variable {reader : ExprReader} {ts : List Token} {t : Placed}

theorem readOperand_ne_ended {ps : List Pending} {e : Expr} {fs : List Fault} :
    (operand ps).read t ≠ .ended e fs := by
  intro h
  have htakes := (operand ps).takes t
  rw [h] at htakes
  cases htakes

/-- What waits for an operand is completed without faults down to a level. -/
theorem closes_of_primary {level : Nat} (hlevel : level ≤ 7) {g : Rung} {ps : List Pending}
    {us : List Token} {e : Expr} (hps : Opens g ps ts) (he : Expression .primary us e)
    (hf : (close level e ps).faults = []) : Closes level (close level e ps) (ts ++ us) :=
  close_closes hlevel hps he (Nat.le_trans hps.rank_le (by decide))
    (Nat.le_trans hlevel (by decide)) hf

theorem Takes.spells {step : ExprStep} {next : ExprReader} (h : Takes t reader step)
    (hs : reader.Spells ts) (hstep : step = .next next []) :
    next.Spells (ts ++ [t.toToken]) := by
  cases hs with
  | operand hps =>
    cases h with
    | unary hop =>
      cases hstep
      exact .operand (.unary hps (UnaryOp.ofKind?_eq_some_iff.mp hop))
    | openParen hk =>
      cases hstep
      exact .operand (.paren hps hk)
    | atom hatom =>
      cases hstep
      exact .operator hps (.atom (atom_of_atom? hatom))
    | noOperand => cases hstep
  | @operator _ ps ts us e hps he =>
    cases h with
    | @binary _ _ op hop =>
      cases hstep
      have hlevel : op.level ≤ 7 := by cases op <;> decide
      have hpos : 0 < op.level := by cases op <;> decide
      obtain ⟨g', h, ws, vs, heq, hw, hv, hg, hh⟩ :=
        closes_of_primary hlevel hps he (close_faults hpos e ps)
      rw [heq, List.append_assoc]
      rw [← rank_binaryRung] at hh
      exact .operand (.binary hw hg (hv.lower hh) (BinaryOp.ofKind?_eq_some_iff.mp hop))
    | @logical _ _ op hop =>
      cases hstep
      have hlevel : op.level ≤ 7 := by cases op <;> decide
      have hpos : 0 < op.level := by cases op <;> decide
      obtain ⟨g', h, ws, vs, heq, hw, hv, hg, hh⟩ :=
        closes_of_primary hlevel hps he (close_faults hpos e ps)
      rw [heq, List.append_assoc]
      rw [← rank_logicalRung] at hh
      exact .operand (.logical hw hg (hv.lower hh) (LogicalOp.ofKind?_eq_some_iff.mp hop))
    | assign hequal =>
      cases hstep
      obtain ⟨g', h, ws, vs, heq, hw, hv, hg, -⟩ :=
        closes_of_primary (by decide) hps he (close_faults Nat.one_pos e ps)
      obtain rfl := hw.eq_assignment hg
      rw [heq, List.append_assoc]
      exact .operand (.assign hw hv hequal)
    | closeParen hparen hk =>
      simp only [ExprStep.next.injEq] at hstep
      obtain ⟨rfl, hf⟩ := hstep
      obtain ⟨g', h, ws, vs, heq, hw, hv, -, -⟩ := closes_of_primary (by decide) hps he hf
      rw [hparen] at hw
      cases hw with
      | @paren _ _ xs l hx hl =>
        rw [heq]
        simpa using Spells.operator hx (.grouping hl (hv.lower (Nat.zero_le _)) hk)
    | unclosed => cases hstep
    | ended => cases hstep

theorem spells_read {next : ExprReader} (hs : reader.Spells ts)
    (hr : reader.read t = .next next []) : next.Spells (ts ++ [t.toToken]) :=
  (reader.takes t).spells hs hr

theorem Takes.expression {step : ExprStep} {e : Expr} (h : Takes t reader step)
    (hs : reader.Spells ts) (hstep : step = .ended e []) : Expression .assignment ts e := by
  cases h with
  | ended _ hnil =>
    cases hs with
    | operator hps he =>
      simp only [ExprStep.ended.injEq] at hstep
      obtain ⟨rfl, hf⟩ := hstep
      obtain ⟨g', h, ws, vs, heq, hw, hv, -, -⟩ := closes_of_primary (by decide) hps he hf
      rw [hnil] at hw
      cases hw
      rw [heq, List.nil_append]
      exact hv.lower (Nat.zero_le _)
  | _ => cases hstep

theorem expression_of_ended {e : Expr} (hs : reader.Spells ts)
    (hr : reader.read t = .ended e []) : Expression .assignment ts e :=
  (reader.takes t).expression hs hr

end ExprReader

end Lox.Parse
