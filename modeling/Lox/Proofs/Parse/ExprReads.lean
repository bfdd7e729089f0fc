import Lox.Proofs.Grammar.Rules
import Lox.Proofs.Parse.Takes

/-!
# A derived expression is read to its end

* `ExprReader.Reads`: a reader reads tokens without a fault and without ending;
* `Fits`: a stack of pending operators waits for an operand of a rung (`close_of_fits`: operators
  of that rung complete nothing);
* `ExprReader.reads_of_expression`: a derived expression is read as an operand;
* `ExprReader.ended_of_expression`: what cannot belong to an expression ends it.
-/

namespace Lox.Parse

open Token (Kind)
open Grammar

theorem atom?_of_atom {t : Token} {e : Expr} (h : Atom t e) : atom? t = some e := by
  cases h <;> simp_all [atom?]

/-! ## Pending operators -/

/-- The operand that is waited for may hold operators of the level `n` and above. -/
def Fits (n : Nat) : List Pending → Prop
  | .unary _ _ :: _ => 7 ≤ n
  | .binary op _ _ :: _ => op.level < n
  | .logical op _ _ :: _ => op.level < n
  | _ => True

theorem Fits.mono {n m : Nat} {pending : List Pending} (h : Fits n pending) (hnm : n ≤ m) :
    Fits m pending := by
  unfold Fits at h ⊢
  split at h
  · exact Nat.le_trans h hnm
  · exact Nat.lt_of_lt_of_le h hnm
  · exact Nat.lt_of_lt_of_le h hnm
  · trivial

/-- An operator of the operand leaves what waits for the operand alone. -/
theorem close_of_fits {n : Nat} {pending : List Pending} (h : Fits n pending) (hpos : 0 < n)
    (hn : n < 7) (e : Expr) : close n e pending = ⟨e, pending, []⟩ := by
  unfold close
  split
  · rw [Fits] at h
    omega
  · rw [Fits] at h
    rw [if_neg (by omega)]
  · rw [Fits] at h
    rw [if_neg (by omega)]
  · rw [if_neg (by omega)]
  · rfl
  · rfl

namespace ExprReader

/-! ## Tokens of an expression -/

/-- The tokens belong to the expression and bring no fault. -/
inductive Reads : ExprReader → List Placed → ExprReader → Prop
  | nil {reader : ExprReader} : Reads reader [] reader
  | cons {reader next last : ExprReader} {t : Placed} {ps : List Placed} :
      reader.read t = .next next [] → Reads next ps last → Reads reader (t :: ps) last

theorem Reads.append {reader next last : ExprReader} {ps qs : List Placed}
    (h : Reads reader ps next) (h' : Reads next qs last) : Reads reader (ps ++ qs) last := by
  induction h with
  | nil => exact h'
  | cons hread _ ih => exact .cons hread (ih h')

theorem read_atom {t : Placed} {e : Expr} (pending : List Pending) (h : Atom t.toToken e) :
    (operand pending).read t = .next (operator e pending) [] := by
  have hop : UnaryOp.ofKind? t.kind = none := by cases h <;> simp_all [UnaryOp.ofKind?]
  have hne : t.kind ≠ .leftParen := by cases h <;> simp_all
  simp only [read, readOperand, hop, if_neg hne, atom?_of_atom h]

theorem read_unary {t : Placed} {op : UnaryOp} (pending : List Pending) (h : t.kind = op.kind) :
    (operand pending).read t = .next (operand (.unary op t.line :: pending)) [] := by
  simp only [read, readOperand, UnaryOp.ofKind?_eq_some_iff.mpr h]

theorem read_leftParen {t : Placed} (pending : List Pending) (h : t.kind = .leftParen) :
    (operand pending).read t = .next (operand (.paren :: pending)) [] := by
  simp [read, readOperand, h, UnaryOp.ofKind?]

theorem read_binary {t : Placed} {op : BinaryOp} {v l : Expr} {p pending : List Pending}
    (h : t.kind = op.kind) (hc : close op.level v p = ⟨l, pending, []⟩) :
    (operator v p).read t = .next (operand (.binary op t.line l :: pending)) [] := by
  simp only [read, readOperator, BinaryOp.ofKind?_eq_some_iff.mpr h, hc]

theorem read_logical {t : Placed} {op : LogicalOp} {v l : Expr} {p pending : List Pending}
    (h : t.kind = op.kind) (hc : close op.level v p = ⟨l, pending, []⟩) :
    (operator v p).read t = .next (operand (.logical op t.line l :: pending)) [] := by
  have hb : BinaryOp.ofKind? t.kind = none := by rw [h]; cases op <;> rfl
  simp only [read, readOperator, hb, LogicalOp.ofKind?_eq_some_iff.mpr h, hc]

theorem read_equal {t : Placed} {v l : Expr} {p pending : List Pending} (h : t.kind = .equal)
    (hc : close 1 v p = ⟨l, pending, []⟩) :
    (operator v p).read t = .next (operand (.assign l t :: pending)) [] := by
  simp [read, readOperator, h, BinaryOp.ofKind?, LogicalOp.ofKind?, hc]

theorem read_rightParen {t : Placed} {v e : Expr} {p rest : List Pending}
    (h : t.kind = .rightParen) (hc : close 0 v p = ⟨e, .paren :: rest, []⟩) :
    (operator v p).read t = .next (operator (.grouping e) rest) [] := by
  simp [read, readOperator, readClosing, h, BinaryOp.ofKind?, LogicalOp.ofKind?, hc]

/-- An operator between two operands that are read, of which the right one stands higher. -/
theorem reads_infix {level : Nat} {v r e : Expr} {f : Pending} {p pending : List Pending}
    {qs rs : List Placed} {t : Placed} (hleft : Reads (operand pending) qs (operator v p))
    (hop : (operator v p).read t = .next (operand (f :: pending)) [])
    (hright : ∃ v p, Reads (operand (f :: pending)) rs (operator v p) ∧
      ∀ n ≤ level + 1, close n v p = close n r (f :: pending))
    (hf : ∀ n ≤ level, close n r (f :: pending) = close n e pending) :
    ∃ v p, Reads (operand pending) (qs ++ t :: rs) (operator v p) ∧
      ∀ n ≤ level, close n v p = close n e pending := by
  obtain ⟨w, q, hread, hclose⟩ := hright
  refine ⟨w, q, hleft.append (.cons hop hread), fun n hn => ?_⟩
  rw [hclose n (Nat.le_succ_of_le hn), hf n hn]

/-- A derived expression is read as the operand that is waited for. The value held then may be a
part of it: completing the operators up to any level of the rung gives the same either way. -/
theorem reads_of_expression {g : Rung} {ts : List Token} {e : Expr} (h : Expression g ts e)
    (pending : List Pending) {ps : List Placed} (hfit : Fits g.rank pending)
    (hps : ps.map (·.toToken) = ts) : ∃ v p, Reads (operand pending) ps (operator v p) ∧
      ∀ n ≤ g.rank, close n v p = close n e pending := by
  -- The value held may be the last operand only. The operators before it are pending then, and
  -- are completed whenever something of the rung of the expression or below is.
  induction h generalizing pending ps with
  | atom ha =>
    obtain ⟨t, rfl, rfl⟩ := List.map_eq_singleton_iff.mp hps
    exact ⟨_, _, .cons (read_atom pending ha) .nil, fun _ _ => rfl⟩
  | grouping hl _ hr ih =>
    obtain ⟨l, qs, rfl, rfl, htail⟩ := List.map_eq_cons_iff.mp hps
    obtain ⟨qs, rs, rfl, hqs, hrs⟩ := List.map_eq_append_iff.mp htail
    obtain ⟨r, rfl, rfl⟩ := List.map_eq_singleton_iff.mp hrs
    obtain ⟨v, p, hread, hclose⟩ := ih (.paren :: pending) trivial hqs
    have hfin := read_rightParen hr (hclose 0 (Nat.zero_le _))
    exact ⟨_, _, .cons (read_leftParen pending hl) (hread.append (.cons hfin .nil)),
      fun _ _ => rfl⟩
  | @unary t ts op e hk _ ih =>
    obtain ⟨t, qs, rfl, rfl, hqs⟩ := List.map_eq_cons_iff.mp hps
    obtain ⟨v, p, hread, hclose⟩ := ih (.unary op t.line :: pending) (Nat.le_refl _) hqs
    exact ⟨v, p, .cons (read_unary pending hk) hread, hclose⟩
  | @binary t us vs op l r _ hk _ ihl ihr =>
    obtain ⟨qs, tail, rfl, hqs, htail⟩ := List.map_eq_append_iff.mp hps
    obtain ⟨t, rs, rfl, rfl, hrs⟩ := List.map_eq_cons_iff.mp htail
    have hpos : 0 < op.level := by cases op <;> decide
    have hlt : op.level < 7 := by cases op <;> decide
    have hnext : (binaryRung op).next.rank = op.level + 1 := by cases op <;> rfl
    rw [rank_binaryRung] at hfit ihl ⊢
    obtain ⟨v, p, hread, hclose⟩ := ihl pending hfit hqs
    have hop := read_binary hk ((hclose _ (Nat.le_refl _)).trans (close_of_fits hfit hpos hlt l))
    have hright := ihr (.binary op t.line l :: pending) (by rw [hnext, Fits]; omega) hrs
    rw [hnext] at hright
    exact reads_infix hread hop hright fun n hn => by rw [close, if_pos hn]
  | @logical t us vs op l r _ hk _ ihl ihr =>
    obtain ⟨qs, tail, rfl, hqs, htail⟩ := List.map_eq_append_iff.mp hps
    obtain ⟨t, rs, rfl, rfl, hrs⟩ := List.map_eq_cons_iff.mp htail
    have hpos : 0 < op.level := by cases op <;> decide
    have hlt : op.level < 7 := by cases op <;> decide
    have hnext : (logicalRung op).next.rank = op.level + 1 := by cases op <;> rfl
    rw [rank_logicalRung] at hfit ihl ⊢
    obtain ⟨v, p, hread, hclose⟩ := ihl pending hfit hqs
    have hop := read_logical hk ((hclose _ (Nat.le_refl _)).trans (close_of_fits hfit hpos hlt l))
    have hright := ihr (.logical op t.line l :: pending) (by rw [hnext, Fits]; omega) hrs
    rw [hnext] at hright
    exact reads_infix hread hop hright fun n hn => by rw [close, if_pos hn]
  | @assign n q ts e hn hq _ ih =>
    obtain ⟨n, tail, rfl, rfl, htail⟩ := List.map_eq_cons_iff.mp hps
    obtain ⟨q, qs, rfl, rfl, hqs⟩ := List.map_eq_cons_iff.mp htail
    have hequal := read_equal (v := .var ⟨n.lexeme, n.line⟩) hq
      (close_of_fits (hfit.mono (Nat.zero_le 1)) Nat.one_pos (by decide) _)
    obtain ⟨v, p, hread, hclose⟩ := ih (.assign _ q :: pending) trivial hqs
    refine ⟨v, p, .cons (read_atom pending (.name hn)) (.cons hequal hread), fun m hm => ?_⟩
    obtain rfl : m = 0 := Nat.le_zero.mp hm
    rw [hclose 0 (Nat.le_refl _)]
    rfl
  | @above g ts e _ ih =>
    have hle : g.rank ≤ g.next.rank := by
      have hg := g.rank_le
      rw [Rung.rank_next]
      omega
    obtain ⟨v, p, hread, hclose⟩ := ih pending (hfit.mono hle) hps
    exact ⟨v, p, hread, fun n hn => hclose n (Nat.le_trans hn hle)⟩

theorem ended_of_expression {ts : List Token} {e : Expr} {ps : List Placed}
    (h : Expression .assignment ts e) (hps : ps.map (·.toToken) = ts) :
    ∃ reader, Reads start ps reader ∧
      ∀ t : Placed, endsExpression t.kind = true → reader.read t = .ended e [] := by
  obtain ⟨v, p, hread, hclose⟩ := reads_of_expression h [] trivial hps
  refine ⟨_, hread, fun t ht => ?_⟩
  simp only [read, readOperator_of_endsExpression ht, readClosing, hclose 0 (Nat.le_refl _)]
  rfl

end ExprReader

end Lox.Parse
