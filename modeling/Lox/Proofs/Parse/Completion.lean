import Lox.Proofs.Parse.Reads
import Lox.Proofs.Parse.Steps

/-!
# Every beginning that is not at fault can be completed

A reader that has given up no declaration can be led to the end of a program from wherever it
stands: the current expression, its parentheses, its statement and the open blocks are finished
one after the other.

* `place`: tokens with their places, from a given one on;
* `Reader.Completable`: some tokens lead to the end of a program;
* `Reader.completable_of_atRest`: behind a statement, block by block;
* `Reader.completable_of_operator`: inside an expression, parenthesis by parenthesis;
* `Reader.completable`: anywhere.
-/

namespace Lox.Parse

open Token (Kind)

/-- The tokens with their places, the first at place `n`. -/
def place (n : Nat) (ts : List Token) : List Placed := (ts.zipIdx n).map fun (t, i) => ⟨t, i⟩

theorem body_eq (tokens : List Token) : body tokens = place 0 (before tokens) := rfl

theorem place_cons (n : Nat) (t : Token) (ts : List Token) :
    place n (t :: ts) = ⟨t, n⟩ :: place (n + 1) ts := rfl

theorem place_append (n : Nat) (ts us : List Token) :
    place n (ts ++ us) = place n ts ++ place (n + ts.length) us := by
  rw [place, List.zipIdx_append, List.map_append]
  rfl

@[simp] theorem length_place (n : Nat) (ts : List Token) : (place n ts).length = ts.length := by
  simp [place]

/-- A token of a kind, with nothing else to it. -/
def bare (k : Kind) : Token := { kind := k, lexeme := "", line := 1 }

theorem length_close_le (level : Nat) (e : Expr) (pending : List Pending) :
    (close level e pending).pending.length ≤ pending.length := by
  induction pending generalizing e with
  | nil => exact Nat.le_refl _
  | cons p rest ih =>
    cases p with
    | unary op line => exact Nat.le_succ_of_le (ih _)
    | binary op line left | logical op line left =>
      rw [close]
      split
      · exact Nat.le_succ_of_le (ih _)
      · exact Nat.le_refl _
    | assign target equals =>
      unfold close
      split
      · split <;> exact Nat.le_succ_of_le (ih _)
      · exact Nat.le_refl _
    | paren => exact Nat.le_refl _

namespace Reader

/-- Some tokens lead the reader, which has read `n` tokens, to the end of a program. -/
def Completable (r : Reader) (n : Nat) : Prop :=
  ∃ cs : List Token, (∀ t ∈ cs, t.isEnd = false) ∧
    ∀ last, (((place n cs).foldl read r).finish last).blamed? = none

variable {r r' : Reader} {n : Nat}

theorem Completable.of_read {k : Kind} (hk : k ≠ .eof)
    (h : (r.read ⟨bare k, n⟩).Completable (n + 1)) : r.Completable n := by
  obtain ⟨cs, hcs, hend⟩ := h
  refine ⟨bare k :: cs, ?_, hend⟩
  intro t ht
  obtain rfl | ht := List.mem_cons.mp ht
  · exact beq_false_of_ne hk
  · exact hcs t ht

/-! ## Behind a statement -/

/-- A statement has just been read, or nothing yet in the block or program. -/
def AtRest (r : Reader) : Prop := r.mode = .declaration ∨ ∃ c s, r.mode = .maybeElse c s

theorem atRest_deliver (r : Reader) (s : Stmt) :
    (r.deliver s).AtRest ∧ (r.deliver s).blocks.length = r.blocks.length := by
  rw [deliver]
  cases r.blocks <;> exact ⟨.inl rfl, rfl⟩

theorem atRest_completeIn (r : Reader) (s : Stmt) (cs : List Clause) :
    (r.completeIn s cs).AtRest ∧ (r.completeIn s cs).blocks.length = r.blocks.length := by
  induction cs generalizing s with
  | nil => exact r.atRest_deliver s
  | cons c cs ih =>
    cases c with
    | thenBranch c => exact ⟨.inr ⟨c, s, rfl⟩, rfl⟩
    | elseBranch c t | loopBody c => exact ih _

/-- A closing brace leaves the innermost block, and the reader is at rest again. -/
theorem atRest_readDeclaration {t : Placed} (hb : r.blocks ≠ []) (ht : t.kind = .rightBrace) :
    (r.readDeclaration t).AtRest ∧
      (r.readDeclaration t).blocks.length + 1 = r.blocks.length ∧
      (r.readDeclaration t).faults = r.faults := by
  obtain ⟨b, bs, hb⟩ := List.exists_cons_of_ne_nil hb
  unfold readDeclaration
  simp only [ht, hb]
  obtain ⟨hrest, hlen⟩ := atRest_completeIn { r with blocks := bs, clauses := b.around }
    (.block b.done.reverse) b.around
  exact ⟨hrest, congrArg (· + 1) hlen, faults_complete _ _⟩

theorem atRest_read {t : Placed} (h : r.AtRest) (hb : r.blocks ≠ []) (ht : t.kind = .rightBrace) :
    (r.read t).AtRest ∧ (r.read t).blocks.length + 1 = r.blocks.length ∧
      (r.read t).faults = r.faults := by
  obtain hm | ⟨c, s, hm⟩ := h
  · simp only [read, hm]
    exact atRest_readDeclaration hb ht
  · simp only [read, hm, ht]
    have hlen : (r.settle (.ifThen c s)).blocks.length = r.blocks.length :=
      (r.atRest_deliver _).2
    rw [← faults_settle r (.ifThen c s), ← hlen]
    exact atRest_readDeclaration (by rwa [← List.length_pos_iff, hlen, List.length_pos_iff]) ht

theorem finish_atRest (h : r.AtRest) (hb : r.blocks = []) (last : Placed) :
    (r.finish last).faults = r.faults := by
  obtain hm | ⟨c, s, hm⟩ := h
  · simp only [finish, hm, closeBlocks, hb]
  · simp only [finish, hm]
    have hsettle : (r.settle (.ifThen c s)).blocks = [] := by
      rw [← List.length_eq_zero_iff]
      exact (r.atRest_deliver _).2.trans (by rw [hb]; rfl)
    rw [closeBlocks, hsettle]
    exact faults_settle _ _

/-- Behind a statement the open blocks are closed one by one. -/
theorem completable_of_atRest (h : r.AtRest) (hf : r.blamed? = none) : r.Completable n := by
  induction hk : r.blocks.length generalizing r n with
  | zero =>
    refine ⟨[], fun _ ht => absurd ht List.not_mem_nil, fun last => ?_⟩
    rw [place, List.zipIdx_nil, List.map_nil, List.foldl_nil, blamed?,
      finish_atRest h (List.length_eq_zero_iff.mp hk)]
    exact hf
  | succ k ih =>
    have hb : r.blocks ≠ [] := by
      rw [← List.length_pos_iff]
      omega
    obtain ⟨hrest, hlen, hfaults⟩ := atRest_read (t := ⟨bare .rightBrace, n⟩) h hb rfl
    refine .of_read (k := .rightBrace) (by decide) (ih hrest ?_ (by omega))
    rw [blamed?, hfaults]
    exact hf

theorem completable_of_statement (hm : r.mode = .statement) (hf : r.blamed? = none) :
    r.Completable n := by
  refine .of_read (k := .leftBrace) (by decide) (completable_of_atRest ?_ ?_)
  · rw [read, hm]
    exact .inl rfl
  · rw [read, hm]
    exact hf

/-! ## Inside an expression -/

theorem completable_of_completeUse {e : Expr} {use : Use}
    (hf : (r.completeUse e use).blamed? = none) : (r.completeUse e use).Completable n := by
  cases use with
  | value | statement | initializer =>
    exact completable_of_atRest (r.atRest_completeIn _ _).1 hf
  | ifCondition | loopCondition => exact completable_of_statement rfl hf

variable {use : Use} {e : Expr} {pending rest : List Pending} {t : Placed}

theorem read_closer (hm : r.mode = .expression use (.operator e pending))
    (hpending : (close 0 e pending).pending = []) (ht : t.kind = use.closer) :
    r.read t = { r with faults := (close 0 e pending).faults.reverse ++ r.faults }.completeUse
      (close 0 e pending).value use := by
  have hread : (ExprReader.operator e pending).read t =
      .ended (close 0 e pending).value (close 0 e pending).faults := by
    rw [ExprReader.read,
      ExprReader.readOperator_of_endsExpression (ht ▸ endsExpression_closer use),
      ExprReader.readClosing]
    simp only [hpending]
  simp only [read, hm, readExpression, hread]
  exact if_pos ht

theorem read_rightParen (hm : r.mode = .expression use (.operator e pending))
    (hpending : (close 0 e pending).pending = .paren :: rest) (ht : t.kind = .rightParen) :
    r.read t = { r with
      mode := .expression use (.operator (.grouping (close 0 e pending).value) rest)
      faults := (close 0 e pending).faults.reverse ++ r.faults } := by
  have hread : (ExprReader.operator e pending).read t =
      .next (.operator (.grouping (close 0 e pending).value) rest) (close 0 e pending).faults := by
    rw [ExprReader.read, ExprReader.readOperator_of_endsExpression (by rw [ht]; rfl),
      ExprReader.readClosing]
    simp only [hpending]
    exact if_pos ht
  simp only [read, hm, readExpression, hread]

/-- Behind an operand the parentheses around it are closed one by one. -/
theorem completable_of_operator (hm : r.mode = .expression use (.operator e pending))
    (hf : r.blamed? = none) : r.Completable n := by
  -- a closing parenthesis leaves fewer operators and parentheses pending
  induction hk : pending.length using Nat.strongRecOn generalizing r n e pending with
  | ind k ih =>
    have hminor := (close_minor 0 e pending).reverse
    rcases close_zero_pending e pending with hnil | ⟨rest, hparen⟩
    · have hread := read_closer (t := ⟨bare use.closer, n⟩) hm hnil rfl
      have hgoes : r.GoesOn (r.read ⟨bare use.closer, n⟩) := by
        rw [hread]
        exact ⟨isSkipping_completeUse _ _ _, _, hminor, faults_completeUse _ _ _⟩
      have hblamed := hgoes.blamed?.trans hf
      have hkind : use.closer ≠ .eof := by cases use <;> simp [Use.closer]
      refine .of_read hkind ?_
      rw [hread] at hblamed ⊢
      exact completable_of_completeUse hblamed
    · have hread := read_rightParen (t := ⟨bare .rightParen, n⟩) hm hparen rfl
      have hgoes : r.GoesOn (r.read ⟨bare .rightParen, n⟩) := by
        rw [hread]
        exact ⟨rfl, _, hminor, rfl⟩
      have hmode := congrArg Reader.mode hread
      have hlen : rest.length < pending.length := by
        have hle := length_close_le 0 e pending
        rw [hparen] at hle
        exact hle
      exact .of_read (k := .rightParen) (by decide)
        (ih rest.length (hk ▸ hlen) hmode (hgoes.blamed?.trans hf) rfl)

theorem completable_of_operand (hm : r.mode = .expression use (.operand pending))
    (hf : r.blamed? = none) : r.Completable n := by
  have hstep : r.read ⟨bare .nilKw, n⟩ =
      { r with mode := .expression use (.operator (.literal .nil) pending) } := by
    simp only [read, hm]
    rfl
  refine .of_read (k := .nilKw) (by decide) ?_
  rw [hstep]
  exact completable_of_operator rfl hf

/-! ## Anywhere -/

/-- A reader that has given up no declaration can be led to the end of a program. -/
theorem completable (h : r.mode.isSkipping = false) (hf : r.blamed? = none) : r.Completable n := by
  have hinitializer : ∀ {r : Reader} {n : Nat} (name : Name), r.mode = .initializer name →
      r.blamed? = none → r.Completable n := by
    intro r n name hm hf
    have hgoes := r.goesOn_complete (.declare name none)
    refine .of_read (k := .semicolon) (by decide) ?_
    rw [read, hm]
    exact completable_of_atRest (r.atRest_completeIn _ _).1 (hgoes.blamed?.trans hf)
  cases hm : r.mode with
  | declaration => exact completable_of_atRest (.inl hm) hf
  | maybeElse c s => exact completable_of_atRest (.inr ⟨c, s, hm⟩) hf
  | statement => exact completable_of_statement hm hf
  | variableName =>
    refine .of_read (k := .identifier) (by decide) ?_
    rw [read, hm]
    exact hinitializer _ rfl hf
  | initializer name => exact hinitializer name hm hf
  | ifHeader | loopHeader =>
    refine .of_read (k := .leftParen) (by decide) ?_
    rw [read, hm]
    exact completable_of_operand rfl hf
  | expression use reader =>
    cases reader with
    | operand pending => exact completable_of_operand hm hf
    | operator e pending => exact completable_of_operator hm hf
  | skipping latest =>
    rw [hm] at h
    cases h

end Reader

end Lox.Parse
