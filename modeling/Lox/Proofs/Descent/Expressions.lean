import Lox.Proofs.Descent.Returns
import Lox.Proofs.Parse.Walks

/-!
# A reader follows the calls for expressions

A reader that takes the tokens one by one keeps on a stack what the rules keep in the calls that
have not returned. What it makes of all tokens from a place on is the same before and after a
call.

* `rest`: the program that a reader makes of the tokens from a place on;
* `rest_of_lt`, `rest_abandon`: one more token, and a declaration that is given up;
* `between`, `rest_between`: the tokens from one place up to another;
* `Loose`, `Reads.stops`: no operator is left that the call would have taken;
* `Reaches`, `Fails`: the tokens between two places belong to an expression, and a token that does
  not;
* `Follows`, `Reads.follows`: parts of an expression;
* `Expects.follows`: an expression and what must follow it.
-/

namespace Lox.Parse.Reader

open Token (Kind)

/-- Faults have been found, in order. -/
def found (r : Reader) (fs : List Fault) : Reader := { r with faults := fs.reverse ++ r.faults }

/-- An expression is being read. -/
def reading (r : Reader) (use : Use) (reader : ExprReader) : Reader :=
  { r with mode := .expression use reader }

/-- The current declaration has been given up with some faults, at a token of the given kind. -/
def abandon (r : Reader) (fs : List Fault) (k : Kind) : Reader :=
  { r with
    slots := if r.blocks.isEmpty then none :: r.slots else r.slots
    clauses := []
    mode := .skipping k
    faults := fs.reverse ++ r.faults }

variable (r : Reader) {use : Use} {reader next : ExprReader} {e : Expr} {fs : List Fault}
  {cause : Cause} {t : Placed}

@[simp] theorem found_found (fs gs : List Fault) :
    (r.found fs).found gs = r.found (fs ++ gs) := by
  simp [found]

@[simp] theorem abandon_found (fs gs : List Fault) (k : Kind) :
    (r.found fs).abandon gs k = r.abandon (fs ++ gs) k := by
  simp [found, abandon]

theorem fail_found (fs : List Fault) (t : Placed) (cause : Cause) :
    (r.found fs).fail t cause = r.abandon (fs ++ [⟨t, cause⟩]) t.kind := by
  simp [found, abandon, fail]

theorem read_reading (use : Use) (reader : ExprReader) (t : Placed) :
    (r.reading use reader).read t = r.readExpression use reader t :=
  r.readExpression_of_mode _ use reader t

/-! ## One more token of an expression -/

theorem read_of_next (h : reader.read t = .next next fs) :
    (r.reading use reader).read t = (r.found fs).reading use next := by
  simp only [read_reading, readExpression, h]
  rfl

theorem read_of_failed (h : reader.read t = .failed cause fs) :
    (r.reading use reader).read t = r.abandon (fs ++ [⟨t, cause⟩]) t.kind := by
  simp only [read_reading, readExpression, h]
  exact r.fail_found fs t cause

theorem read_of_ended (h : reader.read t = .ended e fs) (hk : t.kind = use.closer) :
    (r.reading use reader).read t = (r.found fs).completeUse e use := by
  simp only [read_reading, readExpression, h]
  exact if_pos hk

theorem read_of_not_ended (h : reader.read t = .ended e fs) (hk : t.kind ≠ use.closer) :
    (r.reading use reader).read t = r.abandon (fs ++ [⟨t, use.cause⟩]) t.kind := by
  simp only [read_reading, readExpression, h]
  exact (if_neg hk).trans (r.fail_found fs t use.cause)

theorem finish_of_isInside {r : Reader} (h : r.mode.isInside = true) :
    r.finish t = (r.read t).closeBlocks t := by
  unfold finish
  split <;> simp_all [Mode.isInside]

end Lox.Parse.Reader

namespace Lox.Descent

open Token (Kind)
open Parse (Placed Cause Fault Use Pending ExprReader Reader Program Fits atom? before body close
  close_faults close_of_fits ending)

/-! ## The tokens from a place on -/

/-- The program that a reader makes of the tokens from a place on. -/
def rest (tokens : List Token) (r : Reader) (p : Nat) : Program :=
  let r := (((body tokens).drop p).foldl Reader.read r).finish (ending tokens)
  ⟨r.slots.reverse, r.faults.reverse⟩

section

variable {tokens : List Token} {r x : Reader} {p : Nat} {fs : List Fault}

theorem current_size : current tokens (size tokens) = ending tokens := by
  rw [current, getElem?_size]
  rfl

theorem drop_body (h : p < size tokens) :
    (body tokens).drop p = current tokens p :: (body tokens).drop (p + 1) := by
  have hlt : p < (before tokens).length := h
  have hbody : p < (body tokens).length := by rwa [Parse.length_body]
  rw [List.drop_eq_getElem_cons hbody]
  congr 1
  have htoken : tokens[p]? = some (before tokens)[p] := by
    have hinit : before tokens <+: tokens := List.takeWhile_prefix _
    exact List.getElem?_eq_some_iff.mpr ⟨Nat.lt_of_lt_of_le hlt hinit.length_le,
      (hinit.getElem hlt).symm⟩
  simp [body, current, htoken]

theorem rest_of_lt (h : p < size tokens) :
    rest tokens r p = rest tokens (r.read (current tokens p)) (p + 1) := by
  rw [rest, drop_body h]
  rfl

theorem rest_size : rest tokens r (size tokens) = ⟨(r.finish (ending tokens)).slots.reverse,
    (r.finish (ending tokens)).faults.reverse⟩ := by
  rw [rest, size, ← Parse.length_body, List.drop_length]
  rfl

/-- Inside a declaration, what a token leads to is all that counts of a reader. -/
theorem rest_of_read (hp : p ≤ size tokens) (hr : r.mode.isInside = true)
    (hx : x.mode.isInside = true) (h : r.read (current tokens p) = x.read (current tokens p)) :
    rest tokens r p = rest tokens x p := by
  rcases Nat.lt_or_eq_of_le hp with hlt | rfl
  · rw [rest_of_lt hlt, rest_of_lt hlt, h]
  · rw [current_size] at h
    rw [rest_size, rest_size, Reader.finish_of_isInside hr, Reader.finish_of_isInside hx, h]

theorem rest_abandon (hp : p ≤ size tokens) (hr : r.mode.isInside = true)
    (h : r.read (current tokens p) = x.abandon fs (kind tokens p)) :
    rest tokens r p = rest tokens (x.abandon fs (kind tokens p)) (advance tokens p) := by
  rcases Nat.lt_or_eq_of_le hp with hlt | rfl
  · rw [rest_of_lt hlt, h, advance_of_lt hlt]
  · rw [advance_size, rest_size, rest_size, Reader.finish_of_isInside hr, ← current_size, h]
    rfl

end

/-! ## The tokens between two places -/

/-- The tokens from the first place up to the second. -/
def between (tokens : List Token) (p q : Nat) : List Placed := ((body tokens).drop p).take (q - p)

section

variable {tokens : List Token} {p q q' : Nat}

theorem between_self (tokens : List Token) (p : Nat) : between tokens p p = [] := by
  rw [between, Nat.sub_self, List.take_zero]

theorem between_of_lt (h : p < q) (hq : q ≤ size tokens) :
    between tokens p q = current tokens p :: between tokens (p + 1) q := by
  have hsucc : q - p = q - (p + 1) + 1 := by omega
  rw [between, drop_body (Nat.lt_of_lt_of_le h hq), hsucc, List.take_succ_cons]
  rfl

theorem between_append_drop (h : p ≤ q) :
    between tokens p q ++ (body tokens).drop q = (body tokens).drop p := by
  have hdrop : ((body tokens).drop p).drop (q - p) = (body tokens).drop q := by
    rw [List.drop_drop, Nat.add_sub_of_le h]
  rw [between, ← hdrop, List.take_append_drop]

theorem between_append (h : p ≤ q) (h' : q ≤ q') :
    between tokens p q ++ between tokens q q' = between tokens p q' := by
  have hsplit : q' - p = q - p + (q' - q) := by omega
  rw [between, between, between, hsplit, List.take_add, List.drop_drop, Nat.add_sub_of_le h]

theorem rest_between (h : p ≤ q) (r : Reader) :
    rest tokens r p = rest tokens ((between tokens p q).foldl Reader.read r) q := by
  rw [rest, rest, ← List.foldl_append, between_append_drop h]

end

variable {tokens : List Token} {part : Part} {start next last : ExprReader}
  {pending pending' waiting : List Pending} {e e' value : Expr} {out : Option Expr} {use : Use}
  {n n' p q q' : Nat} {fs gs early late : List Fault}

/-! ## Where a call stops -/

/-- An operator at the place, if there is one, stands below the level. -/
def Loose (tokens : List Token) (n p : Nat) : Prop :=
  ∀ m tree, operator? (current tokens p).toToken = some (m, tree) → m < n

/-- What may follow a part. -/
def Part.Stops (tokens : List Token) : Part → Nat → Prop
  | operand, _ => True
  | level n, q | chain n _, q => Loose tokens n q
  | expression, q => ExprReader.endsExpression (kind tokens q) = true

theorem endsExpression_of_loose (h : Loose tokens 1 p) (hequal : kind tokens p ≠ .equal) :
    ExprReader.endsExpression (kind tokens p) = true := by
  have hnone : operator? (current tokens p).toToken = none := by
    by_contra hsome
    obtain ⟨⟨m, tree⟩, hop⟩ := Option.ne_none_iff_exists'.mp hsome
    have hlt := h m tree hop
    have hlevel := level_of_operator? hop
    omega
  obtain ⟨hbinary, hlogical⟩ := operator?_eq_none hnone
  rw [kind] at hequal ⊢
  simp [ExprReader.endsExpression, hbinary, hlogical, hequal]

/-- Behind a part there is no operator that belongs to it. -/
theorem Reads.stops (h : Reads tokens part p out q fs) (hout : out ≠ none)
    (hbefore : ∀ n left, part = .chain n left → Loose tokens (n + 1) p) : part.Stops tokens q := by
  induction h with
  | atom | unary | grouping => trivial
  | groupingOpen | groupingFails | noOperand | levelFails | moreFails | plainFails | valueFails =>
    exact absurd rfl hout
  | above => exact fun m tree hop => (level_of_operator? hop).2
  | level _ _ _ ihl ihr =>
    refine ihr hout fun m left heq => ?_
    cases heq
    exact ihl (Option.some_ne_none _) fun _ _ heq => nomatch heq
  | more _ _ _ ihl ihr =>
    refine ihr hout fun m left heq => ?_
    cases heq
    exact ihl (Option.some_ne_none _) fun _ _ heq => nomatch heq
  | noMore hno =>
    intro m tree hop
    refine Nat.lt_of_le_of_ne (Nat.le_of_lt_succ (hbefore _ _ rfl m tree hop)) ?_
    rintro rfl
    exact hno tree hop
  | plain _ hequal ih =>
    exact endsExpression_of_loose (ih hout fun _ _ heq => nomatch heq) hequal
  | assign _ _ _ _ ih | noTarget _ _ _ _ _ ih =>
    exact ih (Option.some_ne_none _) fun _ _ heq => nomatch heq

/-! ## Operands that wait to be completed -/

/-- Completing operators up to a level makes of the operand `v` what it makes of `e`, and finds the
faults `late` first. -/
def Amounts (n : Nat) (v : Expr) (waiting : List Pending) (e : Expr) (pending : List Pending)
    (late : List Fault) : Prop :=
  ∀ m ≤ n, close m v waiting =
    { close m e pending with faults := late ++ (close m e pending).faults }

namespace Amounts

variable {v w : Expr}

theorem refl (n : Nat) (e : Expr) (pending : List Pending) :
    Amounts n e pending e pending [] := fun _ _ => rfl

theorem mono (h : Amounts n v waiting e pending late) (hn : n' ≤ n) :
    Amounts n' v waiting e pending late := fun m hm => h m (Nat.le_trans hm hn)

theorem trans (h : Amounts n v waiting w pending' early)
    (h' : Amounts n w pending' e pending late) :
    Amounts n v waiting e pending (early ++ late) := by
  intro m hm
  rw [h m hm, h' m hm, List.append_assoc]

/-- Only assignments are found at fault, and they stand below all levels. -/
theorem late_eq_nil (h : Amounts n v waiting e pending late) (hn : 0 < n) : late = [] := by
  have hfaults := congrArg Parse.Closed.faults (h n (Nat.le_refl n))
  rw [close_faults hn] at hfaults
  exact (List.append_eq_nil_iff.mp hfaults.symm).1

theorem close_paren (h : Amounts 0 v waiting e (.paren :: pending) late) :
    close 0 v waiting = ⟨e, .paren :: pending, late⟩ := by
  rw [h 0 (Nat.le_refl 0), close, List.append_nil]

theorem close_nil (h : Amounts 0 v waiting e [] late) : close 0 v waiting = ⟨e, [], late⟩ := by
  rw [h 0 (Nat.le_refl 0), close, List.append_nil]

end Amounts

/-- An operator and its left operand wait for the right one. -/
theorem amounts_of_operator? {v left : Expr} {tree : Expr → Expr → Expr} {t : Placed}
    (hop : operator? t.toToken = some (n, tree)) (hleft : Amounts n v waiting left pending [])
    (hfit : Fits n pending) : ∃ f,
      (ExprReader.operator v waiting).read t = .next (.operand (f :: pending)) [] ∧
      Fits (n + 1) (f :: pending) ∧
      ∀ right, Amounts n right (f :: pending) (tree left right) pending [] := by
  obtain ⟨hpos, hlt⟩ := level_of_operator? hop
  have hclose : close n v waiting = ⟨left, pending, []⟩ := by
    rw [hleft n (Nat.le_refl n), close_of_fits hfit hpos hlt]
    rfl
  rcases of_operator? hop with ⟨op, hkind, rfl, rfl⟩ | ⟨op, hkind, rfl, rfl⟩
  · refine ⟨.binary op t.line left, ?_, Nat.lt_succ_self _, fun right m hm => ?_⟩
    · exact ExprReader.read_binary (BinaryOp.ofKind?_eq_some_iff.mp hkind) hclose
    · rw [close, if_pos hm]
      rfl
  · refine ⟨.logical op t.line left, ?_, Nat.lt_succ_self _, fun right m hm => ?_⟩
    · exact ExprReader.read_logical (LogicalOp.ofKind?_eq_some_iff.mp hkind) hclose
    · rw [close, if_pos hm]
      rfl

theorem amounts_assign (name : Name) (equals : Placed) (value : Expr) (pending : List Pending) :
    Amounts 0 value (.assign (.var name) equals :: pending) (.assign name value) pending [] := by
  intro m hm
  obtain rfl := Nat.le_zero.mp hm
  rfl

/-- Any other target is left alone, with a fault at the `=`. -/
theorem amounts_noTarget (h : ∀ name, e ≠ .var name) (equals : Placed) (value : Expr)
    (pending : List Pending) :
    Amounts 0 value (.assign e equals :: pending) e pending [⟨equals, .assignmentTarget⟩] := by
  intro m hm
  obtain rfl := Nat.le_zero.mp hm
  cases e with
  | var name => exact absurd rfl (h name)
  | _ => rfl

/-! ## From one reader to another -/

/-- The tokens up to a later place belong to the expression. Behind them the reader is in the second
state and has found the faults. -/
def Reaches (tokens : List Token) (start : ExprReader) (p : Nat) (fs : List Fault)
    (next : ExprReader) (q : Nat) : Prop :=
  p ≤ q ∧ start.walk (between tokens p q) = some (next, fs)

/-- The tokens up to a later place belong to the expression, and no expression goes on with the
token there. -/
def Fails (tokens : List Token) (start : ExprReader) (p : Nat) (fs : List Fault) (q : Nat) : Prop :=
  q ≤ size tokens ∧ ∃ last early cause late, Reaches tokens start p early last q ∧
    last.read (current tokens q) = .failed cause late ∧
    fs = early ++ late ++ [⟨current tokens q, cause⟩]

theorem Reaches.refl (tokens : List Token) (start : ExprReader) (p : Nat) :
    Reaches tokens start p [] start p := by
  refine ⟨Nat.le_refl p, ?_⟩
  rw [between_self]
  rfl

theorem Reaches.trans (h : Reaches tokens start p fs next q)
    (h' : Reaches tokens next q gs last q') : Reaches tokens start p (fs ++ gs) last q' := by
  refine ⟨Nat.le_trans h.1 h'.1, ?_⟩
  rw [← between_append h.1 h'.1]
  exact ExprReader.walk_append h.2 h'.2

theorem Reaches.fails (h : Reaches tokens start p fs next q) (h' : Fails tokens next q gs q') :
    Fails tokens start p (fs ++ gs) q' := by
  obtain ⟨hq, last, early, cause, late, hreach, hread, rfl⟩ := h'
  exact ⟨hq, last, fs ++ early, cause, late, h.trans hreach, hread, by simp⟩

theorem reaches_of_next (hp : p < size tokens)
    (h : start.read (current tokens p) = .next next fs) :
    Reaches tokens start p fs next (p + 1) := by
  refine ⟨Nat.le_succ p, ?_⟩
  rw [between_of_lt (Nat.lt_succ_self p) hp, between_self, ← List.append_nil fs]
  exact ExprReader.walk_cons h rfl

theorem fails_of_failed {cause : Cause} (hp : p ≤ size tokens)
    (h : start.read (current tokens p) = .failed cause fs) :
    Fails tokens start p (fs ++ [⟨current tokens p, cause⟩]) p :=
  ⟨hp, start, [], cause, fs, .refl _ _ _, h, rfl⟩

/-! ## A reader of programs -/

theorem foldl_reading {ps : List Placed} (h : start.walk ps = some (last, gs)) (r : Reader)
    (use : Use) : ps.foldl Reader.read (r.reading use start) = (r.found gs).reading use last := by
  induction ps generalizing start gs r with
  | nil =>
    cases h
    rfl
  | cons t ps ih =>
    obtain ⟨next, gs', hs, hread, hwalk, rfl⟩ := ExprReader.walk_cons_iff.mp h
    rw [List.foldl_cons, Reader.read_of_next r hread, ih hwalk, Reader.found_found]

/-- What a program is read as does not change if, at the later place, the reader goes on from the
second state with the faults found. -/
theorem Reaches.rest (h : Reaches tokens start p fs next q) (r : Reader) (use : Use) :
    rest tokens (r.reading use start) p = rest tokens ((r.found fs).reading use next) q := by
  rw [rest_between h.1, foldl_reading h.2]

theorem Fails.rest (h : Fails tokens start p fs q) (r : Reader) (use : Use) :
    rest tokens (r.reading use start) p =
      rest tokens (r.abandon fs (kind tokens q)) (advance tokens q) := by
  obtain ⟨hq, last, early, cause, late, hreach, hread, rfl⟩ := h
  rw [hreach.rest, List.append_assoc, ← Reader.abandon_found]
  exact rest_abandon hq rfl (Reader.read_of_failed _ hread)

/-! ## A reader that follows a call -/

/-- How a reader in the given state follows a call that begins at the place: it holds the operand
that the call returns, or gives up where the call fails. -/
inductive Follows (tokens : List Token) (n : Nat) (start : ExprReader) (pending : List Pending)
    (p : Nat) : Option Expr → Nat → List Fault → Prop
  | returns {v e : Expr} {waiting : List Pending} {q : Nat} {early late : List Fault} :
      Reaches tokens start p early (.operator v waiting) q → Amounts n v waiting e pending late →
      Follows tokens n start pending p (some e) q (early ++ late)
  | fails {q : Nat} {fs : List Fault} : Fails tokens start p fs q →
      Follows tokens n start pending p none q fs

namespace Follows

theorem of_reaches (h : Reaches tokens start p fs (.operator e pending) q) :
    Follows tokens n start pending p (some e) q fs := by
  rw [← List.append_nil fs]
  exact .returns h (.refl n e pending)

theorem mono (h : Follows tokens n start pending p out q fs) (hn : n' ≤ n) :
    Follows tokens n' start pending p out q fs := by
  cases h with
  | returns hreach hamounts => exact .returns hreach (hamounts.mono hn)
  | fails hfails => exact .fails hfails

theorem after (h : Follows tokens n next pending q out q' gs)
    (hreach : Reaches tokens start p fs next q) :
    Follows tokens n start pending p out q' (fs ++ gs) := by
  cases h with
  | returns hreach' hamounts =>
    rw [← List.append_assoc]
    exact .returns (hreach.trans hreach') hamounts
  | fails hfails => exact .fails (hreach.fails hfails)

theorem make (h : Follows tokens n start pending' p (some e) q fs)
    (hmade : Amounts n e pending' e' pending late) :
    Follows tokens n start pending p (some e') q (fs ++ late) := by
  cases h with
  | returns hreach hamounts =>
    rw [List.append_assoc]
    exact .returns hreach (hamounts.trans hmade)

/-- Whatever waits for an operand that is not there is given up with it. -/
theorem giveUp (h : Follows tokens n start pending' p none q fs) :
    Follows tokens n' start pending p none q fs := by
  cases h with
  | fails hfails => exact .fails hfails

/-- Above level 0 all faults have been found when the call returns. -/
theorem reaches (h : Follows tokens n start pending p (some e) q fs) (hn : 0 < n) :
    ∃ v waiting, Reaches tokens start p fs (.operator v waiting) q ∧
      Amounts n v waiting e pending [] := by
  cases h with
  | returns hreach hamounts =>
    obtain rfl := hamounts.late_eq_nil hn
    rw [List.append_nil]
    exact ⟨_, _, hreach, hamounts⟩

end Follows

/-- The level down to which a part completes its operators. -/
def Part.rank : Part → Nat
  | expression => 0
  | level n | chain n _ => n
  | operand => 7

/-- The state in which the call for a part begins. -/
def Part.Starts : Part → List Pending → ExprReader → Prop
  | chain n left, pending, start =>
    ∃ v waiting, start = .operator v waiting ∧ Amounts n v waiting left pending []
  | _, pending, start => start = .operand pending

/-! ## The rules for expressions -/

section

variable (hp : p ≤ size tokens)

include hp

theorem follows_atom (h : atom? (current tokens p).toToken = some e) :
    Follows tokens n (.operand pending) pending p (some e) (p + 1) [] := by
  obtain ⟨hunary, hparen⟩ := of_atom? h
  refine .of_reaches (reaches_of_next (lt_size hp (ne_eof_of_atom? h)) ?_)
  rw [kind] at hunary hparen
  simp only [ExprReader.read, ExprReader.readOperand, hunary, if_neg hparen, h]

theorem follows_noOperand (h : atom? (current tokens p).toToken = none)
    (hunary : UnaryOp.ofKind? (kind tokens p) = none) (hparen : kind tokens p ≠ .leftParen) :
    Follows tokens n (.operand pending) pending p none p
      [⟨current tokens p, .expression⟩] := by
  have hread : (ExprReader.operand pending).read (current tokens p) =
      .failed .expression [] := by
    rw [kind] at hunary hparen
    simp only [ExprReader.read, ExprReader.readOperand, hunary, if_neg hparen, h]
  exact .fails (fails_of_failed hp hread)

theorem follows_unary {op : UnaryOp} (hop : UnaryOp.ofKind? (kind tokens p) = some op)
    (h : Follows tokens 7 (.operand (.unary op (current tokens p).line :: pending))
      (.unary op (current tokens p).line :: pending) (p + 1) out q fs) :
    Follows tokens 7 (.operand pending) pending p
      (out.map (.unary op (current tokens p).line)) q fs := by
  have hread := reaches_of_next (lt_size hp (ne_eof_of_ofKind? hop))
    (ExprReader.read_unary pending (UnaryOp.ofKind?_eq_some_iff.mp hop))
  cases out with
  | none => exact h.giveUp.after hread
  | some e =>
    have hmade : Amounts 7 e (.unary op (current tokens p).line :: pending)
        (.unary op (current tokens p).line e) pending [] := fun m hm => rfl
    rw [← List.append_nil fs]
    exact (h.make hmade).after hread

theorem reaches_leftParen (h : kind tokens p = .leftParen) :
    Reaches tokens (.operand pending) p [] (.operand (.paren :: pending)) (p + 1) :=
  reaches_of_next (lt_size hp (by simp [h])) (ExprReader.read_leftParen pending h)

end

/-- What closes the parentheses around an expression, and what fails to. -/
theorem follows_closing (h : Follows tokens 0 start (.paren :: pending) p (some e) q fs)
    (hq : q ≤ size tokens) (hends : ExprReader.endsExpression (kind tokens q) = true) :
    (kind tokens q = .rightParen →
      Follows tokens n start pending p (some (.grouping e)) (q + 1) fs) ∧
    (kind tokens q ≠ .rightParen →
      Follows tokens n start pending p none q (fs ++ [⟨current tokens q, .closingParen⟩])) := by
  cases h with
  | @returns v e waiting q early late hreach hamounts =>
    have hread : (ExprReader.operator v waiting).read (current tokens q) =
        if kind tokens q = .rightParen then .next (.operator (.grouping e) pending) late
        else .failed .closingParen late := by
      rw [ExprReader.read, ExprReader.readOperator_of_endsExpression hends, ExprReader.readClosing,
        hamounts.close_paren]
      rfl
    refine ⟨fun hclose => ?_, fun hopen => ?_⟩
    · rw [if_pos hclose] at hread
      have hlt := lt_size hq (by simp [hclose])
      exact .of_reaches (hreach.trans (reaches_of_next hlt hread))
    · rw [if_neg hopen] at hread
      rw [List.append_assoc]
      exact .fails (hreach.fails (fails_of_failed hq hread))

theorem reaches_equal (h : Follows tokens 1 start pending p (some e) q fs)
    (hfit : Fits 0 pending) (hq : q ≤ size tokens) (hequal : kind tokens q = .equal) :
    Reaches tokens start p fs (.operand (.assign e (current tokens q) :: pending)) (q + 1) := by
  obtain ⟨v, waiting, hreach, hamounts⟩ := h.reaches Nat.one_pos
  have hclose : close 1 v waiting = ⟨e, pending, []⟩ := by
    rw [hamounts 1 (Nat.le_refl 1),
      close_of_fits (hfit.mono (Nat.zero_le 1)) Nat.one_pos (by decide)]
    rfl
  have hread := reaches_of_next (lt_size hq (by simp [hequal]))
    (ExprReader.read_equal hequal hclose)
  rw [← List.append_nil fs]
  exact hreach.trans hread

/-- A reader follows every call for a part of an expression. -/
theorem Reads.follows (h : Reads tokens part p out q fs) (hp : p ≤ size tokens)
    (hfit : Fits part.rank pending) (hstart : part.Starts pending start) :
    Follows tokens part.rank start pending p out q fs := by
  -- `pending` is what waits for the part: the calls that have not returned
  induction h generalizing start pending with
  | atom hatom =>
    obtain rfl := hstart
    exact follows_atom hp hatom
  | noOperand hatom hunary hparen =>
    obtain rfl := hstart
    exact follows_noOperand hp hatom hunary hparen
  | unary hop _ ih =>
    obtain rfl := hstart
    exact follows_unary hp hop (ih (lt_size hp (ne_eof_of_ofKind? hop)) (Nat.le_refl 7) rfl)
  | grouping hparen hinner hclose ih =>
    obtain rfl := hstart
    have hlt := lt_size hp (by simp [hparen])
    have hfits : Fits 0 (.paren :: pending) := trivial
    have hends := hinner.stops (Option.some_ne_none _) nofun
    exact ((follows_closing (ih hlt hfits rfl) (hinner.bounds hlt).2 hends).1 hclose).after
      (reaches_leftParen hp hparen)
  | groupingOpen hparen hinner hopen ih =>
    obtain rfl := hstart
    have hlt := lt_size hp (by simp [hparen])
    have hfits : Fits 0 (.paren :: pending) := trivial
    have hends := hinner.stops (Option.some_ne_none _) nofun
    exact ((follows_closing (ih hlt hfits rfl) (hinner.bounds hlt).2 hends).2 hopen).after
      (reaches_leftParen hp hparen)
  | groupingFails hparen _ ih =>
    obtain rfl := hstart
    have hfits : Fits 0 (.paren :: pending) := trivial
    have hrest := ih (lt_size hp (by simp [hparen])) hfits rfl
    exact hrest.giveUp.after (reaches_leftParen hp hparen)
  | above _ ih => exact ih hp hfit hstart
  | levelFails _ _ ih =>
    exact (ih hp (hfit.mono (Nat.le_succ _)) hstart).mono (Nat.le_succ _)
  | level _ hfirst _ ihl ihr =>
    obtain ⟨v, waiting, hreach, hamounts⟩ :=
      (ihl hp (hfit.mono (Nat.le_succ _)) hstart).reaches (Nat.succ_pos _)
    have hrest := ihr (hfirst.bounds hp).2 hfit ⟨v, waiting, rfl, hamounts.mono (Nat.le_succ _)⟩
    exact hrest.after hreach
  | more hop hright _ ihl ihr =>
    obtain ⟨v, waiting, rfl, hleft⟩ := hstart
    obtain ⟨f, hread, hfits, hmakes⟩ := amounts_of_operator? hop hleft hfit
    have hlt := lt_size hp (ne_eof_of_operator? hop)
    obtain ⟨w, waiting', hreach, hamounts⟩ := (ihl hlt hfits rfl).reaches (Nat.succ_pos _)
    have hmade := (hamounts.mono (Nat.le_succ _)).trans (hmakes _)
    have hrest := ihr (hright.bounds hlt).2 hfit ⟨w, waiting', rfl, hmade⟩
    exact hrest.after ((reaches_of_next hlt hread).trans hreach)
  | moreFails hop _ ih =>
    obtain ⟨v, waiting, rfl, hleft⟩ := hstart
    obtain ⟨f, hread, hfits, -⟩ := amounts_of_operator? hop hleft hfit
    have hlt := lt_size hp (ne_eof_of_operator? hop)
    exact (ih hlt hfits rfl).giveUp.after (reaches_of_next hlt hread)
  | noMore =>
    obtain ⟨v, waiting, rfl, hleft⟩ := hstart
    exact .returns (.refl _ _ _) hleft
  | plain _ _ ih | plainFails _ ih =>
    exact (ih hp (hfit.mono (Nat.zero_le 1)) hstart).mono (Nat.zero_le 1)
  | @assign p q _ name _ _ _ hfirst hequal _ ihl ihr =>
    have hq := (hfirst.bounds hp).2
    have hreach := reaches_equal (ihl hp (hfit.mono (Nat.zero_le 1)) hstart) hfit hq hequal
    have hfits : Fits 0 (.assign (.var name) (current tokens q) :: pending) := trivial
    have hrest := (ihr (lt_size hq (by simp [hequal])) hfits rfl).make (amounts_assign _ _ _ _)
    rw [List.append_nil] at hrest
    exact hrest.after hreach
  | @noTarget p q _ e _ _ _ hfirst htarget hequal _ ihl ihr =>
    have hq := (hfirst.bounds hp).2
    have hreach := reaches_equal (ihl hp (hfit.mono (Nat.zero_le 1)) hstart) hfit hq hequal
    have hfits : Fits 0 (.assign e (current tokens q) :: pending) := trivial
    have hrest := (ihr (lt_size hq (by simp [hequal])) hfits rfl).make
      (amounts_noTarget htarget _ _ _)
    rw [List.append_assoc]
    exact hrest.after hreach
  | @valueFails p q _ e _ _ hfirst hequal _ ihl ihr =>
    have hq := (hfirst.bounds hp).2
    have hreach := reaches_equal (ihl hp (hfit.mono (Nat.zero_le 1)) hstart) hfit hq hequal
    have hfits : Fits 0 (.assign e (current tokens q) :: pending) := trivial
    exact (ihr (lt_size hq (by simp [hequal])) hfits rfl).giveUp.after hreach

/-! ## What must follow an expression -/

theorem Reads.ended {v : Expr} (h : Reads tokens .expression p (some e) q fs)
    (hamounts : Amounts 0 v waiting e [] late) :
    (ExprReader.operator v waiting).read (current tokens q) = .ended e late := by
  have hends := h.stops (Option.some_ne_none _) nofun
  rw [ExprReader.read, ExprReader.readOperator_of_endsExpression hends, ExprReader.readClosing,
    hamounts.close_nil]

/-- The closer of an expression ends it for its use, and any other token gives it up. -/
theorem Expects.follows (h : Expects tokens use p out q fs) (hp : p ≤ size tokens) (r : Reader) :
    rest tokens (r.reading use .start) p = match out with
      | some e => rest tokens ((r.found fs).completeUse e use) q
      | none => rest tokens (r.abandon fs (kind tokens q)) (advance tokens q) := by
  have hread : ∀ {out q fs}, Reads tokens .expression p out q fs →
      Follows tokens 0 .start [] p out q fs := fun h => h.follows hp trivial rfl
  cases h with
  | closed h hclose =>
    have hlt := lt_size (h.bounds hp).2 (by cases use <;> simp [hclose, Use.closer])
    cases hread h with
    | returns hreach hamounts =>
      dsimp only
      rw [hreach.rest, rest_of_lt hlt, Reader.read_of_ended _ (h.ended hamounts) hclose,
        Reader.found_found]
  | missing h hopen =>
    cases hread h with
    | returns hreach hamounts =>
      dsimp only
      rw [hreach.rest, List.append_assoc, ← Reader.abandon_found]
      exact rest_abandon (h.bounds hp).2 rfl (Reader.read_of_not_ended _ (h.ended hamounts) hopen)
  | fails h =>
    cases hread h with
    | fails hfails => exact hfails.rest r use

end Lox.Descent
