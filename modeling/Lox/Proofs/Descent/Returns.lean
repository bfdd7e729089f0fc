import Lox.Proofs.Descent.Rules

/-!
# How a call returns

* `size_eq`, `kind_size`, `kind_ne_eof`: the first end is the first place whose token is an end;
* `Reads.unique`, `Parses.unique`, `Collects.unique`: a call returns in one way only;
* `Reads.bounds`, `Parses.bounds`: the cursor never goes back, nor past the first end;
* `Reads.lt`, `Parses.lt`: it goes on when there is a tree;
* `Parses.declaration_lt`: it goes on with every declaration;
* `Collects.bounds`: the declarations end at the first end, and are no more than the tokens.
-/

namespace Lox.Descent

open Token (Kind)
open Parse (Placed Cause Fault Use atom? before)

/-! ## The cursor -/

section

variable (tokens : List Token)

theorem size_eq : size tokens = tokens.findIdx (·.isEnd) := by
  rw [size, before, List.takeWhile_eq_take_findIdx_not, List.length_take]
  simp only [Bool.not_not]
  exact Nat.min_eq_left List.findIdx_le_length

theorem getElem?_size : tokens[size tokens]? = tokens.find? (·.isEnd) := by
  rw [size_eq, List.find?_eq_getElem?_findIdx]

theorem kind_size : kind tokens (size tokens) = .eof := by
  rw [kind, current, getElem?_size]
  cases h : tokens.find? (·.isEnd) with
  | none => rfl
  | some t => simpa [Token.isEnd] using List.find?_some h

variable {tokens} {p : Nat}

theorem kind_ne_eof (h : p < size tokens) : kind tokens p ≠ .eof := by
  rw [size_eq] at h
  have hlt : p < tokens.length := Nat.lt_of_lt_of_le h List.findIdx_le_length
  have hend := List.not_of_lt_findIdx h
  rw [kind, current, List.getElem?_eq_getElem hlt]
  simpa [Token.isEnd] using hend

theorem lt_size (hp : p ≤ size tokens) (h : kind tokens p ≠ .eof) : p < size tokens := by
  refine Nat.lt_of_le_of_ne hp fun heq => h ?_
  rw [heq, kind_size]

theorem eq_size (hp : p ≤ size tokens) (h : kind tokens p = .eof) : p = size tokens :=
  (Nat.lt_or_eq_of_le hp).resolve_left fun hlt => kind_ne_eof hlt h

theorem advance_of_lt (h : p < size tokens) : advance tokens p = p + 1 :=
  if_neg (kind_ne_eof h)

theorem advance_size : advance tokens (size tokens) = size tokens := if_pos (kind_size tokens)

theorem advance_bounds (h : p ≤ size tokens) :
    p ≤ advance tokens p ∧ advance tokens p ≤ size tokens := by
  rcases Nat.lt_or_eq_of_le h with h | rfl
  · rw [advance_of_lt h]
    exact ⟨Nat.le_succ p, h⟩
  · rw [advance_size]
    exact ⟨Nat.le_refl _, Nat.le_refl _⟩

end

variable {tokens : List Token} {part : Part} {task : Task} {use : Use} {e : Expr} {s : Stmt}
  {out out' : Option Expr} {tree tree' : Option Stmt} {slots slots' : List (Option Stmt)}
  {p q q' : Nat} {fs gs : List Fault}

/-! ## First tokens -/

theorem of_operator? {t : Token} {n : Nat} {tree : Expr → Expr → Expr}
    (h : operator? t = some (n, tree)) :
    (∃ op, BinaryOp.ofKind? t.kind = some op ∧ n = op.level ∧ tree = .binary op t.line) ∨
      ∃ op, LogicalOp.ofKind? t.kind = some op ∧ n = op.level ∧ tree = .logical op t.line := by
  rw [operator?] at h
  cases hbinary : BinaryOp.ofKind? t.kind with
  | some op =>
    rw [hbinary] at h
    cases h
    exact .inl ⟨op, rfl, rfl, rfl⟩
  | none =>
    rw [hbinary] at h
    obtain ⟨op, hlogical, heq⟩ := Option.map_eq_some_iff.mp h
    cases heq
    exact .inr ⟨op, hlogical, rfl, rfl⟩

theorem operator?_eq_none {t : Token} (h : operator? t = none) :
    BinaryOp.ofKind? t.kind = none ∧ LogicalOp.ofKind? t.kind = none := by
  rw [operator?] at h
  cases hbinary : BinaryOp.ofKind? t.kind with
  | some op =>
    rw [hbinary] at h
    cases h
  | none =>
    rw [hbinary] at h
    exact ⟨rfl, Option.map_eq_none_iff.mp h⟩

theorem level_of_operator? {t : Token} {n : Nat} {tree : Expr → Expr → Expr}
    (h : operator? t = some (n, tree)) : 0 < n ∧ n < 7 := by
  rcases of_operator? h with ⟨op, -, rfl, -⟩ | ⟨op, -, rfl, -⟩ <;> cases op <;> decide

/-- A token that is an operand by itself does not begin another one. -/
theorem of_atom? (h : atom? (current tokens p).toToken = some e) :
    UnaryOp.ofKind? (kind tokens p) = none ∧ kind tokens p ≠ .leftParen := by
  rw [kind]
  generalize (current tokens p).toToken = t at h ⊢
  unfold atom? at h
  split at h <;> simp_all [UnaryOp.ofKind?]

theorem ofKind?_leftParen (h : kind tokens p = .leftParen) :
    UnaryOp.ofKind? (kind tokens p) = none := by
  rw [h]
  rfl

theorem ne_eof_of_atom? (h : atom? (current tokens p).toToken = some e) :
    kind tokens p ≠ .eof := by
  intro hk
  rw [kind] at hk
  simp [atom?, hk] at h

theorem ne_eof_of_ofKind? {op : UnaryOp} (h : UnaryOp.ofKind? (kind tokens p) = some op) :
    kind tokens p ≠ .eof := by
  intro hk
  rw [hk] at h
  cases h

theorem ne_eof_of_operator? {o : Nat × (Expr → Expr → Expr)}
    (h : operator? (current tokens p).toToken = some o) : kind tokens p ≠ .eof := by
  intro hk
  rw [kind] at hk
  simp [operator?, hk, BinaryOp.ofKind?, LogicalOp.ofKind?] at h

/-! ## One way to return -/

theorem Reads.unique (h : Reads tokens part p out q fs) (h' : Reads tokens part p out' q' gs) :
    out = out' ∧ q = q' ∧ fs = gs := by
  -- Two rules for the same part exclude each other by the token under the cursor, or by what the
  -- first call in them returns.
  induction h generalizing out' q' gs with
  | _ => cases h' <;> grind [of_atom?, ofKind?_leftParen]

theorem Expects.unique (h : Expects tokens use p out q fs)
    (h' : Expects tokens use p out' q' gs) : out = out' ∧ q = q' ∧ fs = gs := by
  cases h with
  | _ hreads => cases h' <;> grind [Reads.unique]

theorem Boundary.unique (h : Boundary tokens p q) (h' : Boundary tokens p q') : q = q' := by
  induction h with
  | _ => cases h' <;> grind

theorem Parses.unique (h : Parses tokens task p tree q fs)
    (h' : Parses tokens task p tree' q' gs) : tree = tree' ∧ q = q' ∧ fs = gs := by
  induction h generalizing tree' q' gs with
  | _ => cases h' <;> grind [Expects.unique, Boundary.unique]

theorem Collects.unique (h : Collects tokens p slots q fs) (h' : Collects tokens p slots' q' gs) :
    slots = slots' ∧ q = q' ∧ fs = gs := by
  induction h generalizing slots' q' gs with
  | _ => cases h' <;> grind [Parses.unique]

/-! ## The places of the cursor -/

/-- The cursor goes back in no call, and no call leaves it behind the first end. -/
theorem Reads.bounds (h : Reads tokens part p out q fs) (hp : p ≤ size tokens) :
    p ≤ q ∧ q ≤ size tokens := by
  induction h with
  | atom h => exact ⟨Nat.le_succ _, lt_size hp (ne_eof_of_atom? h)⟩
  | unary h _ ih =>
    have hlt := lt_size hp (ne_eof_of_ofKind? h)
    have hrest := ih hlt
    omega
  | grouping h _ hq ih =>
    have hlt := lt_size hp (by simp [h])
    have hrest := ih hlt
    have hlt' := lt_size hrest.2 (by simp [hq])
    omega
  | groupingOpen h _ _ ih | groupingFails h _ ih =>
    have hlt := lt_size hp (by simp [h])
    have hrest := ih hlt
    omega
  | noOperand | noMore => exact ⟨Nat.le_refl _, hp⟩
  | above _ ih | levelFails _ _ ih | plain _ _ ih | plainFails _ ih => exact ih hp
  | level _ _ _ ihl ihr =>
    have hfirst := ihl hp
    have hrest := ihr hfirst.2
    omega
  | more h _ _ ihl ihr =>
    have hlt := lt_size hp (ne_eof_of_operator? h)
    have hfirst := ihl hlt
    have hrest := ihr hfirst.2
    omega
  | moreFails h _ ih =>
    have hlt := lt_size hp (ne_eof_of_operator? h)
    have hrest := ih hlt
    omega
  | assign _ hq _ ihl ihr | valueFails _ hq _ ihl ihr =>
    have hfirst := ihl hp
    have hlt := lt_size hfirst.2 (by simp [hq])
    have hrest := ihr hlt
    omega
  | noTarget _ _ hq _ ihl ihr =>
    have hfirst := ihl hp
    have hlt := lt_size hfirst.2 (by simp [hq])
    have hrest := ihr hlt
    omega

/-- The part may be left without a token. -/
def Part.isChain : Part → Bool
  | chain _ _ => true
  | _ => false

theorem Reads.lt (h : Reads tokens part p out q fs) (hp : p ≤ size tokens)
    (hpart : part.isChain = false) (hout : out ≠ none) : p < q := by
  induction h with
  | atom => exact Nat.lt_succ_self _
  | unary h hrest =>
    have hlt := lt_size hp (ne_eof_of_ofKind? h)
    exact (hrest.bounds hlt).1
  | grouping h hrest _ =>
    have hlt := lt_size hp (by simp [h])
    exact Nat.lt_succ_of_lt (hrest.bounds hlt).1
  | groupingOpen | groupingFails | noOperand | levelFails | moreFails | plainFails | valueFails =>
    exact absurd rfl hout
  | above _ ih | plain _ _ ih => exact ih hp rfl hout
  | level _ hfirst hrest ih _ =>
    have hlt := ih hp rfl (Option.some_ne_none _)
    exact Nat.lt_of_lt_of_le hlt (hrest.bounds (hfirst.bounds hp).2).1
  | more | noMore => cases hpart
  | assign hfirst hq hrest ih _ | noTarget hfirst _ hq hrest ih _ =>
    have hlt := ih hp rfl (Option.some_ne_none _)
    have hnext := lt_size (hfirst.bounds hp).2 (by simp [hq])
    have hle := (hrest.bounds hnext).1
    omega

theorem Expects.bounds (h : Expects tokens use p out q fs) (hp : p ≤ size tokens) :
    p ≤ q ∧ q ≤ size tokens := by
  cases h with
  | closed h hq =>
    have hbounds := h.bounds hp
    have hlt := lt_size hbounds.2 (by cases use <;> simp [hq, Use.closer])
    omega
  | missing h _ | fails h => exact h.bounds hp

theorem Expects.lt (h : Expects tokens use p (some e) q fs) (hp : p ≤ size tokens) : p < q := by
  cases h with
  | closed h _ => exact Nat.lt_succ_of_le (h.bounds hp).1

theorem Boundary.bounds (h : Boundary tokens p q) (hp : p ≤ size tokens) :
    p ≤ q ∧ q ≤ size tokens := by
  induction h with
  | ended | found => exact ⟨Nat.le_refl _, hp⟩
  | next h _ _ ih =>
    have hrest := ih (lt_size hp h)
    omega

/-- Two tokens that are no end lie before it. -/
theorem add_two_le_size (hp : p ≤ size tokens) (h : kind tokens p ≠ .eof)
    (h' : kind tokens (p + 1) ≠ .eof) : p + 2 ≤ size tokens :=
  lt_size (lt_size hp h) h'

theorem Parses.bounds (h : Parses tokens task p tree q fs) (hp : p ≤ size tokens) :
    p ≤ q ∧ q ≤ size tokens := by
  induction h with
  | print h hrest =>
    have hlt := lt_size hp (by simp [h])
    have hrest := hrest.bounds hlt
    omega
  | block h _ ih =>
    have hlt := lt_size hp (by simp [h])
    have hrest := ih hlt
    omega
  | ifOpen h _ | whileOpen h _ | nameless h _ => exact ⟨Nat.le_succ _, lt_size hp (by simp [h])⟩
  | ifFails h h' hrest | whileFails h h' hrest =>
    have htwo := add_two_le_size hp (by simp [h]) (by simp [h'])
    have hrest := hrest.bounds htwo
    omega
  | thenFails h h' hc _ ih | ifThen h h' hc _ _ ih | loop h h' hc _ ih =>
    have htwo := add_two_le_size hp (by simp [h]) (by simp [h'])
    have hc := hc.bounds htwo
    have hrest := ih hc.2
    omega
  | ifElse h h' hc _ helse _ ih ih' =>
    have htwo := add_two_le_size hp (by simp [h]) (by simp [h'])
    have hc := hc.bounds htwo
    have hthen := ih hc.2
    have hlt := lt_size hthen.2 (by simp [helse])
    have hrest := ih' hlt
    omega
  | expression _ hrest => exact hrest.bounds hp
  | unended h h' _ => exact ⟨Nat.le_add_right _ _, add_two_le_size hp (by simp [h]) (by simp [h'])⟩
  | declared h h' h'' =>
    have htwo := add_two_le_size hp (by simp [h]) (by simp [h'])
    exact ⟨Nat.le_add_right _ _, lt_size htwo (by simp [h''])⟩
  | initialized h h' _ h'' hrest =>
    have htwo := add_two_le_size hp (by simp [h]) (by simp [h'])
    have hlt := lt_size htwo (by simp [h''])
    have hrest := hrest.bounds hlt
    omega
  | undeclared _ _ ih | succeeds _ ih => exact ih hp
  | recovers _ hskip ih =>
    have hfirst := ih hp
    have hnext := advance_bounds hfirst.2
    have hrest := hskip.bounds hnext.2
    omega
  | closed h => exact ⟨Nat.le_succ _, lt_size hp (by simp [h])⟩
  | missing => exact ⟨Nat.le_refl _, hp⟩
  | next _ _ _ ih ih' =>
    have hfirst := ih hp
    have hrest := ih' hfirst.2
    omega

theorem Parses.lt (h : Parses tokens task p tree q fs) (hp : p ≤ size tokens)
    (htree : tree ≠ none) : p < q := by
  induction h with
  | print h hrest =>
    have hlt := lt_size hp (by simp [h])
    exact (hrest.bounds hlt).1
  | block h hrest _ =>
    have hlt := lt_size hp (by simp [h])
    exact (hrest.bounds hlt).1
  | ifOpen | ifFails | thenFails | whileOpen | whileFails | nameless | unended | recovers
  | missing => exact absurd rfl htree
  | ifThen h h' hc hrest _ _ | loop h h' hc hrest _ =>
    have htwo := add_two_le_size hp (by simp [h]) (by simp [h'])
    have hc := hc.bounds htwo
    have hrest := hrest.bounds hc.2
    omega
  | ifElse h h' hc hthen helse hrest _ _ =>
    have htwo := add_two_le_size hp (by simp [h]) (by simp [h'])
    have hc := hc.bounds htwo
    have hthen := hthen.bounds hc.2
    have hlt := lt_size hthen.2 (by simp [helse])
    have hrest := hrest.bounds hlt
    omega
  | @expression p q out fs _ hrest =>
    obtain ⟨e, rfl⟩ : ∃ e, out = some e := by
      cases out with
      | none => exact absurd rfl htree
      | some e => exact ⟨e, rfl⟩
    exact hrest.lt hp
  | declared => exact Nat.lt_add_of_pos_right (by decide)
  | initialized h h' _ h'' hrest =>
    have htwo := add_two_le_size hp (by simp [h]) (by simp [h'])
    have hlt := lt_size htwo (by simp [h''])
    have hrest := hrest.bounds hlt
    omega
  | undeclared _ _ ih | succeeds _ ih => exact ih hp htree
  | closed => exact Nat.lt_succ_self _
  | next _ hfirst _ _ ih =>
    have hfirst := hfirst.bounds hp
    have hlt := ih hfirst.2 htree
    omega

/-- A declaration takes a token at least, also when it fails: the token at which it fails is passed
before a boundary is looked for. -/
theorem Parses.declaration_lt (h : Parses tokens .declaration p tree q fs)
    (hp : p < size tokens) : p < q := by
  cases h with
  | succeeds h => exact h.lt (Nat.le_of_lt hp) (Option.some_ne_none _)
  | @recovers _ r _ _ h hskip =>
    have hbounds := h.bounds (Nat.le_of_lt hp)
    have hrest := hskip.bounds (advance_bounds hbounds.2).2
    rcases Nat.lt_or_eq_of_le hbounds.2 with hr | hr
    · rw [advance_of_lt hr] at hrest
      omega
    · rw [hr, advance_size] at hrest
      omega

/-- The declarations of a program end at the first end, and are no more than the tokens. -/
theorem Collects.bounds (h : Collects tokens p slots q fs) (hp : p ≤ size tokens) :
    q = size tokens ∧ p + slots.length ≤ size tokens := by
  induction h with
  | ended h =>
    obtain rfl := eq_size hp h
    exact ⟨rfl, Nat.le_refl _⟩
  | next h hfirst _ ih =>
    have hlt := hfirst.declaration_lt (lt_size hp h)
    have hrest := ih (hfirst.bounds hp).2
    rw [List.length_cons]
    omega

end Lox.Descent
