import Lox.Proofs.Descent.Expressions
import Lox.Proofs.Descent.Total

/-!
# A reader follows the calls for declarations

* `Gives`: a reader holds the statement that a call returns, or gives up where the call fails;
* `Boundary.follows`: the way to the next boundary;
* `Task.Follows`, `Parses.follows`: statements, declarations and blocks;
* `Collects.follows`, `Collects.parse`: whole programs;
* the main result: every declaration takes a token, so that every call returns and the program
  ends at the first end.
-/

namespace Lox.Parse.Reader

open Token (Kind)

variable (r : Reader)

/-- A clause is opened around the next statement. -/
def enter (cl : Clause) : Reader := { r with clauses := cl :: r.clauses, mode := .statement }

/-- A block is opened, with the clauses around it. -/
def openBlock : Reader :=
  { r with blocks := { around := r.clauses } :: r.blocks, clauses := [], mode := .declaration }

/-- What is known outside the innermost block. -/
def outside (b : OpenBlock) (bs : List OpenBlock) : Reader :=
  { r with blocks := bs, clauses := b.around }

/-- A declaration has been read, or given up, with some faults. -/
def gained (slot : Option Stmt) (fs : List Fault) : Reader :=
  match r.blocks with
  | [] => { r.found fs with slots := slot :: r.slots, clauses := [], mode := .declaration }
  | b :: bs =>
    { r.found fs with
      blocks := { b with done := slot.toList ++ b.done } :: bs
      clauses := []
      mode := .declaration }

theorem gained_some (s : Stmt) (fs : List Fault) :
    r.gained (some s) fs = (r.found fs).deliver s := rfl

theorem gained_none (fs : List Fault) (k : Kind) :
    r.gained none fs = { r.abandon fs k with mode := .declaration } := by
  obtain ⟨slots, blocks, clauses, mode, faults⟩ := r
  cases blocks <;> rfl

theorem Ends.of_mode {r r' : Reader} {m : Mode} {s : Stmt}
    (h : ({ r with mode := m } : Reader).Ends s r') : r.Ends s r' := by
  unfold Ends at h ⊢
  by_cases hopen : s.endsOpen = true
  · rw [if_pos hopen] at h ⊢
    exact h
  · rw [if_neg hopen] at h ⊢
    rw [h]
    exact completeIn_of_mode r m s r.clauses

end Lox.Parse.Reader

namespace Lox.Descent

open Token (Kind)
open Parse (Placed Cause Fault Use Clause OpenBlock Mode Reader Program ending)

variable {tokens : List Token} {task : Task} {r : Reader} {program : Program} {use : Use}
  {out : Option Expr} {tree slot : Option Stmt} {slots : List (Option Stmt)} {s : Stmt}
  {p q : Nat} {fs gs : List Fault}

/-! ## From one reader to another -/

/-- What the program is read as is what the reader makes of the rest of it once it has read the
statement that a call returns, or has given it up where the call fails. -/
inductive Gives (tokens : List Token) (program : Program) (r : Reader) :
    Option Stmt → Nat → List Fault → Prop
  | returns {s : Stmt} {r' : Reader} {q : Nat} {fs : List Fault} : (r.found fs).Ends s r' →
      (s.endsOpen = true → kind tokens q ≠ .elseKw) → program = rest tokens r' q →
      Gives tokens program r (some s) q fs
  | fails {q : Nat} {fs : List Fault} :
      program = rest tokens (r.abandon fs (kind tokens q)) (advance tokens q) →
      Gives tokens program r none q fs

namespace Gives

theorem of_completeIn (hends : s.endsOpen = false)
    (h : program = rest tokens ((r.found fs).completeIn s r.clauses) q) :
    Gives tokens program r (some s) q fs := by
  refine .returns ?_ (by simp [hends]) h
  rw [Reader.Ends, hends, if_neg Bool.false_ne_true]
  rfl

theorem of_found (h : Gives tokens program (r.found fs) tree q gs) :
    Gives tokens program r tree q (fs ++ gs) := by
  cases h with
  | returns hends helse heq =>
    rw [Reader.found_found] at hends
    exact .returns hends helse heq
  | fails heq =>
    rw [Reader.abandon_found] at heq
    exact .fails heq

theorem of_enter {cl : Clause} (h : Gives tokens program ((r.found fs).enter cl) tree q gs)
    (helse : ∀ s, tree = some s → (cl.enclose s).endsOpen = true → s.endsOpen = true ∨
      kind tokens q ≠ .elseKw) :
    Gives tokens program r (tree.map (Clause.enclose · cl)) q (fs ++ gs) := by
  refine of_found ?_
  cases h with
  | returns hends hopen heq =>
    exact .returns hends.enclose (fun h => (helse _ rfl h).elim hopen id) heq
  | fails heq => exact .fails heq

end Gives

theorem Expects.gives (h : Expects tokens use p out q fs) (hp : p ≤ size tokens)
    {make : Expr → Stmt}
    (hmake : ∀ (r : Reader) (e : Expr), r.completeUse e use = r.complete (make e))
    (hends : ∀ e, (make e).endsOpen = false) :
    Gives tokens (rest tokens (r.reading use .start) p) r (out.map make) q fs := by
  have hfollows := h.follows hp r
  cases out with
  | none => exact .fails hfollows
  | some e =>
    refine .of_completeIn (hends e) (hfollows.trans ?_)
    dsimp only
    rw [hmake]
    rfl

theorem Boundary.follows (h : Boundary tokens p q) (hp : p ≤ size tokens) (r : Reader) {k : Kind}
    (hk : p < size tokens → k = kind tokens (p - 1)) :
    rest tokens { r with mode := .skipping k } p =
      rest tokens { r with mode := .declaration } q := by
  induction h generalizing k with
  | @ended p hend =>
    obtain rfl := eq_size hp hend
    obtain ⟨slots, blocks, clauses, mode, faults⟩ := r
    rw [rest_size, rest_size]
    cases blocks <;> rfl
  | @found p hne hbound =>
    have hlt := lt_size hp hne
    rw [rest_of_lt hlt, rest_of_lt hlt]
    simp only [Reader.read, hk hlt, hbound, if_true]
  | @next p q hne hbound _ ih =>
    have hlt := lt_size hp hne
    rw [rest_of_lt hlt, ← ih hlt fun _ => rfl]
    simp only [Reader.read, hk hlt, hbound]
    rfl

/-! ## Where a call begins -/

/-- A statement begins at the place. -/
def AtStatement (tokens : List Token) (r : Reader) (p : Nat) : Prop :=
  r.mode = .statement ∨ r.mode = .declaration ∧ p < size tokens ∧ kind tokens p ≠ .varKw ∧
    (kind tokens p = .rightBrace → r.blocks = [])

/-- A declaration begins at the place. -/
structure AtDeclaration (tokens : List Token) (r : Reader) (p : Nat) : Prop where
  mode : r.mode = .declaration
  clauses : r.clauses = []
  lt : p < size tokens
  blocks : kind tokens p = .rightBrace → r.blocks = []

theorem AtDeclaration.atStatement (h : AtDeclaration tokens r p) (hvar : kind tokens p ≠ .varKw) :
    AtStatement tokens r p := .inr ⟨h.mode, h.lt, hvar, h.blocks⟩

theorem AtStatement.read (h : AtStatement tokens r p) :
    r.read (current tokens p) = r.readStatement (current tokens p) := by
  rcases h with hm | ⟨hm, -, hvar, hbrace⟩
  · simp only [Reader.read, hm]
  · simp only [Reader.read, hm]
    by_cases hk : kind tokens p = .rightBrace
    · exact Reader.readDeclaration_of_nil hvar (hbrace hk)
    · exact Reader.readDeclaration_of_ne hvar hk

theorem rest_statement (h : AtStatement tokens r p) (hlt : p < size tokens) :
    rest tokens r p = rest tokens (r.readStatement (current tokens p)) (p + 1) := by
  rw [rest_of_lt hlt, h.read]

/-! ## The rules for statements -/

section

variable (hr : AtStatement tokens r p) (hp : p ≤ size tokens)

include hr hp

theorem gives_print (h : kind tokens p = .printKw)
    (hvalue : Expects tokens .value (p + 1) out q fs) :
    Gives tokens (rest tokens r p) r (out.map .print) q fs := by
  have hlt := lt_size hp (by simp [h])
  have hread : r.readStatement (current tokens p) = r.reading .value .start := by
    rw [kind] at h
    simp only [Reader.readStatement, h]
    rfl
  rw [rest_statement hr hlt, hread]
  exact hvalue.gives hlt (fun _ _ => rfl) fun _ => rfl

theorem rest_expression (h : kind tokens p ∉ [Kind.printKw, .leftBrace, .ifKw, .whileKw]) :
    rest tokens r p = rest tokens (r.reading .statement .start) p := by
  have hread : r.read (current tokens p) =
      (r.reading .statement .start).read (current tokens p) := by
    rw [hr.read, Reader.read_reading, Reader.readStatement]
    rw [kind] at h
    split <;> simp_all
  rcases hr with hm | ⟨-, hlt, -⟩
  · exact rest_of_read hp (by rw [hm]; rfl) rfl hread
  · rw [rest_of_lt hlt, rest_of_lt hlt, hread]

theorem gives_expression (h : kind tokens p ∉ [Kind.printKw, .leftBrace, .ifKw, .whileKw])
    (hvalue : Expects tokens .statement p out q fs) :
    Gives tokens (rest tokens r p) r (out.map .expression) q fs := by
  rw [rest_expression hr hp h]
  exact hvalue.gives hp (fun _ _ => rfl) fun _ => rfl

theorem rest_header {m : Mode} {cause : Cause} (hne : kind tokens p ≠ .eof)
    (hm : m.isInside = true)
    (hread : r.readStatement (current tokens p) = { r with mode := m })
    (hnext : ∀ t : Placed, ({ r with mode := m } : Reader).read t =
      if t.kind = .leftParen then r.reading use .start
      else ({ r with mode := m } : Reader).fail t cause) :
    (kind tokens (p + 1) = .leftParen →
      rest tokens r p = rest tokens (r.reading use .start) (p + 2)) ∧
    (kind tokens (p + 1) ≠ .leftParen →
      Gives tokens (rest tokens r p) r none (p + 1) [⟨current tokens (p + 1), cause⟩]) := by
  have hlt := lt_size hp hne
  rw [rest_statement hr hlt, hread]
  refine ⟨fun hparen => ?_, fun hopen => .fails ?_⟩
  · rw [rest_of_lt (lt_size hlt (by simp [hparen])), hnext]
    exact congrArg (rest tokens · (p + 2)) (if_pos hparen)
  · exact rest_abandon hlt hm ((hnext _).trans (if_neg hopen))

theorem rest_if (h : kind tokens p = .ifKw) :
    (kind tokens (p + 1) = .leftParen →
      rest tokens r p = rest tokens (r.reading .ifCondition .start) (p + 2)) ∧
    (kind tokens (p + 1) ≠ .leftParen → Gives tokens (rest tokens r p) r none (p + 1)
      [⟨current tokens (p + 1), .parenAfterIf⟩]) := by
  refine rest_header hr hp (m := .ifHeader) (by simp [h]) rfl ?_ fun t => rfl
  rw [kind] at h
  simp only [Reader.readStatement, h]

theorem rest_while (h : kind tokens p = .whileKw) :
    (kind tokens (p + 1) = .leftParen →
      rest tokens r p = rest tokens (r.reading .loopCondition .start) (p + 2)) ∧
    (kind tokens (p + 1) ≠ .leftParen → Gives tokens (rest tokens r p) r none (p + 1)
      [⟨current tokens (p + 1), .parenAfterWhile⟩]) := by
  refine rest_header hr hp (m := .loopHeader) (by simp [h]) rfl ?_ fun t => rfl
  rw [kind] at h
  simp only [Reader.readStatement, h]

theorem rest_then {c : Expr} (h : kind tokens p = .ifKw)
    (hparen : kind tokens (p + 1) = .leftParen)
    (hc : Expects tokens .ifCondition (p + 2) (some c) q fs) :
    q ≤ size tokens ∧
      rest tokens r p = rest tokens ((r.found fs).enter (.thenBranch c)) q := by
  have htwo := add_two_le_size hp (by simp [h]) (by simp [hparen])
  exact ⟨(hc.bounds htwo).2, ((rest_if hr hp h).1 hparen).trans (hc.follows htwo r)⟩

/-- A block is read inside its braces, and is a statement outside. -/
theorem gives_block (h : kind tokens p = .leftBrace)
    (hblock : Gives tokens (rest tokens r.openBlock (p + 1)) { r with mode := .declaration }
      tree q fs) : Gives tokens (rest tokens r p) r tree q fs := by
  have hread : r.readStatement (current tokens p) = r.openBlock := by
    rw [kind] at h
    simp only [Reader.readStatement, h]
    rfl
  rw [rest_statement hr (lt_size hp (by simp [h])), hread]
  cases hblock with
  | returns hends helse heq => exact .returns (Reader.Ends.of_mode hends) helse heq
  | fails heq => exact .fails heq

end

/-- The branch before an `else` holds no `if` that would take it. -/
theorem rest_else {c : Expr}
    (h : Gives tokens program ((r.found fs).enter (.thenBranch c)) (some s) q gs)
    (hq : q ≤ size tokens) (helse : kind tokens q = .elseKw) :
    program = rest tokens ((r.found (fs ++ gs)).enter (.elseBranch c s)) (q + 1) := by
  cases h with
  | returns hends hopen heq =>
    have hclosed : s.endsOpen = false := by
      rw [← Bool.not_eq_true]
      exact fun h => hopen h helse
    rw [Reader.Ends, hclosed, if_neg Bool.false_ne_true] at hends
    rw [heq, hends, rest_of_lt (lt_size hq (by simp [helse])), ← Reader.found_found]
    exact congrArg (rest tokens · (q + 1)) (if_pos helse)

/-! ## The rules for declarations -/

section

variable (hr : AtDeclaration tokens r p)

include hr

theorem rest_var (h : kind tokens p = .varKw) :
    rest tokens r p = rest tokens { r with mode := .variableName } (p + 1) := by
  rw [kind] at h
  rw [rest_of_lt hr.lt]
  simp only [Reader.read, hr.mode, Reader.readDeclaration, h]

theorem rest_variable (h : kind tokens p = .varKw) (hname : kind tokens (p + 1) = .identifier) :
    rest tokens r p = rest tokens
      { r with
        mode := .initializer ⟨(current tokens (p + 1)).lexeme, (current tokens (p + 1)).line⟩ }
      (p + 2) := by
  rw [rest_var hr h, rest_of_lt (lt_size hr.lt (by simp [hname]))]
  exact congrArg (rest tokens · (p + 2)) (if_pos hname)

theorem gives_nameless (h : kind tokens p = .varKw)
    (hname : kind tokens (p + 1) ≠ .identifier) :
    Gives tokens (rest tokens r p) r none (p + 1) [⟨current tokens (p + 1), .variableName⟩] := by
  rw [rest_var hr h]
  exact .fails (rest_abandon hr.lt rfl (if_neg hname))

theorem gives_unended (h : kind tokens p = .varKw) (hname : kind tokens (p + 1) = .identifier)
    (hend : kind tokens (p + 2) ∉ [Kind.equal, .semicolon]) :
    Gives tokens (rest tokens r p) r none (p + 2)
      [⟨current tokens (p + 2), .semicolonAfterDeclaration⟩] := by
  rw [rest_variable hr h hname]
  refine .fails (rest_abandon (add_two_le_size (Nat.le_of_lt hr.lt) (by simp [h])
    (by simp [hname])) rfl ?_)
  rw [kind] at hend
  simp only [Reader.read]
  split
  · simp_all
  · simp_all
  · rfl

theorem gives_declared (h : kind tokens p = .varKw) (hname : kind tokens (p + 1) = .identifier)
    (hend : kind tokens (p + 2) = .semicolon) :
    Gives tokens (rest tokens r p) r
      (some (.declare ⟨(current tokens (p + 1)).lexeme, (current tokens (p + 1)).line⟩ none))
      (p + 3) [] := by
  have htwo := add_two_le_size (Nat.le_of_lt hr.lt) (by simp [h]) (by simp [hname])
  rw [rest_variable hr h hname, rest_of_lt (lt_size htwo (by simp [hend]))]
  refine .of_completeIn rfl ?_
  rw [kind] at hend
  simp only [Reader.read, hend]
  exact congrArg (rest tokens · (p + 3)) (Reader.completeIn_of_mode r _ _ _)

theorem gives_initialized {name : Name} (h : kind tokens p = .varKw)
    (hname : kind tokens (p + 1) = .identifier)
    (heq : name = ⟨(current tokens (p + 1)).lexeme, (current tokens (p + 1)).line⟩)
    (hequal : kind tokens (p + 2) = .equal)
    (hvalue : Expects tokens (.initializer name) (p + 3) out q fs) :
    Gives tokens (rest tokens r p) r (out.map fun e => .declare name (some e)) q fs := by
  subst heq
  have htwo := add_two_le_size (Nat.le_of_lt hr.lt) (by simp [h]) (by simp [hname])
  have hlt := lt_size htwo (by simp [hequal])
  rw [rest_variable hr h hname, rest_of_lt hlt]
  rw [kind] at hequal
  simp only [Reader.read, hequal]
  exact hvalue.gives hlt (fun _ _ => rfl) fun _ => rfl

end

theorem Gives.gained (h : Gives tokens program r (some s) q fs) (hr : r.clauses = [])
    (hq : q ≤ size tokens) : program = rest tokens (r.gained (some s) fs) q := by
  cases h with
  | @returns _ r' _ _ hends hopen heq =>
    have hmode : ((r.found fs).deliver s).mode = .declaration := Reader.mode_deliver _ _
    have hsettles := hends.settles hr
    rw [Reader.gained_some, heq]
    rcases Nat.lt_or_eq_of_le hq with hlt | rfl
    · by_cases hs : s.endsOpen = true
      · rw [rest_of_lt hlt, rest_of_lt hlt, hsettles.read hmode (hopen hs)]
      · rw [Reader.Ends, if_neg hs] at hends
        have hclauses : (r.found fs).clauses = [] := hr
        rw [hends, hclauses, Reader.completeIn]
    · have hfinish := Reader.Settles.finish (t := ending tokens) (.inl rfl) hmode
      rw [rest_size, rest_size, hsettles.finish hmode, hfinish]

/-- What has been given up is passed up to the next boundary. -/
theorem Gives.skipped (h : Gives tokens program r none q fs) (hq : q ≤ size tokens) {q' : Nat}
    (hskip : Boundary tokens (advance tokens q) q') :
    program = rest tokens (r.gained none fs) q' := by
  cases h with
  | fails heq =>
    have hlatest : advance tokens q < size tokens →
        kind tokens q = kind tokens (advance tokens q - 1) := by
      intro hlt
      rcases Nat.lt_or_eq_of_le hq with hlt' | rfl
      · rw [advance_of_lt hlt', Nat.add_sub_cancel]
      · rw [advance_size] at hlt
        exact absurd hlt (Nat.lt_irrefl _)
    have hfollows := hskip.follows (advance_bounds hq).2 (r.abandon fs (kind tokens q)) hlatest
    rw [Reader.gained_none r fs (kind tokens q), heq]
    exact hfollows

/-! ## Blocks -/

section

variable {b : OpenBlock} {bs : List OpenBlock} {done : List Stmt}

/-- The reader stands inside a block behind some of its statements. -/
structure InBlock (r : Reader) (b : OpenBlock) (bs : List OpenBlock) (done : List Stmt) :
    Prop where
  mode : r.mode = .declaration
  clauses : r.clauses = []
  blocks : r.blocks = b :: bs
  done : b.done = done.reverse

theorem gives_closed (hr : InBlock r b bs done) (hp : p ≤ size tokens)
    (h : kind tokens p = .rightBrace) :
    Gives tokens (rest tokens r p) (r.outside b bs) (some (.block done)) (p + 1) [] := by
  refine .of_completeIn rfl ?_
  rw [rest_of_lt (lt_size hp (by simp [h])), Reader.read_rightBrace hr.mode hr.blocks h, hr.done,
    List.reverse_reverse]
  exact congrArg (rest tokens · (p + 1))
    (Reader.completeIn_of_clauses { r with blocks := bs } b.around _ _).symm

/-- At the end the block is given up, and with it the blocks around it. -/
theorem gives_missing (hr : InBlock r b bs done) (hp : p ≤ size tokens)
    (h : kind tokens p = .eof) :
    Gives tokens (rest tokens r p) (r.outside b bs) none p
      [⟨current tokens p, .braceAfterBlock⟩] := by
  obtain rfl := eq_size hp h
  refine .fails ?_
  obtain ⟨slots, blocks, clauses, mode, faults⟩ := r
  obtain rfl : mode = .declaration := hr.mode
  obtain rfl : blocks = b :: bs := hr.blocks
  rw [advance_size, rest_size, rest_size, current_size]
  cases bs with
  | nil => rfl
  | cons b' bs =>
    have hbraces : ∀ f : Fault, ∀ fs, (b :: b' :: bs).map (fun _ => f) ++ fs =
        (b' :: bs).map (fun _ => f) ++ f :: fs := by
      intro f fs
      rw [List.map_const', List.map_const', List.length_cons, List.replicate_succ',
        List.append_assoc]
      rfl
    exact congrArg (fun fs => Program.mk (none :: slots).reverse fs.reverse) (hbraces _ faults)

theorem InBlock.gained (hr : InBlock r b bs done) (slot : Option Stmt) (fs : List Fault) :
    InBlock (r.gained slot fs) { b with done := slot.toList ++ b.done } bs
        (done ++ slot.toList) ∧
      (r.gained slot fs).outside { b with done := slot.toList ++ b.done } bs =
        (r.outside b bs).found fs := by
  obtain ⟨slots, blocks, clauses, mode, faults⟩ := r
  obtain rfl : blocks = b :: bs := hr.blocks
  obtain rfl : mode = .declaration := hr.mode
  have hdone : slot.toList ++ b.done = (done ++ slot.toList).reverse := by
    rw [List.reverse_append, hr.done]
    cases slot <;> rfl
  exact ⟨⟨rfl, rfl, rfl, hdone⟩, rfl⟩

end

/-! ## Programs -/

/-- How a reader follows a call for the task. -/
def Task.Follows (tokens : List Token) : Task → Nat → Option Stmt → Nat → List Fault → Prop
  | statement, p, tree, q, fs =>
    ∀ r, AtStatement tokens r p → Gives tokens (rest tokens r p) r tree q fs
  | attempt, p, tree, q, fs =>
    ∀ r, AtDeclaration tokens r p → Gives tokens (rest tokens r p) r tree q fs
  | declaration, p, tree, q, fs =>
    ∀ r, AtDeclaration tokens r p → rest tokens r p = rest tokens (r.gained tree fs) q
  | block done, p, tree, q, fs =>
    ∀ r b bs, InBlock r b bs done → Gives tokens (rest tokens r p) (r.outside b bs) tree q fs

theorem Parses.follows (h : Parses tokens task p tree q fs) (hp : p ≤ size tokens) :
    task.Follows tokens p tree q fs := by
  induction h with
  | print hk hvalue => exact fun r hr => gives_print hr hp hk hvalue
  | block hk _ ih =>
    intro r hr
    have hin : InBlock r.openBlock { around := r.clauses } r.blocks [] := ⟨rfl, rfl, rfl, rfl⟩
    exact gives_block hr hp hk (ih (lt_size hp (by simp [hk])) _ _ _ hin)
  | ifOpen hk hopen => exact fun r hr => (rest_if hr hp hk).2 hopen
  | ifFails hk hparen hc =>
    intro r hr
    have htwo := add_two_le_size hp (by simp [hk]) (by simp [hparen])
    rw [(rest_if hr hp hk).1 hparen]
    exact .fails (hc.follows htwo r)
  | thenFails hk hparen hc _ ih =>
    intro r hr
    obtain ⟨hq, hrest⟩ := rest_then hr hp hk hparen hc
    rw [hrest]
    exact (ih hq _ (.inl rfl)).of_enter nofun
  | ifThen hk hparen hc _ helse ih =>
    intro r hr
    obtain ⟨hq, hrest⟩ := rest_then hr hp hk hparen hc
    rw [hrest]
    exact (ih hq _ (.inl rfl)).of_enter fun _ _ _ => .inr helse
  | ifElse hk hparen hc hthen helse _ ih ih' =>
    intro r hr
    obtain ⟨hq, hrest⟩ := rest_then hr hp hk hparen hc
    have hq' := (hthen.bounds hq).2
    rw [hrest, rest_else (ih hq _ (.inl rfl)) hq' helse]
    refine (ih' (lt_size hq' (by simp [helse])) _ (.inl rfl)).of_enter ?_
    exact fun _ _ hopen => .inl hopen
  | whileOpen hk hopen => exact fun r hr => (rest_while hr hp hk).2 hopen
  | whileFails hk hparen hc =>
    intro r hr
    have htwo := add_two_le_size hp (by simp [hk]) (by simp [hparen])
    rw [(rest_while hr hp hk).1 hparen]
    exact .fails (hc.follows htwo r)
  | loop hk hparen hc _ ih =>
    intro r hr
    have htwo := add_two_le_size hp (by simp [hk]) (by simp [hparen])
    have hbody := hc.follows htwo r
    rw [(rest_while hr hp hk).1 hparen, hbody]
    exact (ih (hc.bounds htwo).2 _ (.inl rfl)).of_enter fun _ _ hopen => .inl hopen
  | expression hk hvalue => exact fun r hr => gives_expression hr hp hk hvalue
  | nameless hk hname => exact fun r hr => gives_nameless hr hk hname
  | unended hk hname hend => exact fun r hr => gives_unended hr hk hname hend
  | declared hk hname hend => exact fun r hr => gives_declared hr hk hname hend
  | initialized hk hname heq hequal hvalue =>
    exact fun r hr => gives_initialized hr hk hname heq hequal hvalue
  | undeclared hk _ ih => exact fun r hr => ih hp r (hr.atStatement hk)
  | succeeds h ih => exact fun r hr => (ih hp r hr).gained hr.clauses (h.bounds hp).2
  | recovers h hskip ih => exact fun r hr => (ih hp r hr).skipped (h.bounds hp).2 hskip
  | closed hk => exact fun r b bs hr => gives_closed hr hp hk
  | missing hk => exact fun r b bs hr => gives_missing hr hp hk
  | @next p q _ done slot _ fs _ hk h _ ih ih' =>
    intro r b bs hr
    simp only [List.mem_cons, List.not_mem_nil, or_false, not_or] at hk
    have hat : AtDeclaration tokens r p :=
      ⟨hr.mode, hr.clauses, lt_size hp hk.2, fun h => absurd h hk.1⟩
    obtain ⟨hin, hout⟩ := hr.gained slot fs
    have hrest := ih' (h.bounds hp).2 _ _ _ hin
    rw [← ih hp r hat, hout] at hrest
    exact hrest.of_found

/-- What the declarations of a program amount to. -/
theorem Collects.follows (h : Collects tokens p slots q fs) (hp : p ≤ size tokens)
    (hmode : r.mode = .declaration) (hclauses : r.clauses = []) (hblocks : r.blocks = []) :
    rest tokens r p = ⟨r.slots.reverse ++ slots, r.faults.reverse ++ fs⟩ := by
  induction h generalizing r with
  | @ended p hend =>
    obtain rfl := eq_size hp hend
    simp only [rest_size, Reader.finish, hmode, Reader.closeBlocks, hblocks, List.append_nil]
  | @next p q q' slot slots fs gs hne h _ ih =>
    have hat : AtDeclaration tokens r p := ⟨hmode, hclauses, lt_size hp hne, fun _ => hblocks⟩
    rw [h.follows hp r hat]
    obtain ⟨done, blocks, clauses, mode, faults⟩ := r
    obtain rfl : blocks = [] := hblocks
    have hrest := ih (r := Reader.gained ⟨done, [], clauses, mode, faults⟩ slot fs)
      (h.bounds hp).2 rfl rfl rfl
    rw [hrest]
    simp [Reader.gained, Reader.found]

/-- The program that a token sequence makes up is what its declarations amount to. -/
theorem Collects.parse (h : Collects tokens 0 slots q fs) : Parse.parse tokens = ⟨slots, fs⟩ :=
  h.follows (Nat.zero_le _) rfl rfl rfl (r := {})

theorem collects_parse (tokens : List Token) : Collects tokens 0 (Parse.parse tokens).slots
    (size tokens) (Parse.parse tokens).faults := by
  obtain ⟨slots, q, fs, h⟩ := exists_collects (Nat.zero_le (size tokens))
  obtain ⟨rfl, -⟩ := h.bounds (Nat.zero_le _)
  rwa [h.parse]

/-- A call returns in one way, and leaves the cursor between two places. -/
def ReturnsWithin {α : Type} (call : α → Nat → List Fault → Prop) (lo hi : Nat) : Prop :=
  ∃ out q fs, call out q fs ∧ lo ≤ q ∧ q ≤ hi ∧
    ∀ out' q' fs', call out' q' fs' → out' = out ∧ q' = q ∧ fs' = fs

/-- **The descent ends.** Before the first end, every call for a declaration returns behind the
place where it begins, also when it fails. So a call for any rule returns, and never behind the
first end; the declarations of a program are no more than its tokens, and what they amount to at
the first end is the program that is read. -/
theorem descent_ends (tokens : List Token) :
    (∀ p < size tokens,
      ReturnsWithin (Parses tokens .declaration p) (p + 1) (size tokens)) ∧
    (∀ p ≤ size tokens,
      (∀ part : Part, part.Valid → ReturnsWithin (Reads tokens part p) p (size tokens)) ∧
      ∀ task : Task, ReturnsWithin (Parses tokens task p) p (size tokens)) ∧
    kind tokens (size tokens) = .eof ∧ (∀ p < size tokens, kind tokens p ≠ .eof) ∧
    ReturnsWithin (Collects tokens 0) (size tokens) (size tokens) ∧
    Collects tokens 0 (Parse.parse tokens).slots (size tokens) (Parse.parse tokens).faults ∧
    (Parse.parse tokens).slots.length ≤ size tokens := by
  obtain ⟨slots, q, fs, h⟩ := exists_collects (Nat.zero_le (size tokens))
  obtain ⟨rfl, hlength⟩ := h.bounds (Nat.zero_le _)
  rw [Nat.zero_add] at hlength
  rw [h.parse]
  refine ⟨fun p hlt => ?_, fun p hp => ⟨fun part hpart => ?_, fun task => ?_⟩, kind_size tokens,
    fun p hlt => kind_ne_eof hlt, ?_, h, hlength⟩
  · have hp := Nat.le_of_lt hlt
    obtain ⟨tree, q, fs, h⟩ := settles hp .declaration
    exact ⟨tree, q, fs, h, h.declaration_lt hlt, (h.bounds hp).2, fun _ _ _ h' => h'.unique h⟩
  · obtain ⟨out, q, fs, h⟩ := returns hp part hpart
    obtain ⟨hle, hsize⟩ := h.bounds hp
    exact ⟨out, q, fs, h, hle, hsize, fun _ _ _ h' => h'.unique h⟩
  · obtain ⟨tree, q, fs, h⟩ := settles hp task
    obtain ⟨hle, hsize⟩ := h.bounds hp
    exact ⟨tree, q, fs, h, hle, hsize, fun _ _ _ h' => h'.unique h⟩
  · exact ⟨slots, size tokens, fs, h, Nat.le_refl _, Nat.le_refl _, fun _ _ _ h' => h'.unique h⟩

end Lox.Descent
