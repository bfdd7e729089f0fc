import Lox.Proofs.Eval.Adequate
import Lox.Proofs.Scope.Contour
import Lox.Proofs.Scope.Effect

/-!
# Running restores the scopes

* `Chain.Restored`: the scopes are the same again, with their names, but for declared names in the
  innermost (`Chain.Becomes.restored`);
* `Eval.Calls`: statements, expressions and blocks that a client has evaluated, inside and outside
  sections with a scope of their own;
* the main result: whatever is called, and however it ends, restores the scopes.
-/

namespace Lox

open Eval (Error State)

namespace Scope

variable {targets exposed : List String} {s t : Scope} {name : String}

theorem Becomes.contains_of_contains (h : s.Becomes targets exposed t)
    (hs : s.contains name = true) : t.contains name = true := by
  rcases h name with hsame | ⟨ht, -⟩
  · rwa [contains_eq_of_get? hsame]
  · exact ht

theorem Becomes.of_contains (h : s.Becomes targets exposed t) (ht : t.contains name = true) :
    s.contains name = true ∨ name ∈ exposed := by
  rcases h name with hsame | ⟨-, hx⟩
  · exact .inl (contains_eq_of_get? hsame ▸ ht)
  · exact hx.imp_left And.left

theorem Becomes.contains_eq (h : s.Becomes targets [] t) : t.contains = s.contains := by
  funext x
  have hiff : t.contains x = true ↔ s.contains x = true :=
    ⟨fun ht => (h.of_contains ht).resolve_right List.not_mem_nil, h.contains_of_contains⟩
  exact Bool.eq_iff_iff.mpr hiff

end Scope

namespace Chain

/-- There are as many scopes as before, each with its names; only the innermost may have more,
and these are among `exposed`. -/
structure Restored (exposed : List String) (c d : Chain) : Prop where
  depth : d.depth = c.depth
  outer : d.outer.map Scope.contains = c.outer.map Scope.contains
  kept : ∀ x, c.innermost.contains x = true → d.innermost.contains x = true
  added : ∀ x, d.innermost.contains x = true → c.innermost.contains x = true ∨ x ∈ exposed
  same : exposed = [] → d.innermost.contains = c.innermost.contains

variable {targets exposed : List String} {c d : Chain}

theorem depth_eq (c : Chain) : c.depth = c.outer.length + 1 := by
  rw [← List.length_cons, ← scopes_eq]
  simp [depth, scopes]

theorem Becomes.restored (h : c.Becomes targets exposed d) : c.Restored exposed d where
  depth := by rw [depth_eq, depth_eq, h.outer.length_eq]
  outer := by
    have hnames : List.Forall₂ (· = ·) (c.outer.map Scope.contains)
        (d.outer.map Scope.contains) := by
      rw [List.forall₂_map_left_iff, List.forall₂_map_right_iff]
      exact h.outer.imp fun _ _ hs => hs.contains_eq.symm
    rw [List.forall₂_eq_eq_eq] at hnames
    exact hnames.symm
  kept _ := h.innermost.contains_of_contains
  added _ := h.innermost.of_contains
  same := by
    rintro rfl
    exact h.innermost.contains_eq

/-- What is declared in a scope of its own is gone with it. -/
theorem Becomes.pop (h : c.push.Becomes targets exposed d) : c.Becomes targets [] d.pop := by
  obtain ⟨locals, globals⟩ := d
  cases locals with
  | nil =>
    have hlen := h.outer.length_eq
    simp [Chain.outer, Chain.scopes, push] at hlen
  | cons s rest => exact h.of_outer rfl rfl

end Chain

theorem Stmt.becomes_of_exec {bound : Nat} {t : Stmt} {s s' : State} {r : Except Error Unit}
    (h : exec bound t s = some (r, s')) : s.chain.Becomes t.targets t.exposed s'.chain := by
  obtain ⟨out, hruns, -⟩ := runs_of_exec t _ _ _ h
  exact hruns.becomes

theorem Eval.State.becomes_eval (s : State) (e : Expr) :
    s.chain.Becomes e.targets [] (s.eval e).2.chain :=
  (Expr.evaluates_of_eval (e := e) (c := s.chain) rfl).becomes

/-- Calls lead from one state to another, each made when the one before has been answered: a
statement or a block is executed, or an expression evaluated, with whatever result; or a section
of calls is made in a scope of its own, which is left after them. The list has the statements that
were executed outside all sections. -/
inductive Eval.Calls : List Stmt → State → State → Prop
  | done (s : State) : Calls [] s s
  | execute {bound : Nat} {t : Stmt} {ts : List Stmt} {s s' s'' : State} {r : Except Error Unit} :
      Stmt.exec bound t s = some (r, s') → Calls ts s' s'' → Calls (t :: ts) s s''
  | evaluate {e : Expr} {ts : List Stmt} {s s' : State} :
      Calls ts (s.eval e).2 s' → Calls ts s s'
  | executeBlock {bound : Nat} {us ts : List Stmt} {s s' s'' : State} {r : Except Error Unit} :
      Stmt.execAll bound us s.push = some (r, s') → Calls ts s'.pop s'' → Calls ts s s''
  | inScope {us ts : List Stmt} {s s' s'' : State} :
      Calls us s.push s' → Calls ts s'.pop s'' → Calls ts s s''

theorem Eval.Calls.becomes {ts : List Stmt} {s s' : State} (h : Calls ts s s') :
    ∃ targets, s.chain.Becomes targets (Stmt.exposedAll ts) s'.chain := by
  induction h with
  | done s => exact ⟨[], .refl _⟩
  | execute hexec _ ih =>
    obtain ⟨targets, hrest⟩ := ih
    exact ⟨_, (Stmt.becomes_of_exec hexec).append hrest⟩
  | @evaluate e _ s _ _ ih =>
    obtain ⟨targets, hrest⟩ := ih
    exact ⟨_, (s.becomes_eval e).append hrest⟩
  | executeBlock hexec _ ih =>
    obtain ⟨out, hruns, -⟩ := Stmt.runsAll_of_execAll _ _ _ _ hexec
    obtain ⟨targets, hrest⟩ := ih
    exact ⟨_, hruns.becomes.pop.append hrest⟩
  | inScope _ _ ihin ih =>
    obtain ⟨targets, hin⟩ := ihin
    obtain ⟨targets', hrest⟩ := ih
    exact ⟨_, hin.pop.append hrest⟩

/-- **Running restores the scopes.** A statement that ends, well or in an error, has left every
scope that it entered and has declared nothing but the names that it declares outside its blocks,
all in the innermost scope. An expression declares and prints nothing. Calls in scopes of their
own, nested as they may be, restore the scopes as single statements do. -/
theorem scopes_restored :
    (∀ {bound : Nat} {t : Stmt} {s s' : State} {r : Except Error Unit},
      Stmt.exec bound t s = some (r, s') → s.chain.Restored t.exposed s'.chain) ∧
    (∀ (e : Expr) (s : State), (s.eval e).2.chain.contour = s.chain.contour ∧
      (s.eval e).2.output = s.output) ∧
    (∀ {ts : List Stmt} {s s' : State}, Eval.Calls ts s s' →
      s.chain.Restored (Stmt.exposedAll ts) s'.chain) := by
  refine ⟨fun h => (Stmt.becomes_of_exec h).restored, fun e s => ⟨s.contour_eval e, rfl⟩, ?_⟩
  intro ts s s' h
  obtain ⟨targets, hbecomes⟩ := h.becomes
  exact hbecomes.restored

/-- A block in which a variable is declared ends in an error. Around it, in a scope of its own,
another variable has been declared. -/
theorem scopes_restored_error : ∃ s s' : State,
    Stmt.exec 1 (.block [.declare ⟨"b", 2⟩ none,
      .expression (.unary .negate 3 (.var ⟨"b", 3⟩))]) s =
        some (.error ⟨.operandNotNumber, 3⟩, s') ∧
    s.chain.Restored [] s'.chain ∧
    Eval.Calls [] {} s'.pop ∧ ({} : Chain).Restored [] s'.pop.chain := by
  have hdeclare : Stmt.exec 1 (.declare ⟨"a", 1⟩ none) ({} : State).push =
      some (.ok (), ⟨⟨[⟨[("a", .nil)]⟩], {}⟩, .empty⟩) := rfl
  have hblock : Stmt.exec 1 (.block [.declare ⟨"b", 2⟩ none,
      .expression (.unary .negate 3 (.var ⟨"b", 3⟩))]) ⟨⟨[⟨[("a", .nil)]⟩], {}⟩, .empty⟩ =
      some (.error ⟨.operandNotNumber, 3⟩, ⟨⟨[⟨[("a", .nil)]⟩], {}⟩, .empty⟩) := rfl
  have hcalls := Eval.Calls.inScope (.execute hdeclare (.execute hblock (.done _))) (.done _)
  exact ⟨_, _, hblock, scopes_restored.1 hblock, hcalls, scopes_restored.2.2 hcalls⟩

end Lox
