import Lox.Proofs.Scope.Footprint

/-!
# Blocks that declare nothing

A block has a scope of its own. If none of its statements declares a variable there, the scope stays
empty, and nothing tells the block from its statements one after the other.

* `Chain.OneMore`: the same scopes, but for an empty one among them;
* `Chain.simulation_oneMore`: the operations on scopes keep it, as long as nothing is declared in
  the empty scope;
* the main result: running such a block.
-/

namespace Lox

open Eval (Error State)

/-- The second chain has an empty scope that the first has not. On it stand the scopes of `k` blocks
that have been entered since. -/
inductive Chain.OneMore : Nat → Chain → Chain → Prop
  | here (c : Chain) : OneMore 0 c c.push
  | under {k : Nat} {locals locals' : List Scope} {globals globals' : Scope} (s : Scope) :
      OneMore k ⟨locals, globals⟩ ⟨locals', globals'⟩ →
      OneMore (k + 1) ⟨s :: locals, globals⟩ ⟨s :: locals', globals'⟩

namespace Chain

theorem assign?_push (c : Chain) (name : String) (v : Value) :
    c.push.assign? name v = (c.assign? name v).map push :=
  assign?_cons {} c.locals c.globals name v

namespace OneMore

variable {k : Nat} {c d : Chain}

theorem get?_eq (h : OneMore k c d) (name : String) : d.get? name = c.get? name := by
  induction h with
  | here c => exact c.get?_push name
  | under s _ ih => rw [get?_cons, get?_cons, ih]

theorem assign? (h : OneMore k c d) (name : String) (v : Value) :
    Option.Rel (OneMore k) (c.assign? name v) (d.assign? name v) := by
  induction h with
  | here c =>
    rw [assign?_push]
    cases c.assign? name v with
    | none => exact .none
    | some c' => exact .some (.here c')
  | @under k locals locals' globals globals' s h ih =>
    rw [assign?_cons, assign?_cons]
    split
    · exact .some (.under _ h)
    · revert ih
      generalize Chain.assign? ⟨locals, globals⟩ name v = o,
        Chain.assign? ⟨locals', globals'⟩ name v = o'
      rintro (h' | -)
      · exact .some (.under s h')
      · exact .none

end OneMore

/-- Nothing but declarations in it can tell that an empty scope is there. -/
theorem simulation_oneMore : Simulation id (fun _ => True) (fun _ => False) OneMore where
  get? h _ := h.get?_eq _
  assign? v h _ := h.assign? _ v
  define v h _ htop := by
    cases h with
    | here => exact (htop rfl).elim
    | under s h => exact .under _ h
  push h := .under {} h
  pop h := by
    cases h with
    | under _ h => exact h

end Chain

theorem Eval.mapError_rename_id {α : Type} (result : Except Error α) :
    result.mapError (·.rename id) = result := by
  cases result with
  | error err => exact congrArg Except.error err.rename_id
  | ok _ => rfl

/-- **A block that declares nothing makes no difference.** If all declarations in its statements
stand in blocks of their own, then running the block is running the statements in order up to the
first error: within any bound neither ends, or both do, with the same result, the same text printed
and the same scopes. -/
theorem exec_block_of_bare (bound : Nat) {ss : List Stmt} (h : Stmt.exposedAll ss = [])
    (s : State) : (Stmt.block ss).exec bound s = Stmt.execAll bound ss s := by
  have hpush : s.Related (Chain.OneMore 0) s.push := ⟨.here s.chain, rfl⟩
  have hrel := Chain.simulation_oneMore.execAll bound ss (fun _ _ => trivial)
    (fun _ x hx => by simp [h] at hx) hpush
  rw [Stmt.renameAll_id] at hrel
  rw [Stmt.exec]
  rcases hrel.cases with ⟨ho, ho'⟩ | ⟨result, t, t', ho, ho', hchain, hout⟩ <;> rw [ho, ho']
  · obtain ⟨c, output⟩ := t
    obtain ⟨d, output'⟩ := t'
    cases hchain
    cases hout
    rw [Eval.mapError_rename_id]
    rfl

/-- A loop assigns a variable from a block within the block, the block prints it, and an error stops
it. -/
theorem exec_block_of_bare_loop : ∃ (ss : List Stmt) (s t : State),
    ss = [.loop (.var ⟨"a", 1⟩) (.block [.declare ⟨"b", 2⟩ none,
        .expression (.assign ⟨"a", 3⟩ (.var ⟨"b", 3⟩))]),
      .print (.var ⟨"a", 4⟩), .expression (.unary .negate 5 (.var ⟨"a", 5⟩)),
      .print (.var ⟨"a", 6⟩)] ∧
    Stmt.exposedAll ss = [] ∧ s.chain.get? "a" = some (.bool true) ∧
    t.chain = ⟨[⟨[("a", .nil)]⟩], {}⟩ ∧ t.output = .buffer "nil\n" ∧
    (Stmt.block ss).exec 2 s = some (.error ⟨.operandNotNumber, 5⟩, t) ∧
    Stmt.execAll 2 ss s = some (.error ⟨.operandNotNumber, 5⟩, t) := by
  have hrun : Stmt.execAll 2 [.loop (.var ⟨"a", 1⟩) (.block [.declare ⟨"b", 2⟩ none,
        .expression (.assign ⟨"a", 3⟩ (.var ⟨"b", 3⟩))]),
      .print (.var ⟨"a", 4⟩), .expression (.unary .negate 5 (.var ⟨"a", 5⟩)),
      .print (.var ⟨"a", 6⟩)] ⟨⟨[⟨[("a", .bool true)]⟩], {}⟩, .empty⟩ =
      some (.error ⟨.operandNotNumber, 5⟩, ⟨⟨[⟨[("a", .nil)]⟩], {}⟩, .buffer "nil\n"⟩) := rfl
  exact ⟨_, _, _, rfl, rfl, rfl, rfl, rfl, (exec_block_of_bare 2 rfl _).trans hrun, hrun⟩

end Lox
