import Lox.Scope.Chain

/-!
# Linked scopes

The active scopes as cells. Each cell is linked to the one around it; the cells of the active
scopes stand on a stack, and the global cell is known besides.

* `Linked.Cell`, `Linked`: a scope with its link, and the cells with the stack;
* `Linked.holder?`: the cell that is found for a name along the links;
* `Linked.push`, `Linked.pop`, `Linked.define`, `Linked.assign?`, `Linked.get?`, `Linked.global?`:
  what a client does to the scopes and asks for.
-/

namespace Lox

/-- A scope and the handle of the one around it. -/
structure Linked.Cell where
  scope : Scope := {}
  enclosing : Option Nat := none
  deriving DecidableEq

/-- Scopes that are linked. The handle of a cell is its place among the cells, the oldest first. -/
structure Linked where
  cells : List Linked.Cell
  /-- The handles of the active scopes, the innermost first. -/
  stack : List Nat
  global : Nat
  /-- Links lead to older cells. -/
  older : ∀ (i : Nat) (cell : Linked.Cell), cells[i]? = some cell → ∀ e ∈ cell.enclosing, e < i
  created : ∀ i ∈ global :: stack, i < cells.length

namespace Linked

/-- The global scope alone. -/
def fresh : Linked where
  cells := [{}]
  stack := [0]
  global := 0
  older := by
    intro i cell hcell e he
    cases i with
    | zero =>
      cases hcell
      cases he
    | succ i => cases hcell
  created := by decide

/-- The number of active scopes. -/
def depth (l : Linked) : Nat := l.stack.length

/-- The cell of the innermost scope. -/
def current (l : Linked) : Nat := l.stack.headD l.global

theorem current_lt (l : Linked) : l.current < l.cells.length := by
  refine l.created _ ?_
  rw [current]
  cases l.stack with
  | nil => exact List.mem_cons_self
  | cons i is => exact List.mem_cons_of_mem _ List.mem_cons_self

/-- The cell with the name that comes first along the links, from the cell `i` on. -/
def holder? (l : Linked) (name : String) (i : Nat) : Option Nat :=
  match _hcell : l.cells[i]? with
  | none => none
  | some cell =>
    if cell.scope.contains name then some i
    else match _he : cell.enclosing with
      | none => none
      | some e => l.holder? name e
termination_by i
decreasing_by exact l.older i cell _hcell e _he

/-- Enters a block. -/
def push (l : Linked) : Linked where
  cells := l.cells ++ [{ enclosing := some l.current }]
  stack := l.cells.length :: l.stack
  global := l.global
  older := by
    intro i cell hcell e he
    rcases Nat.lt_or_ge i l.cells.length with hi | hi
    · rw [List.getElem?_append_left hi] at hcell
      exact l.older i cell hcell e he
    · rw [List.getElem?_append_right hi, List.getElem?_singleton] at hcell
      obtain ⟨-, hchild⟩ := Option.ite_none_right_eq_some.mp hcell
      cases hchild
      cases he
      exact Nat.lt_of_lt_of_le l.current_lt hi
  created := by
    intro i hi
    rw [List.length_append, List.length_singleton]
    rcases List.mem_cons.mp hi with rfl | hi
    · exact Nat.lt_succ_of_lt (l.created _ List.mem_cons_self)
    · rcases List.mem_cons.mp hi with rfl | hi
      · exact Nat.lt_succ_self _
      · exact Nat.lt_succ_of_lt (l.created _ (List.mem_cons_of_mem _ hi))

/-- Leaves a block. The global scope cannot be left. -/
def pop (l : Linked) : Linked :=
  if 1 < l.stack.length then
    { l with
      stack := l.stack.tail
      created := fun i hi => l.created i
        ((List.mem_cons.mp hi).elim (· ▸ List.mem_cons_self)
          fun h => List.mem_cons_of_mem _ (List.mem_of_mem_tail h)) }
  else l

/-- Changes the scope of one cell. -/
def update (l : Linked) (i : Nat) (f : Scope → Scope) : Linked where
  cells := l.cells.modify i fun cell => { cell with scope := f cell.scope }
  stack := l.stack
  global := l.global
  older := by
    intro j cell hcell e he
    rw [List.getElem?_modify] at hcell
    obtain ⟨before, hbefore, rfl⟩ := Option.map_eq_some_iff.mp hcell
    refine l.older j before hbefore e ?_
    split at he <;> exact he
  created := by
    intro j hj
    rw [List.length_modify]
    exact l.created j hj

/-- Gives a name a value in the innermost scope. -/
def define (l : Linked) (name : String) (v : Value) : Linked := l.update l.current (·.define name v)

/-- The value of a name in the first scope along the links that has it. -/
def get? (l : Linked) (name : String) : Option Value :=
  (l.holder? name l.current).bind fun i => l.cells[i]?.bind (·.scope.get? name)

/-- Changes a name's value in the first scope along the links that has it, if there is one. -/
def assign? (l : Linked) (name : String) (v : Value) : Option Linked :=
  (l.holder? name l.current).map fun i => l.update i (·.define name v)

/-- The value of a name in the global scope. -/
def global? (l : Linked) (name : String) : Option Value :=
  l.cells[l.global]?.bind (·.scope.get? name)

end Linked

end Lox
