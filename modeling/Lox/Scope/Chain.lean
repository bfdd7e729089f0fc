import Lox.Value

/-!
# Scopes

* `Scope`: the variables of one block with their values (`get?_define_self`, `get?_define_of_ne`);
* `Chain`: the active scopes, the innermost first, above the global one;
* `Chain.get?`, `Chain.assign?`: the innermost scope that has a name answers for it;
* `Chain.push`, `Chain.pop`, `Chain.define`: the global scope always stays.
-/

namespace Lox

/-- The variables of one block. -/
structure Scope where
  entries : List (String × Value) := []
  deriving DecidableEq, Inhabited

namespace Scope

/-- The value of a name. -/
def get? (s : Scope) (name : String) : Option Value := s.entries.lookup name

/-- The scope has the name. -/
def contains (s : Scope) (name : String) : Bool := (s.get? name).isSome

/-- Gives a name a value, whether the scope has the name or not. -/
def define (s : Scope) (name : String) (v : Value) : Scope :=
  if s.contains name then ⟨s.entries.map fun e => (e.1, if e.1 = name then v else e.2)⟩
  else ⟨(name, v) :: s.entries⟩

private theorem lookup_update (name other : String) (v : Value)
    (entries : List (String × Value)) :
    (entries.map fun e => (e.1, if e.1 = name then v else e.2)).lookup other =
      (entries.lookup other).map fun w => if other = name then v else w := by
  induction entries with
  | nil => rfl
  | cons e rest ih =>
    obtain ⟨k, w⟩ := e
    simp only [List.map_cons, List.lookup_cons]
    cases hk : other == k with
    | true =>
      rw [beq_iff_eq] at hk
      simp [hk]
    | false => exact ih

@[simp] theorem get?_define_self (s : Scope) (name : String) (v : Value) :
    (s.define name v).get? name = some v := by
  rw [define]
  by_cases h : s.contains name = true
  · obtain ⟨w, hw⟩ := Option.isSome_iff_exists.mp h
    rw [get?] at hw
    rw [if_pos h, get?, lookup_update, hw]
    simp
  · rw [if_neg h]
    simp [get?]

theorem get?_define_of_ne (s : Scope) {name other : String} (h : other ≠ name) (v : Value) :
    (s.define name v).get? other = s.get? other := by
  unfold define
  split
  · rw [get?, lookup_update, get?]
    simp [h]
  · simp [get?, List.lookup_cons, beq_false_of_ne h]

end Scope

/-- The active scopes. -/
structure Chain where
  /-- The scopes of the blocks that are being executed, the innermost first. -/
  locals : List Scope := []
  globals : Scope := {}
  deriving DecidableEq, Inhabited

namespace Chain

/-- The number of active scopes. -/
def depth (c : Chain) : Nat := c.locals.length + 1

/-- Enters a block. -/
def push (c : Chain) : Chain := { c with locals := {} :: c.locals }

/-- Leaves a block. The global scope cannot be left. -/
def pop (c : Chain) : Chain := { c with locals := c.locals.tail }

/-- Gives a name a value in the innermost scope. -/
def define (c : Chain) (name : String) (v : Value) : Chain :=
  match c.locals with
  | [] => { c with globals := c.globals.define name v }
  | s :: rest => { c with locals := s.define name v :: rest }

/-- The value of a name in the innermost scope that has it. -/
def get? (c : Chain) (name : String) : Option Value :=
  (c.locals.findSome? (·.get? name)).or (c.globals.get? name)

/-- Changes a name's value in the innermost scope that has it, if there is one. -/
def assign? (c : Chain) (name : String) (v : Value) : Option Chain :=
  match c.locals.findIdx? (·.contains name) with
  | some i => some { c with locals := c.locals.modify i (·.define name v) }
  | none =>
    if c.globals.contains name then some { c with globals := c.globals.define name v } else none

/-- The value of a name in the global scope. -/
def global? (c : Chain) (name : String) : Option Value := c.globals.get? name

@[simp] theorem pop_push (c : Chain) : c.push.pop = c := rfl

@[simp] theorem depth_push (c : Chain) : c.push.depth = c.depth + 1 := rfl

@[simp] theorem get?_push (c : Chain) (name : String) : c.push.get? name = c.get? name := rfl

@[simp] theorem get?_define_self (c : Chain) (name : String) (v : Value) :
    (c.define name v).get? name = some v := by
  unfold define
  split <;> simp_all [get?]

/-- An assignment succeeds exactly when the name has a value. -/
theorem isSome_assign? (c : Chain) (name : String) (v : Value) :
    (c.assign? name v).isSome = (c.get? name).isSome := by
  unfold assign? get?
  cases hfind : c.locals.findIdx? (·.contains name) with
  | some i =>
    obtain ⟨hi, hname, -⟩ := List.findIdx?_eq_some_iff_getElem.mp hfind
    have hsome : (c.locals.findSome? (·.get? name)).isSome = true :=
      List.findSome?_isSome_iff.mpr ⟨c.locals[i], List.getElem_mem hi, hname⟩
    simp [Option.isSome_or, hsome]
  | none =>
    have hnone : c.locals.findSome? (·.get? name) = none := by
      rw [List.findSome?_eq_none_iff]
      intro s hs
      simpa [Scope.contains] using List.findIdx?_eq_none_iff.mp hfind s hs
    simp only [hnone, Option.none_or]
    split <;> simp_all [Scope.contains]

theorem depth_of_assign? {c d : Chain} {name : String} {v : Value}
    (h : c.assign? name v = some d) : d.depth = c.depth := by
  unfold assign? at h
  split at h
  · cases h
    simp [depth]
  · split at h
    · cases h
      rfl
    · cases h

end Chain

end Lox
