import Lox.Scope.Linked
import Lox.Proofs.Scope.Height

/-!
# Linked scopes answer as the chain does

* `Linked.Leads`: the handles and the scopes along the links;
* `Linked.Leads.holder?_cases`: the first of them that has a name is found, and can be changed
  alone;
* `Linked.Represents`: the links, the stack and the global cell agree with a chain
  (`Represents.step`: a step keeps this);
* the main result: `Linked.answers_of_chain`.
-/

namespace Lox.Linked

variable {l l' : Linked} {c : Chain} {e : Option Nat} {is : List Nat} {ss : List Scope} {i j : Nat}
  {name : String} {v : Value}

/-! ## Along the links -/

theorem holder?_of_cell {cell : Cell} (h : l.cells[i]? = some cell) (name : String) :
    l.holder? name i =
      if cell.scope.contains name then some i else cell.enclosing.bind (l.holder? name) := by
  rw [holder?]
  split
  · simp_all
  · obtain rfl : cell = _ := Option.some.inj (h.symm.trans ‹_›)
    split_ifs
    · rfl
    · cases henclosing : cell.enclosing <;> rfl

/-- Along the links from `e` stand the handles `is` with the scopes `ss`. -/
inductive Leads (l : Linked) : Option Nat → List Nat → List Scope → Prop
  | nil : Leads l none [] []
  | cons {i : Nat} {cell : Cell} {is : List Nat} {ss : List Scope} : l.cells[i]? = some cell →
      Leads l cell.enclosing is ss → Leads l (some i) (i :: is) (cell.scope :: ss)

theorem Leads.head?_eq (h : l.Leads e is ss) : is.head? = e := by
  cases h <;> rfl

theorem Leads.exists_cons {s : Scope} (h : l.Leads e is (s :: ss)) : ∃ i cell rest, e = some i ∧
    is = i :: rest ∧ l.cells[i]? = some cell ∧ cell.scope = s ∧
      l.Leads cell.enclosing rest ss := by
  cases h with
  | @cons i cell rest _ hcell hrest => exact ⟨i, cell, rest, rfl, rfl, hcell, rfl, hrest⟩

theorem Leads.length_eq (h : l.Leads e is ss) : is.length = ss.length := by
  induction h with
  | nil => rfl
  | cons _ _ ih => exact congrArg (· + 1) ih

theorem Leads.lt (h : l.Leads e is ss) (he : ∀ i ∈ e, i < j) : ∀ i ∈ is, i < j := by
  induction h generalizing j with
  | nil => nofun
  | @cons k cell is ss hcell _ ih =>
    have hk : k < j := he k rfl
    have hrest := ih fun i hi => Nat.lt_trans (l.older k cell hcell i hi) hk
    exact List.forall_mem_cons.mpr ⟨hk, hrest⟩

theorem Leads.congr (h : l.Leads e is ss) (hcells : ∀ i ∈ is, l'.cells[i]? = l.cells[i]?) :
    l'.Leads e is ss := by
  induction h with
  | nil => exact .nil
  | cons hcell _ ih =>
    obtain ⟨hsame, hrest⟩ := List.forall_mem_cons.mp hcells
    exact .cons (hsame.trans hcell) (ih hrest)

theorem cells_update (l : Linked) (i j : Nat) (f : Scope → Scope) :
    (l.update i f).cells[j]? = l.cells[j]?.map fun cell =>
      if i = j then { cell with scope := f cell.scope } else cell := by
  rw [update, List.getElem?_modify]
  cases l.cells[j]? with
  | none => rfl
  | some cell => split_ifs <;> rfl

theorem cells_update_of_ne (h : i ≠ j) (f : Scope → Scope) :
    (l.update i f).cells[j]? = l.cells[j]? := by
  rw [cells_update]
  simp [h]

theorem Leads.update_head {cell : Cell} (hcell : l.cells[i]? = some cell)
    (h : l.Leads cell.enclosing is ss) (f : Scope → Scope) :
    (l.update i f).Leads (some i) (i :: is) (f cell.scope :: ss) := by
  have hnew : (l.update i f).cells[i]? = some { cell with scope := f cell.scope } := by
    rw [cells_update, hcell]
    simp
  have hlt := h.lt fun j hj => l.older i cell hcell j hj
  exact .cons hnew (h.congr fun j hj => cells_update_of_ne (Nat.ne_of_gt (hlt j hj)) f)

/-- No scope along the links has the name, or the first one that has it is found. Its cell can be
changed without changing the other scopes. -/
theorem Leads.holder?_cases (h : l.Leads e is ss) (name : String) :
    (e.bind (l.holder? name) = none ∧ ∀ s ∈ ss, s.contains name = false) ∨
    ∃ i cell inner outer, e.bind (l.holder? name) = some i ∧ i ∈ is ∧
      l.cells[i]? = some cell ∧ ss = inner ++ cell.scope :: outer ∧
      cell.scope.contains name = true ∧ (∀ s ∈ inner, s.contains name = false) ∧
      ∀ f, (l.update i f).Leads e is (inner ++ f cell.scope :: outer) := by
  induction h with
  | nil => exact .inl ⟨rfl, nofun⟩
  | @cons k cell is ss hcell hrest ih =>
    rw [Option.bind_some, holder?_of_cell hcell]
    cases hhas : cell.scope.contains name with
    | true =>
      exact .inr ⟨k, cell, [], ss, rfl, List.mem_cons_self, hcell, rfl, hhas, nofun,
        hrest.update_head hcell⟩
    | false =>
      rw [if_neg Bool.false_ne_true]
      rcases ih with ⟨hnone, hall⟩ | ⟨i, found, inner, outer, hi, hmem, hfound, rfl, hname, hpassed,
        hupdate⟩
      · exact .inl ⟨hnone, List.forall_mem_cons.mpr ⟨hhas, hall⟩⟩
      · -- The cell that is found lies further along the links.
        have hne : i ≠ k := Nat.ne_of_lt (hrest.lt (fun j hj => l.older k cell hcell j hj) i hmem)
        refine .inr ⟨i, found, cell.scope :: inner, outer, hi, List.mem_cons_of_mem _ hmem, hfound,
          rfl, hname, List.forall_mem_cons.mpr ⟨hhas, hpassed⟩, fun f => ?_⟩
        exact .cons ((cells_update_of_ne hne f).trans hcell) (hupdate f)

theorem Leads.cell_getLast? {s : Scope} (h : l.Leads e is ss) (hi : is.getLast? = some i)
    (hs : ss.getLast? = some s) : ∃ cell, l.cells[i]? = some cell ∧ cell.scope = s := by
  induction h with
  | nil => cases hi
  | @cons k cell is ss hcell hrest ih =>
    have hlength := hrest.length_eq
    cases is with
    | nil =>
      obtain rfl := List.eq_nil_of_length_eq_zero hlength.symm
      cases hi
      cases hs
      exact ⟨cell, hcell, rfl⟩
    | cons k' is =>
      obtain ⟨s', ss, rfl⟩ := List.exists_cons_of_length_eq_add_one hlength.symm
      exact ih hi hs

/-! ## Agreement with a chain -/

/-- The links lead from the innermost scope along the stack through the scopes of the chain, and
the last cell is the global one. -/
structure Represents (l : Linked) (c : Chain) : Prop where
  leads : l.Leads (some l.current) l.stack c.scopes
  global : l.stack.getLast? = some l.global

theorem represents_fresh : fresh.Represents {} :=
  ⟨@Leads.cons fresh 0 {} [] [] rfl .nil, rfl⟩

namespace Represents

theorem depth_eq (h : l.Represents c) : l.depth = c.depth := by
  rw [depth, h.leads.length_eq, Chain.scopes, List.length_append]
  rfl

/-- The chain finds for a name what is found along the links. -/
theorem holder?_cases (h : l.Represents c) (name : String) :
    (l.holder? name l.current = none ∧ c.Unbound name) ∨
    ∃ i cell inner outer, l.holder? name l.current = some i ∧ l.cells[i]? = some cell ∧
      c.Nearest name inner cell.scope outer ∧
      ∀ f, (l.update i f).Leads (some l.current) l.stack (inner ++ f cell.scope :: outer) := by
  rcases h.leads.holder?_cases name with hnone | ⟨i, cell, inner, outer, hi, -, hcell, hsplit, hhas,
    hpassed, hupdate⟩
  · exact .inl hnone
  · exact .inr ⟨i, cell, inner, outer, hi, hcell, ⟨hsplit, hhas, hpassed⟩, hupdate⟩

theorem get?_eq (h : l.Represents c) (name : String) : l.get? name = c.get? name := by
  rcases h.holder?_cases name with ⟨hnone, hunbound⟩ | ⟨i, cell, inner, outer, hi, hcell, hnear, -⟩
  · rw [get?, hnone, Chain.get?_eq_none_iff_unbound.mpr hunbound]
    rfl
  · obtain ⟨v, hv⟩ : ∃ v, cell.scope.get? name = some v := Option.isSome_iff_exists.mp hnear.has
    rw [get?, hi, Option.bind_some, hcell, Option.bind_some, hv]
    exact (Chain.get?_eq_some_iff.mpr ⟨inner, cell.scope, outer, hnear, hv⟩).symm

theorem assign? (h : l.Represents c) (name : String) (v : Value) :
    Option.Rel Represents (l.assign? name v) (c.assign? name v) := by
  rcases h.holder?_cases name with ⟨hnone, hunbound⟩ | ⟨i, cell, inner, outer, hi, -, hnear,
    hupdate⟩
  · rw [Linked.assign?, hnone, Chain.assign?_eq_none_iff.mpr hunbound]
    exact .none
  · obtain ⟨d, hd, hscopes⟩ := hnear.exists_assign? v
    rw [Linked.assign?, hi, hd]
    refine .some ⟨?_, h.global⟩
    rw [hscopes]
    exact hupdate _

theorem global?_eq (h : l.Represents c) (name : String) : l.global? name = c.global? name := by
  obtain ⟨cell, hcell, hscope⟩ := h.leads.cell_getLast? h.global (List.getLast?_concat ..)
  rw [global?, hcell, Option.bind_some, hscope, Chain.global?]

theorem push (h : l.Represents c) : l.push.Represents c.push := by
  have hnew : l.push.cells[l.cells.length]? = some { enclosing := some l.current } :=
    List.getElem?_concat_length ..
  have hrest : l.push.Leads (some l.current) l.stack c.scopes := h.leads.congr fun i hi =>
    List.getElem?_append_left (l.created i (List.mem_cons_of_mem _ hi))
  refine ⟨.cons hnew hrest, ?_⟩
  rw [Linked.push, List.getLast?_cons, h.global]
  rfl

theorem pop (h : l.Represents c) : l.pop.Represents c.pop := by
  have hlength := h.leads.length_eq
  obtain ⟨locals, globals⟩ := c
  cases locals with
  | nil =>
    have hone : ¬ 1 < l.stack.length := by simp [hlength, Chain.scopes]
    rw [Linked.pop, if_neg hone]
    exact h
  | cons s rest =>
    have hmany : 1 < l.stack.length := by simp [hlength, Chain.scopes]
    obtain ⟨i, cell, is, -, hstack, -, -, hrest⟩ := h.leads.exists_cons
    have hglobal := h.global
    rw [Linked.pop, if_pos hmany]
    cases is with
    | nil => simp [hstack] at hmany
    | cons k is =>
      -- The link of the cell that is left leads to the next one on the stack.
      rw [hstack, List.getLast?_cons_cons] at hglobal
      rw [← hrest.head?_eq] at hrest
      refine ⟨?_, ?_⟩
      · simp only [current, hstack, List.tail_cons]
        exact hrest.congr fun _ _ => rfl
      · simpa only [hstack, List.tail_cons] using hglobal

theorem define (h : l.Represents c) (name : String) (v : Value) :
    (l.define name v).Represents (c.define name v) := by
  obtain ⟨s, outer, hscopes, hdefine⟩ := Chain.scopes_define c name v
  have hleads := h.leads
  rw [hscopes] at hleads
  obtain ⟨i, cell, is, hcurrent, hstack, hcell, rfl, hrest⟩ := hleads.exists_cons
  refine ⟨?_, h.global⟩
  have hchanged := hrest.update_head hcell (·.define name v)
  rw [← hcurrent, ← hstack, ← hdefine, ← Option.some.inj hcurrent] at hchanged
  exact hchanged

end Represents

/-! ## Steps -/

/-- An assignment to a name that no scope has changes nothing. -/
def step (l : Linked) : Chain.Step → Linked
  | .push => l.push
  | .pop => l.pop
  | .define name v => l.define name v
  | .assign name v => (l.assign? name v).getD l

/-- The scopes after the steps `xs`, of which the earliest stands first. -/
def after (xs : List Chain.Step) : Linked := xs.foldl step fresh

theorem Represents.step (h : l.Represents c) (s : Chain.Step) :
    (l.step s).Represents (c.step s) := by
  cases s with
  | push => exact h.push
  | pop => exact h.pop
  | define name v => exact h.define name v
  | assign name v =>
    have hassign := h.assign? name v
    rw [Linked.step, Chain.step]
    generalize l.assign? name v = changed, c.assign? name v = changed' at hassign ⊢
    cases hassign with
    | none => exact h
    | some hchanged => exact hchanged

theorem Represents.foldl (h : l.Represents c) (xs : List Chain.Step) :
    (xs.foldl Linked.step l).Represents (xs.foldl Chain.step c) := by
  induction xs generalizing l c with
  | nil => exact h
  | cons s xs ih => exact ih (h.step s)

theorem represents_after (xs : List Chain.Step) : (after xs).Represents (Chain.after xs) :=
  represents_fresh.foldl xs

/-- **Linked scopes answer as the chain does.** After any steps the cells of the active scopes are
linked in the order of the stack, with the global cell last, and a client gets the answers of the
chain: for a name, for a name in the global scope, for the number of active scopes, and for an
assignment, which changes the same scope. -/
theorem answers_of_chain (xs : List Chain.Step) :
    (after xs).Represents (Chain.after xs) ∧
    (∀ name, (after xs).get? name = (Chain.after xs).get? name) ∧
    (∀ name, (after xs).global? name = (Chain.after xs).global? name) ∧
    (∀ name v, Option.Rel Represents ((after xs).assign? name v)
      ((Chain.after xs).assign? name v)) ∧
    (after xs).depth = (Chain.after xs).depth :=
  have h := represents_after xs
  ⟨h, h.get?_eq, h.global?_eq, h.assign?, h.depth_eq⟩

end Lox.Linked
