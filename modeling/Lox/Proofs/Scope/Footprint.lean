import Lox.Proofs.Eval.Adequate
import Lox.Proofs.Scope.Effect
import Lox.Proofs.Scope.Simulation

/-!
# The names that a run depends on

Statements run alike on scopes that agree on the names that occur in them. Other names keep their
values.

* `Scope.AgreesOn`: two scopes have the same values for some names;
* `Chain.simulation_agreesOn`: the operations on scopes keep agreement on the names they are given;
* `Chain.Becomes.agreesOn`: a run leaves names alone unless it assigns or declares them;
* the main result: what statements depend on, and what they touch.
-/

namespace Lox

open Eval (Error State)

/-! ## The same names -/

theorem Expr.rename_id (e : Expr) : e.rename id = e := by
  induction e with
  | literal | var => rfl
  | grouping e ih | unary op line e ih => rw [rename, ih]
  | assign n e ih =>
    rw [rename, ih]
    rfl
  | binary op line a b iha ihb | logical op line a b iha ihb => rw [rename, iha, ihb]

namespace Stmt

mutual

theorem rename_id : ∀ t : Stmt, t.rename id = t
  | expression e | print e => by rw [rename, e.rename_id]
  | declare n none => rfl
  | declare n (some e) => by
    rw [rename, Option.map_some, e.rename_id]
    rfl
  | block ss => by rw [rename, renameAll_id ss]
  | ifThen c t | loop c t => by rw [rename, c.rename_id, rename_id t]
  | ifElse c t u => by rw [rename, c.rename_id, rename_id t, rename_id u]

theorem renameAll_id : ∀ ts : List Stmt, renameAll id ts = ts
  | [] => rfl
  | t :: ts => by rw [renameAll, rename_id t, renameAll_id ts]

end

end Stmt

theorem Eval.Error.rename_id (e : Error) : e.rename id = e := by
  obtain ⟨fault, line⟩ := e
  cases fault <;> rfl

/-! ## Agreement -/

/-- The scopes have the same values for the names in `p`. -/
def Scope.AgreesOn (p : String → Prop) (s t : Scope) : Prop := ∀ x, p x → t.get? x = s.get? x

namespace Chain

variable {p : String → Prop} {R : Scope → Scope → Prop} {c d : Chain}

theorem rel_iff_scopes : Rel R c d ↔ List.Forall₂ R c.scopes d.scopes := by
  rw [← List.forall₂_reverse_iff, scopes, scopes, List.reverse_concat, List.reverse_concat,
    List.forall₂_cons, List.forall₂_reverse_iff]
  exact ⟨fun h => ⟨h.globals, h.locals⟩, fun h => ⟨h.2, h.1⟩⟩

theorem simulation_agreesOn :
    Simulation id p (fun _ => True) fun _ => Rel (Scope.AgreesOn p) := by
  refine simulation_rel (fun _ _ => rfl) (fun hs hx => hs _ hx) ?_
  intro s t x v hs hx y hy
  by_cases hxy : y = x
  · subst hxy
    rw [id, Scope.get?_define_self, Scope.get?_define_self]
  · rw [id, Scope.get?_define_of_ne _ hxy, Scope.get?_define_of_ne _ hxy]
    exact hs y hy

theorem Becomes.agreesOn {targets exposed : List String} (h : c.Becomes targets exposed d) :
    Rel (Scope.AgreesOn fun x => x ∉ targets ∧ x ∉ exposed) c d := by
  rw [rel_iff_scopes, scopes_eq c, scopes_eq d]
  have hkeeps : ∀ {exposed' : List String} {s t : Scope}, exposed' ⊆ exposed →
      s.Becomes targets exposed' t → s.AgreesOn (fun x => x ∉ targets ∧ x ∉ exposed) t := by
    rintro exposed' s t hsub hs x ⟨htarget, hexposed⟩
    rcases hs x with hsame | ⟨-, ⟨-, hx⟩ | hx⟩
    · exact hsame
    · exact absurd hx htarget
    · exact absurd (hsub hx) hexposed
  refine .cons (hkeeps (List.Subset.refl _) h.innermost) ?_
  exact h.outer.imp fun _ _ hs => hkeeps (List.nil_subset _) hs

end Chain

/-- **What statements depend on, and what they touch.** On scopes that agree on the names that
occur, statements end alike, with the same result and the same text printed, and the scopes agree
on these names again. A name that is neither assigned nor declared outside the blocks of the
statements keeps its value in every scope, or stays unknown to it, however the run ends. -/
theorem interpret_footprint (bound : Nat) (ss : List Stmt) (log : Log) :
    (∀ {s s' : State}, s.Related (Chain.Rel (Scope.AgreesOn (· ∈ Stmt.namesAll ss))) s' →
      Option.Rel (fun o o' => o'.1 = o.1 ∧ o'.2.2 = o.2.2 ∧
          o.2.1.Related (Chain.Rel (Scope.AgreesOn (· ∈ Stmt.namesAll ss))) o'.2.1)
        (interpret bound ss s log) (interpret bound ss s' log)) ∧
    (∀ {s t : State} {log' : Log} {result : Except Error Unit},
      interpret bound ss s log = some (result, t, log') →
      Chain.Rel (Scope.AgreesOn fun x => x ∉ Stmt.targetsAll ss ∧ x ∉ Stmt.exposedAll ss)
        s.chain t.chain) := by
  constructor
  · intro s s' hs
    have hrel := Chain.simulation_agreesOn.execAll bound ss (fun _ hx => hx)
      (fun _ _ _ => trivial) (k := 0) hs
    rw [Stmt.renameAll_id] at hrel
    rw [interpret_eq, interpret_eq]
    rcases hrel.cases with ⟨ho, ho'⟩ | ⟨result, t, t', ho, ho', ht⟩ <;> rw [ho, ho']
    · exact .none
    · have hresult : result.mapError (·.rename id) = result := by
        cases result with
        | error err => exact congrArg Except.error err.rename_id
        | ok _ => rfl
      rw [hresult]
      exact .some ⟨rfl, rfl, ht⟩
  · intro s t log' result h
    rw [interpret_eq, Option.map_eq_some_iff] at h
    obtain ⟨o, hexec, h⟩ := h
    cases h
    obtain ⟨out, hruns, -⟩ := Stmt.runsAll_of_execAll ss _ _ _ hexec
    exact hruns.becomes.agreesOn

/-- An assignment, and then an error. The scopes differ in a name that does not occur, and it keeps
its value. -/
theorem interpret_footprint_undefined :
    ∃ (ss : List Stmt) (s s' t t' : State) (result : Except Error Unit) (log : Log),
      ss = [.expression (.assign ⟨"a", 1⟩ (.literal (.bool true))), .print (.var ⟨"b", 2⟩)] ∧
      result = .error ⟨.undefined "b", 2⟩ ∧
      s.chain.get? "c" = some .nil ∧ s'.chain.get? "c" = none ∧
      interpret 1 ss s {} = some (result, t, log) ∧ interpret 1 ss s' {} = some (result, t', log) ∧
      t.Related (Chain.Rel (Scope.AgreesOn (· ∈ Stmt.namesAll ss))) t' ∧
      t.chain.globals.get? "c" = some .nil := by
  obtain ⟨hdepends, htouches⟩ := interpret_footprint 1
    [.expression (.assign ⟨"a", 1⟩ (.literal (.bool true))), .print (.var ⟨"b", 2⟩)] {}
  have hagree : Scope.AgreesOn (· ∈ ["a", "b"]) ⟨[("a", .nil), ("c", .nil)]⟩ ⟨[("a", .nil)]⟩ := by
    simp [Scope.AgreesOn, Scope.get?, List.lookup_cons]
  have hrel := @hdepends ⟨⟨[], ⟨[("a", .nil), ("c", .nil)]⟩⟩, .empty⟩
    ⟨⟨[], ⟨[("a", .nil)]⟩⟩, .empty⟩ ⟨⟨.nil, hagree⟩, rfl⟩
  have hkept := (@htouches ⟨⟨[], ⟨[("a", .nil), ("c", .nil)]⟩⟩, .empty⟩ _ _ _ rfl).globals "c"
    (by decide)
  obtain ⟨-, -, hrelated⟩ | _ := hrel
  exact ⟨_, ⟨⟨[], ⟨[("a", .nil), ("c", .nil)]⟩⟩, .empty⟩, ⟨⟨[], ⟨[("a", .nil)]⟩⟩, .empty⟩, _, _, _,
    _, rfl, rfl, rfl, rfl, rfl, rfl, hrelated, hkept⟩

end Lox
