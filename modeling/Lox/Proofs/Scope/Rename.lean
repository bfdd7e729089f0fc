import Mathlib.Logic.Equiv.Basic
import Lox.Proofs.Eval.Adequate
import Lox.Proofs.Scope.Simulation

/-!
# Running with other names

If different names stay different, statements with other names run as they did, on scopes with the
other names.

* `Scope.rename`, `Chain.rename`, `Eval.State.rename`: scopes with other names;
* `Scope.get?_rename`, `Scope.define_rename`: a scope answers for the new names as it did for the
  old ones;
* the main result: running the renamed statements.
-/

namespace Lox

open Eval (State)

/-- The scope with other names. -/
def Scope.rename (r : String → String) (s : Scope) : Scope := ⟨s.entries.map fun e => (r e.1, e.2)⟩

/-- The scopes with other names. -/
def Chain.rename (r : String → String) (c : Chain) : Chain :=
  ⟨c.locals.map (·.rename r), c.globals.rename r⟩

/-- The state with other names; what has been printed stays. -/
def Eval.State.rename (r : String → String) (s : State) : State :=
  { s with chain := s.chain.rename r }

theorem Chain.rel_rename_iff {r : String → String} {c d : Chain} :
    Rel (fun s t => t = s.rename r) c d ↔ d = c.rename r := by
  have hlocals : List.Forall₂ (fun s t => t = Scope.rename r s) c.locals d.locals ↔
      d.locals = c.locals.map (·.rename r) := by
    rw [← List.forall₂_eq_eq_eq, List.forall₂_map_right_iff]
    exact ⟨fun h => h.flip, fun h => h.flip⟩
  rw [rename, Chain.mk.injEq, ← hlocals]
  exact ⟨fun h => ⟨h.locals, h.globals⟩, fun h => ⟨h.1, h.2⟩⟩

section

variable {r : String → String} (hr : Function.Injective r)

include hr

namespace Scope

theorem get?_rename (s : Scope) (name : String) : (s.rename r).get? (r name) = s.get? name := by
  obtain ⟨entries⟩ := s
  simp only [get?, rename]
  induction entries with
  | nil => rfl
  | cons e rest ih =>
    have hkey : (r name == r e.1) = (name == e.1) := Bool.eq_iff_iff.mpr (by simp [hr.eq_iff])
    rw [List.map_cons, List.lookup_cons, List.lookup_cons, hkey, ih]

theorem define_rename (s : Scope) (name : String) (v : Value) :
    (s.rename r).define (r name) v = (s.define name v).rename r := by
  rw [define, contains, get?_rename hr, ← contains, define]
  by_cases hs : s.contains name = true
  · simp [hs, rename, hr.eq_iff]
  · simp [hs, rename]

end Scope

theorem Chain.simulation_rename : Simulation r (fun _ => True) (fun _ => True)
    fun _ c d => d = c.rename r := by
  have hrel : Simulation r (fun _ => True) (fun _ => True)
      fun _ => Rel fun s t => t = s.rename r := by
    refine simulation_rel rfl ?_ ?_
    · rintro s _ x rfl -
      exact s.get?_rename hr x
    · rintro s _ x v rfl -
      exact s.define_rename hr x v
  have heq : (Rel fun s t => t = s.rename r) = fun c d => d = c.rename r := by
    funext c d
    exact propext rel_rename_iff
  rwa [heq] at hrel

/-- **The names do not matter.** With other names, different ones for different ones, statements
end if they ended before, with the same result but for the name of an undefined variable; they
print the same, and the scopes are the same but for the names. -/
theorem interpret_renameAll (bound : Nat) (ss : List Stmt) (s : State) (log : Log) :
    interpret bound (Stmt.renameAll r ss) (s.rename r) log =
      (interpret bound ss s log).map fun (result, t, _) =>
        (result.mapError (·.rename r), t.rename r,
          log.afterRun (result.mapError (·.rename r))) := by
  have hs : s.Related (fun c d => d = c.rename r) (s.rename r) := ⟨rfl, rfl⟩
  have hrel := (Chain.simulation_rename hr).execAll bound ss (fun _ _ => trivial)
    (fun _ _ _ => trivial) (k := 0) hs
  rw [interpret_eq, interpret_eq, Option.map_map]
  rcases hrel.cases with ⟨ho, ho'⟩ | ⟨result, t, ⟨c, output⟩, ho, ho', ht⟩ <;> rw [ho, ho']
  · rfl
  · obtain ⟨rfl, rfl⟩ := ht
    rfl

end

/-- Two names change places: a program that declares one in a block and then misses it outside
misses the other. -/
theorem interpret_renameAll_swap :
    interpret 1 (Stmt.renameAll (Equiv.swap "a" "b") [.declare ⟨"a", 1⟩ none,
      .block [.declare ⟨"b", 2⟩ (some (.var ⟨"a", 2⟩))], .print (.var ⟨"b", 3⟩)]) {} {} =
      some (.error ⟨.undefined "a", 3⟩, ⟨⟨[], ⟨[("b", .nil)]⟩⟩, .empty⟩,
        ({} : Log).emit (.runtime 3 "Undefined variable 'a'.")) := by
  have hrun : interpret 1 [.declare ⟨"a", 1⟩ none,
      .block [.declare ⟨"b", 2⟩ (some (.var ⟨"a", 2⟩))], .print (.var ⟨"b", 3⟩)] {} {} =
      some (.error ⟨.undefined "b", 3⟩, ⟨⟨[], ⟨[("a", .nil)]⟩⟩, .empty⟩,
        ({} : Log).emit (.runtime 3 "Undefined variable 'b'.")) := by decide
  have hrename := interpret_renameAll (Equiv.swap "a" "b").injective 1 [.declare ⟨"a", 1⟩ none,
      .block [.declare ⟨"b", 2⟩ (some (.var ⟨"a", 2⟩))], .print (.var ⟨"b", 3⟩)] {} {}
  rw [hrun] at hrename
  exact hrename.trans (by decide)

end Lox
