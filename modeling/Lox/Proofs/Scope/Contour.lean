import Lox.Eval.Stmt
import Lox.Proofs.Grammar.Rules

/-!
# The names in the active scopes

Values come and go, but which names a scope has is fixed by the declarations that have been run in
it.

* `Chain.contour`: which names each active scope has, the innermost first;
* `Stmt.declares`, `Stmt.declaresAny`: the names that statements declare in their own scope;
* `Stmt.Proper`: declarations stand in blocks or outside all statements only
  (`Grammar.Declarations.proper`);
* `Expr.contour_eval`: an expression leaves the contour as it is;
* `Stmt.contour_exec`: a proper statement adds the name that it declares to the innermost scope.
-/

namespace Lox

open Eval (State Outcome iterate)

/-! ## Contours -/

theorem Scope.contains_define (s : Scope) (name : String) (v : Value) :
    (s.define name v).contains = fun x => s.contains x || name == x := by
  funext x
  by_cases hx : x = name
  · subst hx
    simp [contains]
  · have hne : (name == x) = false := beq_false_of_ne (Ne.symm hx)
    rw [contains, get?_define_of_ne s hx, hne, Bool.or_false, contains]

/-- A scope that has the name keeps its names when the name gets a value. -/
theorem Scope.contains_define_self {s : Scope} {name : String}
    (h : s.contains name = true) (v : Value) : (s.define name v).contains = s.contains := by
  rw [Scope.contains_define]
  funext x
  by_cases hx : name = x
  · subst hx
    simp [h]
  · simp [hx]

namespace Chain

/-- Which names each scope has, the innermost first and the global one last. -/
def contour (c : Chain) : List (String → Bool) :=
  c.locals.map Scope.contains ++ [c.globals.contains]

@[simp] theorem length_contour (c : Chain) : c.contour.length = c.locals.length + 1 := by
  simp [contour]

@[simp] theorem contour_push (c : Chain) : c.push.contour = (fun _ => false) :: c.contour := rfl

theorem contour_pop {c : Chain} {f : String → Bool} {fs : List (String → Bool)}
    (h : c.contour = f :: fs) (hne : fs ≠ []) : c.pop.contour = fs := by
  obtain ⟨locals, globals⟩ := c
  cases locals with
  | nil =>
    obtain ⟨-, rfl⟩ := List.cons_eq_cons.mp h
    exact absurd rfl hne
  | cons s rest =>
    obtain ⟨-, rfl⟩ := List.cons_eq_cons.mp h
    rfl

end Chain

/-- More names in the innermost scope. -/
def addNames (f : String → Bool) : List (String → Bool) → List (String → Bool)
  | [] => []
  | g :: gs => (fun x => g x || f x) :: gs

@[simp] theorem length_addNames (f : String → Bool) (gs : List (String → Bool)) :
    (addNames f gs).length = gs.length := by
  cases gs <;> rfl

@[simp] theorem addNames_false (gs : List (String → Bool)) :
    addNames (fun _ => false) gs = gs := by
  cases gs with
  | nil => rfl
  | cons g gs => simp [addNames]

theorem addNames_addNames (f g : String → Bool) (gs : List (String → Bool)) :
    addNames g (addNames f gs) = addNames (fun x => f x || g x) gs := by
  cases gs with
  | nil => rfl
  | cons h gs => simp [addNames, Bool.or_assoc]

namespace Chain

theorem contour_define (c : Chain) (name : String) (v : Value) :
    (c.define name v).contour = addNames (name == ·) c.contour := by
  obtain ⟨locals, globals⟩ := c
  cases locals <;> simp [define, contour, addNames, Scope.contains_define]

theorem contour_of_assign? {c d : Chain} {name : String} {v : Value}
    (h : c.assign? name v = some d) : d.contour = c.contour := by
  rw [assign?] at h
  cases hi : c.locals.findIdx? (·.contains name) with
  | some i =>
    rw [hi] at h
    cases h
    obtain ⟨hlt, hname, -⟩ := List.findIdx?_eq_some_iff_getElem.mp hi
    have hmap : (c.locals.modify i (·.define name v)).map Scope.contains =
        c.locals.map Scope.contains := by
      refine List.ext_getElem (by simp) fun j hj hj' => ?_
      rw [List.getElem_map, List.getElem_map, List.getElem_modify]
      by_cases hij : i = j
      · subst hij
        rw [if_pos rfl]
        exact Scope.contains_define_self hname v
      · rw [if_neg hij]
    rw [contour, hmap, contour]
  | none =>
    rw [hi] at h
    obtain ⟨hname, hd⟩ := Option.ite_none_right_eq_some.mp h
    cases hd
    rw [contour, contour, Scope.contains_define_self hname]

end Chain

theorem Expr.contour_eval (e : Expr) (c : Chain) : (e.eval c).2.contour = c.contour := by
  induction e generalizing c with
  | literal v => rfl
  | grouping e ih => exact ih c
  | unary op line e ih =>
    have he := ih c
    rw [eval]
    rcases h : e.eval c with ⟨err | v, d⟩ <;> rw [h] at he <;> exact he
  | binary op line l r ihl ihr =>
    have hl := ihl c
    rw [eval]
    rcases h : l.eval c with ⟨err | v, d⟩ <;> rw [h] at hl
    · exact hl
    · have hr := ihr d
      dsimp only
      rcases h' : r.eval d with ⟨err | w, d'⟩ <;> rw [h'] at hr <;> exact hr.trans hl
  | logical op line l r ihl ihr =>
    have hl := ihl c
    rw [eval]
    rcases h : l.eval c with ⟨err | v, d⟩ <;> rw [h] at hl
    · exact hl
    · dsimp only
      split
      · exact hl
      · exact (ihr d).trans hl
  | var n =>
    rw [eval]
    split <;> rfl
  | assign n e ih =>
    have he := ih c
    rw [eval]
    rcases h : e.eval c with ⟨err | v, d⟩ <;> rw [h] at he
    · exact he
    · dsimp only
      cases h' : d.assign? n.text v with
      | some d' => exact (Chain.contour_of_assign? h').trans he
      | none => exact he

theorem Eval.State.contour_eval (s : State) (e : Expr) :
    (s.eval e).2.chain.contour = s.chain.contour := e.contour_eval s.chain

/-! ## Declarations -/

namespace Stmt

/-- The statement declares the name in the scope in which it stands. -/
def declares : Stmt → String → Bool
  | declare n _ => (n.text == ·)
  | _ => fun _ => false

/-- One of the statements declares the name in the scope in which they stand. -/
def declaresAny (ss : List Stmt) (name : String) : Bool := ss.any (·.declares name)

@[simp] theorem declaresAny_nil : declaresAny [] = fun _ => false := rfl

theorem declaresAny_cons (s : Stmt) (ss : List Stmt) :
    declaresAny (s :: ss) = fun x => s.declares x || declaresAny ss x := rfl

theorem declaresAny_concat (ss : List Stmt) (s : Stmt) :
    declaresAny (ss ++ [s]) = fun x => declaresAny ss x || s.declares x := by
  funext x
  simp [declaresAny]

mutual

/-- No branch and no body of a loop is a declaration, here or deeper in the tree. -/
def Proper : Stmt → Prop
  | block ss => ProperAll ss
  | ifThen _ s => (s.declares = fun _ => false) ∧ s.Proper
  | ifElse _ s t => (s.declares = fun _ => false) ∧ s.Proper ∧
      (t.declares = fun _ => false) ∧ t.Proper
  | loop _ s => (s.declares = fun _ => false) ∧ s.Proper
  | _ => True

/-- The same for every statement of a list. -/
def ProperAll : List Stmt → Prop
  | [] => True
  | s :: ss => s.Proper ∧ ProperAll ss

end

end Stmt

namespace Grammar

theorem Statement.declares {ts : List Token} {s : Stmt} (h : Statement ts s) :
    s.declares = fun _ => false := by
  cases h <;> rfl

mutual

theorem Statement.proper : ∀ {ts : List Token} {s : Stmt}, Statement ts s → s.Proper
  | _, _, .expression _ _ | _, _, .print _ _ _ => trivial
  | _, _, .block _ hds _ => by
    rw [Stmt.Proper]
    exact Declarations.proper hds
  | _, _, .ifThen _ _ _ _ hs => by
    rw [Stmt.Proper]
    exact ⟨hs.declares, Statement.proper hs⟩
  | _, _, .ifElse _ _ _ _ hs _ ht => by
    rw [Stmt.Proper]
    exact ⟨hs.declares, Statement.proper hs, ht.declares, Statement.proper ht⟩
  | _, _, .loop _ _ _ _ hs => by
    rw [Stmt.Proper]
    exact ⟨hs.declares, Statement.proper hs⟩

theorem Declaration.proper : ∀ {ts : List Token} {s : Stmt}, Declaration ts s → s.Proper
  | _, _, .plain _ _ _ | _, _, .initialized _ _ _ _ _ => trivial
  | _, _, .statement hs => Statement.proper hs

/-- The trees of the grammar declare nothing in a branch or in the body of a loop. -/
theorem Declarations.proper : ∀ {ts : List Token} {ss : List Stmt}, Declarations ts ss →
    Stmt.ProperAll ss
  | _, _, .nil => trivial
  | _, _, .cons hd hds => by
    rw [Stmt.ProperAll]
    exact ⟨Declaration.proper hd, Declarations.proper hds⟩

end

end Grammar

/-! ## Running statements -/

theorem Eval.contour_iterate {c : Expr} {body : State → Outcome}
    (hbody : ∀ s t, body s = some (.ok (), t) → t.chain.contour = s.chain.contour)
    {rounds : Nat} {s t : State} (h : iterate c body rounds s = some (.ok (), t)) :
    t.chain.contour = s.chain.contour := by
  induction rounds generalizing s with
  | zero => cases h
  | succ rounds ih =>
    have hcond := s.contour_eval c
    rw [iterate] at h
    rcases hc : s.eval c with ⟨err | v, s'⟩ <;> rw [hc] at h hcond
    · cases h
    · dsimp only at h hcond
      split at h
      · rcases hb : body s' with - | ⟨err | u, s''⟩ <;> rw [hb] at h
        · cases h
        · cases h
        · rw [ih h, hbody s' s'' hb, hcond]
      · cases h
        exact hcond

namespace Stmt

mutual

theorem contour_exec {bound : Nat} : ∀ {r : Stmt} {s t : State}, r.Proper →
    exec bound r s = some (.ok (), t) → t.chain.contour = addNames r.declares s.chain.contour
  | expression e, s, t, _, h => by
    have he := s.contour_eval e
    rw [exec] at h
    rcases hv : s.eval e with ⟨err | v, s'⟩ <;> rw [hv] at h he <;> cases h
    exact he.trans (addNames_false _).symm
  | print e, s, t, _, h => by
    have he := s.contour_eval e
    rw [exec] at h
    rcases hv : s.eval e with ⟨err | v, s'⟩ <;> rw [hv] at h he <;> cases h
    exact he.trans (addNames_false _).symm
  | declare n none, s, t, _, h => by
    rw [exec] at h
    cases h
    exact s.chain.contour_define n.text .nil
  | declare n (some e), s, t, _, h => by
    have he := s.contour_eval e
    rw [exec] at h
    rcases hv : s.eval e with ⟨err | v, s'⟩ <;> rw [hv] at h he <;> cases h
    rw [← he]
    exact s'.chain.contour_define n.text v
  | block ss, s, t, hp, h => by
    rw [Proper] at hp
    rw [exec] at h
    rcases hss : execAll bound ss s.push with - | ⟨result, s'⟩ <;> rw [hss] at h <;> cases h
    have hall := contour_execAll hp hss
    have hne : s.chain.contour ≠ [] := by simp [Chain.contour]
    exact (Chain.contour_pop hall hne).trans (addNames_false _).symm
  | ifThen c r, s, t, hp, h => by
    rw [Proper] at hp
    have hc := s.contour_eval c
    rw [exec] at h
    rcases hv : s.eval c with ⟨err | v, s'⟩ <;> rw [hv] at h hc
    · cases h
    · dsimp only at h hc
      split at h
      · rw [contour_exec hp.2 h, hp.1, hc]
        rfl
      · cases h
        exact hc.trans (addNames_false _).symm
  | ifElse c r u, s, t, hp, h => by
    rw [Proper] at hp
    have hc := s.contour_eval c
    rw [exec] at h
    rcases hv : s.eval c with ⟨err | v, s'⟩ <;> rw [hv] at h hc
    · cases h
    · dsimp only at h hc
      split at h
      · rw [contour_exec hp.2.1 h, hp.1, hc]
        rfl
      · rw [contour_exec hp.2.2.2 h, hp.2.2.1, hc]
        rfl
  | loop c r, s, t, hp, h => by
    rw [Proper] at hp
    rw [exec] at h
    have hbody : ∀ s t, exec bound r s = some (.ok (), t) → t.chain.contour = s.chain.contour := by
      intro s t h
      rw [contour_exec hp.2 h, hp.1, addNames_false]
    exact (Eval.contour_iterate hbody h).trans (addNames_false _).symm

theorem contour_execAll {bound : Nat} : ∀ {rs : List Stmt} {s t : State}, ProperAll rs →
    execAll bound rs s = some (.ok (), t) →
      t.chain.contour = addNames (declaresAny rs) s.chain.contour
  | [], s, t, _, h => by
    rw [execAll] at h
    cases h
    exact (addNames_false _).symm
  | r :: rs, s, t, hp, h => by
    rw [ProperAll] at hp
    rw [execAll] at h
    rcases hr : exec bound r s with - | ⟨err | u, s'⟩ <;> rw [hr] at h
    · cases h
    · cases h
    · rw [contour_execAll hp.2 h, contour_exec hp.1 hr, addNames_addNames, declaresAny_cons]

end

end Stmt

end Lox
