import Lox.Eval.Stmt

/-!
# The names that a run looks up

* `Lookup`: a name that is looked up, its place in the tree and the scopes at that moment;
* `Expr.lookups`, `Stmt.lookups`, `Stmt.lookupsAll`: all that is looked up, in order, with the
  scopes that the evaluation itself goes through;
* `Stmt.undefined_execAll`: a run ends with an undefined variable exactly if some lookup finds
  nothing.
-/

namespace Lox

open Eval (Fault Error State Outcome iterate)

/-- A name is looked up to be read or assigned. -/
structure Lookup where
  /-- The way down from the root to the variable or assignment: which child is taken. -/
  path : List Nat
  name : Name
  chain : Chain
  /-- For each block around, the innermost first, how many local scopes there were when the
  current execution of the block began. The scope pushed for it stands on these. -/
  heights : List Nat

/-- The lookup seen from a tree of which this one is the child with the given number. -/
def Lookup.under (child : Nat) (l : Lookup) : Lookup := { l with path := child :: l.path }

/-- The lookup seen from outside a block that has been entered with a number of local scopes. -/
def Lookup.within (height : Nat) (l : Lookup) : Lookup :=
  { l with heights := l.heights ++ [height] }

/-- Nothing is found. -/
def Lookup.Fails (l : Lookup) : Prop := l.chain.get? l.name.text = none

/-- What the evaluation of an expression looks up. An assignment looks its name up after the
evaluation of its right side. -/
def Expr.lookups : Expr → Chain → List Lookup
  | literal _, _ => []
  | grouping e, c => (e.lookups c).map (.under 0)
  | unary _ _ e, c => (e.lookups c).map (.under 0)
  | binary _ _ l r, c => (l.lookups c).map (.under 0) ++
    match l.eval c with
    | (.ok _, c) => (r.lookups c).map (.under 1)
    | (.error _, _) => []
  | logical op _ l r, c => (l.lookups c).map (.under 0) ++
    match l.eval c with
    | (.ok v, c) => if op.decides v then [] else (r.lookups c).map (.under 1)
    | (.error _, _) => []
  | var n, c => [⟨[], n, c, []⟩]
  | assign n e, c => (e.lookups c).map (.under 0) ++
    match e.eval c with
    | (.ok _, c) => [⟨[], n, c, []⟩]
    | (.error _, _) => []

/-- What a loop looks up within a number of rounds. -/
def Eval.iterateLookups (condition : Expr) (body : State → Outcome)
    (lookups : State → List Lookup) : Nat → State → List Lookup
  | 0, _ => []
  | rounds + 1, s => (condition.lookups s.chain).map (.under 0) ++
    match s.eval condition with
    | (.error _, _) => []
    | (.ok v, s) =>
      if v.truthy then (lookups s).map (.under 1) ++
        match body s with
        | some (.ok (), s) => iterateLookups condition body lookups rounds s
        | _ => []
      else []

namespace Stmt

mutual

/-- What a statement looks up, each loop within `bound` rounds. -/
def lookups (bound : Nat) : Stmt → State → List Lookup
  | expression e, s => (e.lookups s.chain).map (.under 0)
  | print e, s => (e.lookups s.chain).map (.under 0)
  | declare _ none, _ => []
  | declare _ (some e), s => (e.lookups s.chain).map (.under 0)
  | block ss, s => (lookupsAll bound 0 ss s.push).map (.within s.chain.locals.length)
  | ifThen c t, s => (c.lookups s.chain).map (.under 0) ++
    match s.eval c with
    | (.ok v, s) => if v.truthy then (lookups bound t s).map (.under 1) else []
    | (.error _, _) => []
  | ifElse c t u, s => (c.lookups s.chain).map (.under 0) ++
    match s.eval c with
    | (.ok v, s) =>
      if v.truthy then (lookups bound t s).map (.under 1) else (lookups bound u s).map (.under 2)
    | (.error _, _) => []
  | loop c t, s => Eval.iterateLookups c (exec bound t) (lookups bound t) bound s

/-- What statements look up up to the first error. The first is the child with number `i`. -/
def lookupsAll (bound : Nat) (i : Nat) : List Stmt → State → List Lookup
  | [], _ => []
  | t :: ts, s => (lookups bound t s).map (.under i) ++
    match exec bound t s with
    | some (.ok (), s) => lookupsAll bound (i + 1) ts s
    | _ => []

end

end Stmt

/-! ## Lookups that fail -/

/-- One of the lookups fails to find the name. -/
def Missing (n : Name) (ls : List Lookup) : Prop := ∃ l ∈ ls, l.name = n ∧ l.Fails

/-- The error of a name that is not found. -/
def Eval.Error.ofName (n : Name) : Error := ⟨.undefined n.text, n.line⟩

@[simp] theorem missing_nil (n : Name) : ¬ Missing n [] := by simp [Missing]

@[simp] theorem missing_append (n : Name) (ls ms : List Lookup) :
    Missing n (ls ++ ms) ↔ Missing n ls ∨ Missing n ms := by
  simp only [Missing, List.mem_append]
  constructor
  · rintro ⟨l, hl | hl, h⟩
    · exact .inl ⟨l, hl, h⟩
    · exact .inr ⟨l, hl, h⟩
  · rintro (⟨l, hl, h⟩ | ⟨l, hl, h⟩)
    · exact ⟨l, .inl hl, h⟩
    · exact ⟨l, .inr hl, h⟩

theorem missing_map (n : Name) {f : Lookup → Lookup}
    (hf : ∀ l, (f l).name = l.name ∧ (f l).chain = l.chain) (ls : List Lookup) :
    Missing n (ls.map f) ↔ Missing n ls := by
  have hfails : ∀ l, (f l).Fails ↔ l.Fails := by
    intro l
    rw [Lookup.Fails, Lookup.Fails, (hf l).1, (hf l).2]
  simp only [Missing, List.mem_map]
  constructor
  · rintro ⟨_, ⟨l, hl, rfl⟩, hname, h⟩
    exact ⟨l, hl, (hf l).1 ▸ hname, (hfails l).mp h⟩
  · rintro ⟨l, hl, hname, h⟩
    exact ⟨f l, ⟨l, hl, rfl⟩, (hf l).1.trans hname, (hfails l).mpr h⟩

@[simp] theorem missing_under (n : Name) (i : Nat) (ls : List Lookup) :
    Missing n (ls.map (.under i)) ↔ Missing n ls := by
  refine missing_map n ?_ ls
  intro l
  exact ⟨rfl, rfl⟩

@[simp] theorem missing_within (n : Name) (height : Nat) (ls : List Lookup) :
    Missing n (ls.map (.within height)) ↔ Missing n ls := by
  refine missing_map n ?_ ls
  intro l
  exact ⟨rfl, rfl⟩

@[simp] theorem missing_single (n m : Name) (c : Chain) :
    Missing n [⟨[], m, c, []⟩] ↔ m = n ∧ c.get? m.text = none := by
  simp [Missing, Lookup.Fails]

@[simp] theorem Eval.Error.ofName_inj {n m : Name} : ofName n = ofName m ↔ n = m := by
  obtain ⟨x, i⟩ := n
  obtain ⟨y, j⟩ := m
  simp [ofName]

/-- An operator complains about its operands, never about a name. -/
theorem UnaryOp.apply_ne (op : UnaryOp) (v : Value) (line : Nat) (n : Name) :
    (op.apply v).mapError (⟨·, line⟩) ≠ .error (Error.ofName n) := by
  unfold apply
  split <;> simp [Error.ofName]

theorem BinaryOp.apply_ne (op : BinaryOp) (v w : Value) (line : Nat) (n : Name) :
    (op.apply v w).mapError (⟨·, line⟩) ≠ .error (Error.ofName n) := by
  have hnumbers : ∀ f, (onNumbers f v w).mapError (⟨·, line⟩) ≠ .error (Error.ofName n) := by
    intro f
    unfold onNumbers
    split <;> simp [Error.ofName]
  unfold apply
  split <;> first | exact hnumbers _ | simp [Error.ofName]

theorem Expr.undefined_iff_lookups (e : Expr) (c : Chain) (n : Name) :
    (e.eval c).1 = .error (Error.ofName n) ↔ Missing n (e.lookups c) := by
  induction e generalizing c with
  | literal v => simp [eval, lookups]
  | grouping e ih => simpa [eval, lookups] using ih c
  | unary op line e ih =>
    have he := ih c
    rw [eval, lookups, missing_under, ← he]
    rcases e.eval c with ⟨err | v, d⟩
    · rfl
    · simp [op.apply_ne]
  | binary op line l r ihl ihr =>
    have hl := ihl c
    rw [eval, lookups, missing_append, missing_under, ← hl]
    rcases l.eval c with ⟨err | v, d⟩
    · simp
    · have hr := ihr d
      simp only [missing_under, ← hr, reduceCtorEq, false_or]
      rcases r.eval d with ⟨err | w, d'⟩
      · rfl
      · simp [op.apply_ne]
  | logical op line l r ihl ihr =>
    have hl := ihl c
    rw [eval, lookups, missing_append, missing_under, ← hl]
    rcases l.eval c with ⟨err | v, d⟩
    · simp
    · by_cases hop : op.decides v = true
      · simp [hop]
      · simp [hop, ihr d]
  | var m =>
    rw [eval, lookups, missing_single]
    cases hm : c.get? m.text with
    | none => simpa [Error.ofName] using Error.ofName_inj
    | some v => simp
  | assign m e ih =>
    have he := ih c
    rw [eval, lookups, missing_append, missing_under, ← he]
    rcases e.eval c with ⟨err | v, d⟩
    · simp
    · have hassign := d.isSome_assign? m.text v
      simp only [missing_single, reduceCtorEq, false_or]
      cases hm : d.assign? m.text v with
      | none =>
        rw [hm] at hassign
        have hnone : d.get? m.text = none := by simpa using hassign.symm
        simpa [Error.ofName, hnone] using Error.ofName_inj
      | some d' =>
        rw [hm] at hassign
        have hsome : d.get? m.text ≠ none := by
          intro h
          rw [h] at hassign
          cases hassign
        simp [hsome]

/-- Running ended with the name not found. -/
def Eval.Outcome.Undefined (n : Name) (o : Outcome) : Prop :=
  ∃ t, o = some (.error (Error.ofName n), t)

@[simp] theorem Eval.Outcome.undefined_error (n : Name) (err : Error) (s : State) :
    Outcome.Undefined n (some (.error err, s)) ↔ err = Error.ofName n := by
  simp [Outcome.Undefined]

@[simp] theorem Eval.Outcome.undefined_ok (n : Name) (u : Unit) (s : State) :
    ¬ Outcome.Undefined n (some (.ok u, s)) := by
  simp [Outcome.Undefined]

@[simp] theorem Eval.Outcome.undefined_none (n : Name) : ¬ Outcome.Undefined n none := by
  simp [Outcome.Undefined]

theorem Eval.State.undefined_iff_lookups (s : State) (e : Expr) (n : Name) :
    (s.eval e).1 = .error (Error.ofName n) ↔ Missing n (e.lookups s.chain) :=
  e.undefined_iff_lookups s.chain n

theorem Eval.undefined_iterate {c : Expr} {body : State → Outcome} {lookups : State → List Lookup}
    {n : Name} (hbody : ∀ s, (body s).Undefined n ↔ Missing n (lookups s)) (rounds : Nat)
    (s : State) : (iterate c body rounds s).Undefined n ↔
      Missing n (iterateLookups c body lookups rounds s) := by
  induction rounds generalizing s with
  | zero => simp [iterate, iterateLookups]
  | succ rounds ih =>
    have hc := s.undefined_iff_lookups c n
    rw [iterate, iterateLookups, missing_append, missing_under, ← hc]
    rcases s.eval c with ⟨err | v, s'⟩
    · simp
    · by_cases hv : v.truthy = true
      · have hb := hbody s'
        simp only [hv, if_true, missing_append, missing_under, ← hb, reduceCtorEq, false_or]
        rcases body s' with - | ⟨err | u, s''⟩
        · simp
        · simp
        · simp [ih s'']
      · simp [hv]

namespace Stmt

mutual

theorem undefined_exec (bound : Nat) (n : Name) : ∀ (r : Stmt) (s : State),
    (exec bound r s).Undefined n ↔ Missing n (lookups bound r s)
  | expression e, s => by
    have he := s.undefined_iff_lookups e n
    rw [exec, lookups, missing_under, ← he]
    rcases s.eval e with ⟨err | v, s'⟩ <;> simp
  | print e, s => by
    have he := s.undefined_iff_lookups e n
    rw [exec, lookups, missing_under, ← he]
    rcases s.eval e with ⟨err | v, s'⟩ <;> simp
  | declare m none, s => by
    rw [exec, lookups]
    simp
  | declare m (some e), s => by
    have he := s.undefined_iff_lookups e n
    rw [exec, lookups, missing_under, ← he]
    rcases s.eval e with ⟨err | v, s'⟩ <;> simp
  | block ss, s => by
    have hss := undefined_execAll bound n ss 0 s.push
    rw [exec, lookups, missing_within, ← hss]
    rcases execAll bound ss s.push with - | ⟨err | u, s'⟩ <;> simp
  | ifThen c r, s => by
    have hc := s.undefined_iff_lookups c n
    rw [exec, lookups, missing_append, missing_under, ← hc]
    rcases s.eval c with ⟨err | v, s'⟩
    · simp
    · by_cases hv : v.truthy = true <;> simp [hv, undefined_exec bound n r s']
  | ifElse c r u, s => by
    have hc := s.undefined_iff_lookups c n
    rw [exec, lookups, missing_append, missing_under, ← hc]
    rcases s.eval c with ⟨err | v, s'⟩
    · simp
    · have hr := undefined_exec bound n r s'
      have hu := undefined_exec bound n u s'
      by_cases hv : v.truthy = true <;> simp [hv, hr, hu]
  | loop c r, s => by
    rw [exec, lookups]
    exact Eval.undefined_iterate (fun s => undefined_exec bound n r s) bound s

/-- A run ends with an undefined variable exactly if one of its lookups fails. -/
theorem undefined_execAll (bound : Nat) (n : Name) : ∀ (rs : List Stmt) (i : Nat) (s : State),
    (execAll bound rs s).Undefined n ↔ Missing n (lookupsAll bound i rs s)
  | [], i, s => by
    rw [execAll, lookupsAll]
    simp
  | r :: rs, i, s => by
    have hr := undefined_exec bound n r s
    rw [execAll, lookupsAll, missing_append, missing_under, ← hr]
    rcases exec bound r s with - | ⟨err | u, s'⟩
    · simp
    · simp
    · simp [undefined_execAll bound n rs (i + 1) s']

end

end Stmt

end Lox
