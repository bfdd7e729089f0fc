import Mathlib.Data.List.Forall2
import Lox.Proofs.Eval.Rules
import Lox.Proofs.Scope.Names

/-!
# What a run does to the scopes

A run gives new values to the names that it assigns and adds the names that it declares to the
innermost scope. It does nothing else to the scopes, however it ends.

* `Scope.Becomes`, `Chain.Becomes`: what may happen to a scope and to all of them;
* `Eval.Evaluates.becomes`, `Eval.Runs.becomes`, `Eval.RunsAll.becomes`: it is all that happens.
-/

namespace Lox

open Eval (Error)

/-! ## One scope -/

namespace Scope

/-- A name keeps its value, or it is an assigned name that the scope has, or a declared one, which
the scope then has. -/
def Becomes (targets exposed : List String) (s t : Scope) : Prop :=
  ∀ x, t.get? x = s.get? x ∨
    t.contains x = true ∧ (s.contains x = true ∧ x ∈ targets ∨ x ∈ exposed)

variable {targets targets' exposed exposed' : List String} {s t u : Scope} {name : String}

theorem contains_eq_of_get? (h : t.get? name = s.get? name) :
    t.contains name = s.contains name := by
  rw [contains, h, contains]

theorem Becomes.refl (s : Scope) : s.Becomes targets exposed s := fun _ => .inl rfl

theorem Becomes.trans (h : s.Becomes targets exposed t) (h' : t.Becomes targets exposed u) :
    s.Becomes targets exposed u := by
  intro x
  rcases h x with hsame | ⟨ht, hx⟩
  · rcases h' x with hsame' | ⟨hu, hx'⟩
    · exact .inl (hsame'.trans hsame)
    · rw [contains_eq_of_get? hsame] at hx'
      exact .inr ⟨hu, hx'⟩
  · rcases h' x with hsame' | ⟨hu, -⟩
    · exact .inr ⟨(contains_eq_of_get? hsame').trans ht, hx⟩
    · exact .inr ⟨hu, hx⟩

theorem Becomes.mono (h : s.Becomes targets exposed t) (htargets : targets ⊆ targets')
    (hexposed : exposed ⊆ exposed') : s.Becomes targets' exposed' t := by
  intro x
  refine (h x).imp_right fun ⟨ht, hx⟩ => ⟨ht, ?_⟩
  exact hx.imp (fun hs => ⟨hs.1, htargets hs.2⟩) fun hx => hexposed hx

theorem becomes_define_of_contains (h : s.contains name = true) (v : Value) :
    s.Becomes [name] [] (s.define name v) := by
  intro x
  by_cases hx : x = name
  · subst hx
    exact .inr ⟨by simp [contains], .inl ⟨h, List.mem_singleton.mpr rfl⟩⟩
  · exact .inl (s.get?_define_of_ne hx v)

theorem becomes_define (s : Scope) (name : String) (v : Value) :
    s.Becomes [] [name] (s.define name v) := by
  intro x
  by_cases hx : x = name
  · subst hx
    exact .inr ⟨by simp [contains], .inr (List.mem_singleton.mpr rfl)⟩
  · exact .inl (s.get?_define_of_ne hx v)

end Scope

/-! ## All scopes -/

theorem forall₂_trans {α : Type} {R : α → α → Prop} {xs ys zs : List α}
    (h : List.Forall₂ R xs ys) (h' : List.Forall₂ R ys zs)
    (hR : ∀ a b c, R a b → R b c → R a c) : List.Forall₂ R xs zs := by
  induction h generalizing zs with
  | nil => exact h'
  | cons hab _ ih =>
    cases h' with
    | cons hbc h' => exact .cons (hR _ _ _ hab hbc) (ih h')

namespace Chain

/-- The scope in which declarations are made. -/
def innermost (c : Chain) : Scope := c.locals.headD c.globals

/-- The scopes around the innermost. -/
def outer (c : Chain) : List Scope := c.scopes.tail

theorem scopes_eq (c : Chain) : c.scopes = c.innermost :: c.outer := by
  obtain ⟨_ | ⟨s, locals⟩, globals⟩ := c <;> rfl

theorem innermost_of_scopes {c : Chain} {s : Scope} {ss : List Scope} (h : c.scopes = s :: ss) :
    c.innermost = s ∧ c.outer = ss :=
  List.cons_eq_cons.mp (c.scopes_eq.symm.trans h)

/-- Assigned names have new values, and declared ones are in the innermost scope besides. -/
structure Becomes (targets exposed : List String) (c d : Chain) : Prop where
  innermost : c.innermost.Becomes targets exposed d.innermost
  outer : List.Forall₂ (Scope.Becomes targets []) c.outer d.outer

variable {targets targets' exposed exposed' : List String} {c d c' d' : Chain}

theorem Becomes.refl (c : Chain) : c.Becomes targets exposed c :=
  ⟨.refl _, List.forall₂_same.mpr fun s _ => .refl s⟩

theorem Becomes.trans (h : c.Becomes targets exposed d) (h' : d.Becomes targets exposed d') :
    c.Becomes targets exposed d' :=
  ⟨h.innermost.trans h'.innermost, forall₂_trans h.outer h'.outer fun _ _ _ => .trans⟩

theorem Becomes.mono (h : c.Becomes targets exposed d) (htargets : targets ⊆ targets')
    (hexposed : exposed ⊆ exposed') : c.Becomes targets' exposed' d :=
  ⟨h.innermost.mono htargets hexposed,
    h.outer.imp fun _ _ hs => hs.mono htargets (List.Subset.refl [])⟩

theorem Becomes.append (h : c.Becomes targets exposed d) (h' : d.Becomes targets' exposed' d') :
    c.Becomes (targets ++ targets') (exposed ++ exposed') d' :=
  (h.mono (List.subset_append_left ..) (List.subset_append_left ..)).trans
    (h'.mono (List.subset_append_right ..) (List.subset_append_right ..))

theorem becomes_iff_scopes : c.Becomes targets [] d ↔
    List.Forall₂ (Scope.Becomes targets []) c.scopes d.scopes := by
  rw [scopes_eq c, scopes_eq d, List.forall₂_cons]
  exact ⟨fun h => ⟨h.innermost, h.outer⟩, fun h => ⟨h.1, h.2⟩⟩

theorem Nearest.becomes {name : String} {inner outer : List Scope} {s : Scope} {v : Value}
    (h : c.Nearest name inner s outer) (hd : d.scopes = inner ++ s.define name v :: outer) :
    c.Becomes [name] [] d := by
  rw [becomes_iff_scopes, h.split, hd]
  refine List.rel_append (List.forall₂_same.mpr fun t _ => .refl t) (.cons ?_ ?_)
  · exact Scope.becomes_define_of_contains h.has v
  · exact List.forall₂_same.mpr fun t _ => .refl t

theorem Binds.becomes {name : String} {v : Value} (h : c.Binds name v d) :
    c.Becomes [] [name] d := by
  obtain ⟨s, outer, hc, hd⟩ := h
  obtain ⟨hs, houter⟩ := innermost_of_scopes hc
  obtain ⟨hs', houter'⟩ := innermost_of_scopes hd
  refine ⟨?_, ?_⟩
  · rw [hs, hs']
    exact s.becomes_define name v
  · rw [houter, houter']
    exact List.forall₂_same.mpr fun t _ => .refl t

/-- What has been declared in the innermost scope is gone with it. -/
theorem Becomes.of_outer (h : c'.Becomes targets exposed d') (hc : c'.outer = c.scopes)
    (hd : d'.outer = d.scopes) : c.Becomes targets [] d := by
  rw [becomes_iff_scopes, ← hc, ← hd]
  exact h.outer

end Chain

/-! ## Runs -/

namespace Eval

theorem Evaluates.becomes {e : Expr} {c d : Chain} {r : Except Error Value}
    (h : Evaluates e c r d) : c.Becomes e.targets [] d := by
  induction h with
  | literal | var | varUnbound => exact .refl _
  | grouping _ ih | unary _ _ ih | unaryFault _ _ ih | unaryOperand _ ih => exact ih
  | binary _ _ _ ihl ihr | binaryFault _ _ _ ihl ihr | binaryRight _ _ ihl ihr
  | logicalRight _ _ _ ihl ihr => exact ihl.append ihr
  | binaryLeft _ ih | logicalDecided _ _ ih | logicalLeft _ ih =>
    exact ih.mono (List.subset_append_left ..) (List.Subset.refl _)
  | assign _ hnear hd ih =>
    refine (ih.append (hnear.becomes hd)).mono ?_ (List.Subset.refl _)
    simp [Expr.targets]
  | assignUnbound _ _ ih | assignValue _ ih =>
    exact ih.mono (List.subset_cons_self ..) (List.Subset.refl _)

mutual

/-- However a statement ends, it has given new values to the names that it assigns and added the
names that it declares to the innermost scope, and that is all. -/
theorem Runs.becomes {t : Stmt} {c d : Chain} {result : Except Error Unit} {out : String} :
    Runs t c result d out → c.Becomes t.targets t.exposed d
  | .expression h | .expressionFails h | .print h | .printFails h => h.becomes
  | .declare h => h.becomes
  | .declareValue h hd => by
    have hboth := h.becomes.append hd.becomes
    rwa [List.append_nil] at hboth
  | .declareFails h => h.becomes.mono (List.Subset.refl _) (List.nil_subset _)
  | .block hpush h hpop =>
    h.becomes.of_outer (Chain.innermost_of_scopes hpush).2 (Chain.innermost_of_scopes hpop).2
  | .ifThen h _ ht | .loopBodyFails h _ ht => h.becomes.append ht.becomes
  | .ifElse h _ ht => h.becomes.append
      (ht.becomes.mono (List.subset_append_left ..) (List.subset_append_left ..))
  | .ifElseOther h _ hu => h.becomes.append
      (hu.becomes.mono (List.subset_append_right ..) (List.subset_append_right ..))
  | .ifThenSkips h _ | .ifThenFails h | .ifElseFails h | .loopEnds h _ | .loopFails h =>
    h.becomes.mono (List.subset_append_left ..) (List.nil_subset _)
  | .loopRound h _ ht hrest => (h.becomes.append ht.becomes).trans hrest.becomes

theorem RunsAll.becomes {ts : List Stmt} {c d : Chain} {result : Except Error Unit}
    {out : String} :
    RunsAll ts c result d out → c.Becomes (Stmt.targetsAll ts) (Stmt.exposedAll ts) d
  | .nil _ => .refl _
  | .cons ht hts => ht.becomes.append hts.becomes
  | .fails ht => ht.becomes.mono (List.subset_append_left ..) (List.subset_append_left ..)

end

end Eval

end Lox
