import Mathlib.Data.List.Forall2
import Lox.Eval.Stmt
import Lox.Proofs.Scope.Names

/-!
# Runs on corresponding scopes

A run gets at its scopes by four operations only, and by the names that its trees mention. If these
operations keep a correspondence between scopes, the runs on corresponding scopes correspond, loop
by loop and error by error.

* `Chain.Simulation`: a correspondence that the operations keep;
* `Chain.Simulation.eval`, `Chain.Simulation.exec`, `Chain.Simulation.execAll`: runs keep it.
-/

namespace Lox

open Eval (Fault Error State Outcome iterate)

/-! ## Correspondences -/

/-- Between two runs, one with the name `r x` where the other has `x`, the scopes are related. The
relation may depend on the number of blocks that have been entered. Only names in `names` occur,
and outside the blocks only those in `top` are declared. -/
structure Chain.Simulation (r : String → String) (names top : String → Prop)
    (related : Nat → Chain → Chain → Prop) : Prop where
  get? : ∀ {k : Nat} {c d : Chain} {x : String}, related k c d → names x →
    d.get? (r x) = c.get? x
  assign? : ∀ {k : Nat} {c d : Chain} {x : String} (v : Value), related k c d → names x →
    Option.Rel (related k) (c.assign? x v) (d.assign? (r x) v)
  define : ∀ {k : Nat} {c d : Chain} {x : String} (v : Value), related k c d → names x →
    (k = 0 → top x) → related k (c.define x v) (d.define (r x) v)
  push : ∀ {k : Nat} {c d : Chain}, related k c d → related (k + 1) c.push d.push
  pop : ∀ {k : Nat} {c d : Chain}, related (k + 1) c d → related k c.pop d.pop

/-- Two runs have printed the same, and their scopes are related. -/
structure Eval.State.Related (related : Chain → Chain → Prop) (s s' : State) : Prop where
  chain : related s.chain s'.chain
  output : s'.output = s.output

theorem Eval.State.Related.println {related : Chain → Chain → Prop} {s s' : State}
    (h : s.Related related s') (line : String) :
    (s.println line).Related related (s'.println line) :=
  ⟨h.chain, congrArg (·.println line) h.output⟩

/-- Neither run ends within the bound; or both do, with the same result up to names, in related
states. -/
def Eval.Outcome.Related (r : String → String) (related : Chain → Chain → Prop) :
    Outcome → Outcome → Prop :=
  Option.Rel fun o o' => o'.1 = o.1.mapError (·.rename r) ∧ o.2.Related related o'.2

theorem Eval.Outcome.Related.cases {r : String → String} {related : Chain → Chain → Prop}
    {o o' : Outcome} (h : o.Related r related o') : o = none ∧ o' = none ∨
      ∃ result s s', o = some (result, s) ∧ o' = some (result.mapError (·.rename r), s') ∧
        s.Related related s' := by
  cases h with
  | none => exact .inl ⟨rfl, rfl⟩
  | @some o o' h =>
    obtain ⟨result, s⟩ := o
    obtain ⟨result', s'⟩ := o'
    obtain ⟨rfl, hs⟩ := h
    exact .inr ⟨result, s, s', rfl, rfl, hs⟩

theorem UnaryOp.mapError_rename (r : String → String) (op : UnaryOp) (v : Value) (line : Nat) :
    ((op.apply v).mapError fun f => (⟨f, line⟩ : Error)).mapError (·.rename r) =
      (op.apply v).mapError (⟨·, line⟩) := by
  unfold apply
  split <;> rfl

theorem BinaryOp.mapError_rename (r : String → String) (op : BinaryOp) (v w : Value)
    (line : Nat) : ((op.apply v w).mapError fun f => (⟨f, line⟩ : Error)).mapError (·.rename r) =
      (op.apply v w).mapError (⟨·, line⟩) := by
  have hnumbers : ∀ f, ((onNumbers f v w).mapError fun f => (⟨f, line⟩ : Error)).mapError
      (·.rename r) = (onNumbers f v w).mapError (⟨·, line⟩) := by
    intro f
    unfold onNumbers
    split <;> rfl
  unfold apply
  split <;> first | exact hnumbers _ | rfl

namespace Chain.Simulation

variable {r : String → String} {names top : String → Prop} {related : Nat → Chain → Chain → Prop}
  {k : Nat} {c d : Chain} {s s' : State}

theorem eval (S : Simulation r names top related) {e : Expr} (hn : ∀ x ∈ e.names, names x)
    (h : related k c d) : ∃ result c' d', e.eval c = (result, c') ∧
      (e.rename r).eval d = (result.mapError (·.rename r), d') ∧ related k c' d' := by
  induction e generalizing c d with
  | literal v => exact ⟨_, _, _, rfl, rfl, h⟩
  | grouping e ih => exact ih hn h
  | unary op line e ih =>
    obtain ⟨result, c', d', hc, hd, hrel⟩ := ih hn h
    rw [Expr.rename, Expr.eval, Expr.eval, hc, hd]
    cases result with
    | error err => exact ⟨_, _, _, rfl, rfl, hrel⟩
    | ok v => exact ⟨_, _, _, rfl, by rw [op.mapError_rename r v line]; rfl, hrel⟩
  | binary op line a b iha ihb =>
    rw [Expr.names, List.forall_mem_append] at hn
    obtain ⟨result, c', d', hc, hd, hrel⟩ := iha hn.1 h
    rw [Expr.rename, Expr.eval, Expr.eval, hc, hd]
    cases result with
    | error err => exact ⟨_, _, _, rfl, rfl, hrel⟩
    | ok v =>
      obtain ⟨result, c', d', hc, hd, hrel⟩ := ihb hn.2 hrel
      dsimp only [Eval.mapError_ok]
      rw [hc, hd]
      cases result with
      | error err => exact ⟨_, _, _, rfl, rfl, hrel⟩
      | ok w => exact ⟨_, _, _, rfl, by rw [op.mapError_rename r v w line]; rfl, hrel⟩
  | logical op line a b iha ihb =>
    rw [Expr.names, List.forall_mem_append] at hn
    obtain ⟨result, c', d', hc, hd, hrel⟩ := iha hn.1 h
    rw [Expr.rename, Expr.eval, Expr.eval, hc, hd]
    cases result with
    | error err => exact ⟨_, _, _, rfl, rfl, hrel⟩
    | ok v =>
      dsimp only [Eval.mapError_ok]
      split
      · exact ⟨_, _, _, rfl, rfl, hrel⟩
      · exact ihb hn.2 hrel
  | var n =>
    have hget := S.get? h (hn n.text (List.mem_singleton.mpr rfl))
    rw [Expr.rename, Expr.eval, Expr.eval, Name.rename, hget]
    cases c.get? n.text <;> exact ⟨_, _, _, rfl, rfl, h⟩
  | assign n e ih =>
    rw [Expr.names, List.forall_mem_cons] at hn
    obtain ⟨result, c', d', hc, hd, hrel⟩ := ih hn.2 h
    rw [Expr.rename, Expr.eval, Expr.eval, hc, hd]
    cases result with
    | error err => exact ⟨_, _, _, rfl, rfl, hrel⟩
    | ok v =>
      have hassign := S.assign? v hrel hn.1
      dsimp only [Eval.mapError_ok, Name.rename]
      generalize c'.assign? n.text v = changed, d'.assign? (r n.text) v = changed' at hassign ⊢
      cases hassign with
      | none => exact ⟨_, _, _, rfl, rfl, hrel⟩
      | some hrel => exact ⟨_, _, _, rfl, rfl, hrel⟩

theorem eval_state (S : Simulation r names top related) {e : Expr} (hn : ∀ x ∈ e.names, names x)
    (h : s.Related (related k) s') : ∃ result t t', s.eval e = (result, t) ∧
      s'.eval (e.rename r) = (result.mapError (·.rename r), t') ∧ t.Related (related k) t' := by
  obtain ⟨result, c', d', hc, hd, hrel⟩ := S.eval hn h.chain
  refine ⟨result, { s with chain := c' }, { s' with chain := d' }, ?_, ?_, hrel, h.output⟩
  · rw [State.eval, hc]
  · rw [State.eval, hd]

theorem iterate (S : Simulation r names top related) {e : Expr} (hn : ∀ x ∈ e.names, names x)
    {body body' : State → Outcome}
    (hbody : ∀ {s s' : State}, s.Related (related k) s' →
      (body s).Related r (related k) (body' s')) (rounds : Nat)
    (h : s.Related (related k) s') : (Eval.iterate e body rounds s).Related r (related k)
      (Eval.iterate (e.rename r) body' rounds s') := by
  induction rounds generalizing s s' with
  | zero => exact .none
  | succ rounds ih =>
    obtain ⟨result, t, t', hs, hs', ht⟩ := S.eval_state hn h
    rw [Eval.iterate, Eval.iterate, hs, hs']
    cases result with
    | error err => exact .some ⟨rfl, ht⟩
    | ok v =>
      dsimp only [Eval.mapError_ok]
      split
      · rcases (hbody ht).cases with ⟨hb, hb'⟩ | ⟨result, u, u', hb, hb', hu⟩ <;> rw [hb, hb']
        · exact .none
        · cases result with
          | error err => exact .some ⟨rfl, hu⟩
          | ok _ => exact ih hu
      · exact .some ⟨rfl, ht⟩

mutual

theorem exec (S : Simulation r names top related) (bound : Nat) : ∀ (t : Stmt)
    {k : Nat} {s s' : State}, (∀ x ∈ t.names, names x) → (k = 0 → ∀ x ∈ t.exposed, top x) →
    s.Related (related k) s' →
    (t.exec bound s).Related r (related k) ((t.rename r).exec bound s')
  | .expression e, k, s, s', hn, _, h => by
    obtain ⟨result, t, t', hs, hs', ht⟩ := S.eval_state hn h
    rw [Stmt.rename, Stmt.exec, Stmt.exec, hs, hs']
    cases result <;> exact .some ⟨rfl, ht⟩
  | .print e, k, s, s', hn, _, h => by
    obtain ⟨result, t, t', hs, hs', ht⟩ := S.eval_state hn h
    rw [Stmt.rename, Stmt.exec, Stmt.exec, hs, hs']
    cases result with
    | error err => exact .some ⟨rfl, ht⟩
    | ok v => exact .some ⟨rfl, ht.println v.text⟩
  | .declare n none, k, s, s', hn, htop, h => by
    have hx : n.text ∈ (Stmt.declare n none).names := List.mem_singleton.mpr rfl
    have hdefine := S.define .nil h.chain (hn _ hx)
      fun hk => htop hk n.text (List.mem_singleton.mpr rfl)
    exact .some ⟨rfl, hdefine, h.output⟩
  | .declare n (some e), k, s, s', hn, htop, h => by
    rw [Stmt.names, List.forall_mem_cons] at hn
    obtain ⟨result, t, t', hs, hs', ht⟩ := S.eval_state hn.2 h
    rw [Stmt.rename, Option.map_some, Stmt.exec, Stmt.exec, hs, hs']
    cases result with
    | error err => exact .some ⟨rfl, ht⟩
    | ok v =>
      have hdefine := S.define v ht.chain hn.1
        fun hk => htop hk n.text (List.mem_singleton.mpr rfl)
      exact .some ⟨rfl, hdefine, ht.output⟩
  | .block ss, k, s, s', hn, _, h => by
    -- In the block declarations are made in a scope of its own, whatever names are exposed.
    have hpush : s.push.Related (related (k + 1)) s'.push := ⟨S.push h.chain, h.output⟩
    have hss := S.execAll bound ss hn (fun hk => absurd hk k.succ_ne_zero) hpush
    rw [Stmt.rename, Stmt.exec, Stmt.exec]
    rcases hss.cases with ⟨hb, hb'⟩ | ⟨result, u, u', hb, hb', hu⟩ <;> rw [hb, hb']
    · exact .none
    · exact .some ⟨rfl, S.pop hu.chain, hu.output⟩
  | .ifThen c t, k, s, s', hn, htop, h => by
    rw [Stmt.names, List.forall_mem_append] at hn
    obtain ⟨result, u, u', hs, hs', hu⟩ := S.eval_state hn.1 h
    rw [Stmt.rename, Stmt.exec, Stmt.exec, hs, hs']
    cases result with
    | error err => exact .some ⟨rfl, hu⟩
    | ok v =>
      dsimp only [Eval.mapError_ok]
      split
      · exact S.exec bound t hn.2 htop hu
      · exact .some ⟨rfl, hu⟩
  | .ifElse c t f, k, s, s', hn, htop, h => by
    rw [Stmt.names, List.forall_mem_append, List.forall_mem_append] at hn
    obtain ⟨result, u, u', hs, hs', hu⟩ := S.eval_state hn.1 h
    rw [Stmt.rename, Stmt.exec, Stmt.exec, hs, hs']
    cases result with
    | error err => exact .some ⟨rfl, hu⟩
    | ok v =>
      dsimp only [Eval.mapError_ok]
      split
      · exact S.exec bound t hn.2.1 (fun hk x hx => htop hk x (List.mem_append_left _ hx)) hu
      · exact S.exec bound f hn.2.2 (fun hk x hx => htop hk x (List.mem_append_right _ hx)) hu
  | .loop c b, k, s, s', hn, htop, h => by
    rw [Stmt.names, List.forall_mem_append] at hn
    rw [Stmt.rename, Stmt.exec, Stmt.exec]
    exact S.iterate hn.1 (fun hs => S.exec bound b hn.2 htop hs) bound h

theorem execAll (S : Simulation r names top related) (bound : Nat) : ∀ (ts : List Stmt)
    {k : Nat} {s s' : State}, (∀ x ∈ Stmt.namesAll ts, names x) →
    (k = 0 → ∀ x ∈ Stmt.exposedAll ts, top x) → s.Related (related k) s' →
    (Stmt.execAll bound ts s).Related r (related k) (Stmt.execAll bound (Stmt.renameAll r ts) s')
  | [], _, _, _, _, _, h => .some ⟨rfl, h⟩
  | t :: ts, k, s, s', hn, htop, h => by
    rw [Stmt.namesAll, List.forall_mem_append] at hn
    have ht := S.exec bound t hn.1
      (fun hk x hx => htop hk x (List.mem_append_left _ hx)) h
    rw [Stmt.renameAll, Stmt.execAll, Stmt.execAll]
    rcases ht.cases with ⟨hb, hb'⟩ | ⟨result, u, u', hb, hb', hu⟩ <;> rw [hb, hb']
    · exact .none
    · cases result with
      | error err => exact .some ⟨rfl, hu⟩
      | ok _ =>
        exact S.execAll bound ts hn.2 (fun hk x hx => htop hk x (List.mem_append_right _ hx)) hu

end

end Chain.Simulation

/-! ## Scopes related one by one -/

namespace Chain

/-- There are as many scopes on either side, and those at the same place are related. -/
structure Rel (R : Scope → Scope → Prop) (c d : Chain) : Prop where
  locals : List.Forall₂ R c.locals d.locals
  globals : R c.globals d.globals

theorem get?_cons (s : Scope) (locals : List Scope) (g : Scope) (name : String) :
    (⟨s :: locals, g⟩ : Chain).get? name =
      (s.get? name).or ((⟨locals, g⟩ : Chain).get? name) := by
  rw [get?, get?, List.findSome?_cons]
  cases s.get? name <;> rfl

theorem assign?_cons (s : Scope) (locals : List Scope) (g : Scope) (name : String) (v : Value) :
    (⟨s :: locals, g⟩ : Chain).assign? name v =
      if s.contains name then some ⟨s.define name v :: locals, g⟩
      else ((⟨locals, g⟩ : Chain).assign? name v).map fun c => ⟨s :: c.locals, c.globals⟩ := by
  simp only [assign?, List.findIdx?_cons]
  by_cases hs : s.contains name = true
  · simp [hs]
  · rw [if_neg hs, if_neg hs]
    cases locals.findIdx? (·.contains name) with
    | some i => rfl
    | none => by_cases hg : g.contains name = true <;> simp [hg]

variable {R : Scope → Scope → Prop} {r : String → String} {names top : String → Prop}

/-- If lookups and declarations in single scopes keep a relation, then everything keeps it. -/
theorem simulation_rel (hempty : R {} {})
    (hget : ∀ {s t : Scope} {x : String}, R s t → names x → t.get? (r x) = s.get? x)
    (hdefine : ∀ {s t : Scope} {x : String} (v : Value), R s t → names x →
      R (s.define x v) (t.define (r x) v)) :
    Simulation r names top fun _ => Rel R where
  get? := by
    rintro - ⟨locals, g⟩ ⟨locals', g'⟩ x ⟨hlocals, hg⟩ hx
    dsimp only at hlocals hg
    induction hlocals with
    | nil => exact hget hg hx
    | cons hs _ ih => rw [get?_cons, get?_cons, hget hs hx, ih]
  assign? := by
    rintro - ⟨locals, g⟩ ⟨locals', g'⟩ x v ⟨hlocals, hg⟩ hx
    dsimp only at hlocals hg
    have hcontains : ∀ {s t : Scope}, R s t → t.contains (r x) = s.contains x := by
      intro s t hs
      rw [Scope.contains, hget hs hx, Scope.contains]
    induction hlocals with
    | nil =>
      simp only [assign?, List.findIdx?_nil, hcontains hg]
      split
      · exact .some ⟨.nil, hdefine v hg hx⟩
      · exact .none
    | cons hs hrest ih =>
      rw [assign?_cons, assign?_cons, hcontains hs]
      split
      · exact .some ⟨.cons (hdefine v hs hx) hrest, hg⟩
      · revert ih
        generalize Chain.assign? _ x v = o, Chain.assign? _ (r x) v = o'
        rintro (h | -)
        · exact .some ⟨.cons hs h.locals, h.globals⟩
        · exact .none
  define := by
    rintro - ⟨locals, g⟩ ⟨locals', g'⟩ x v ⟨hlocals, hg⟩ hx -
    cases hlocals with
    | nil => exact ⟨.nil, hdefine v hg hx⟩
    | cons hs hrest => exact ⟨.cons (hdefine v hs hx) hrest, hg⟩
  push h := ⟨.cons hempty h.locals, h.globals⟩
  pop := by
    rintro - ⟨locals, g⟩ ⟨locals', g'⟩ ⟨hlocals, hg⟩
    cases hlocals with
    | nil => exact ⟨.nil, hg⟩
    | cons _ hrest => exact ⟨hrest, hg⟩

end Chain

end Lox
