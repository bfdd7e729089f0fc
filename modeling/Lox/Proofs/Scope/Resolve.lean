import Lox.Proofs.Parse.Reads
import Lox.Proofs.Scope.Contour
import Lox.Proofs.Scope.Lookups

/-!
# Where names are found

* `Expr.nameAt?`, `Stmt.occurrence?`, `occurrenceIn?`: the variable or assignment at the end of a
  path, and what stands before it in each block around;
* `Lookup.Stands`: at a lookup, the scopes of the blocks around have the names declared before it;
* `Lookup.Hits`, `Lookup.Passes`, `Lookup.Resolves`: the scope in which a name is found;
* the main result: the scope in which a name is found can be read off the tree.
-/

namespace Lox

open Eval (Error State Outcome iterate iterateLookups)

/-! ## Occurrences -/

/-- The name of the variable or assignment at the end of a path. -/
def Expr.nameAt? : Expr → List Nat → Option Name
  | var n, [] => some n
  | assign n _, [] => some n
  | grouping e, 0 :: p => e.nameAt? p
  | unary _ _ e, 0 :: p => e.nameAt? p
  | binary _ _ l _, 0 :: p => l.nameAt? p
  | binary _ _ _ r, 1 :: p => r.nameAt? p
  | logical _ _ l _, 0 :: p => l.nameAt? p
  | logical _ _ _ r, 1 :: p => r.nameAt? p
  | assign _ e, 0 :: p => e.nameAt? p
  | _, _ => none

/-- The name at the end of a path, and for each block on the way, the innermost first, the direct
statements before the one through which the path goes. -/
def Stmt.occurrence? : List Nat → Stmt → Option (Name × List (List Stmt))
  | 0 :: p, expression e => (e.nameAt? p).map (·, [])
  | 0 :: p, print e => (e.nameAt? p).map (·, [])
  | 0 :: p, declare _ (some e) => (e.nameAt? p).map (·, [])
  | i :: p, block ss => ss[i]?.bind fun s =>
    (occurrence? p s).map fun (n, befores) => (n, befores ++ [ss.take i])
  | 0 :: p, ifThen c _ => (c.nameAt? p).map (·, [])
  | 1 :: p, ifThen _ s => occurrence? p s
  | 0 :: p, ifElse c _ _ => (c.nameAt? p).map (·, [])
  | 1 :: p, ifElse _ s _ => occurrence? p s
  | 2 :: p, ifElse _ _ s => occurrence? p s
  | 0 :: p, loop c _ => (c.nameAt? p).map (·, [])
  | 1 :: p, loop _ s => occurrence? p s
  | _, _ => none

/-- The same in a program. -/
def occurrenceIn? (ss : List Stmt) : List Nat → Option (Name × List (List Stmt))
  | i :: p => ss[i]?.bind (Stmt.occurrence? p)
  | [] => none

/-! ## The scopes at a lookup -/

/-- The scopes at the lookup are those with the names `fs`, the global one among them, and above
them one for each block around, with the names declared before the occurrence. -/
def Lookup.Stands (occurrence : List Nat → Option (Name × List (List Stmt)))
    (fs : List (String → Bool)) (l : Lookup) : Prop :=
  ∃ befores, occurrence l.path = some (l.name, befores) ∧
    l.chain.contour = befores.map Stmt.declaresAny ++ fs ∧
    l.heights = (List.range' (fs.length - 1) befores.length).reverse

theorem Lookup.Stands.under {f g : List Nat → Option (Name × List (List Stmt))}
    {fs : List (String → Bool)} {l : Lookup} (h : l.Stands f fs) {i : Nat}
    (hg : ∀ p, g (i :: p) = f p) : (l.under i).Stands g fs := by
  obtain ⟨befores, hocc, hcontour, hheights⟩ := h
  exact ⟨befores, (hg l.path).trans hocc, hcontour, hheights⟩

theorem Expr.of_mem_lookups {e : Expr} {c : Chain} {l : Lookup} (h : l ∈ e.lookups c) :
    e.nameAt? l.path = some l.name ∧ l.chain.contour = c.contour ∧ l.heights = [] := by
  induction e generalizing c l with
  | literal v => cases h
  | grouping e ih | unary op line e ih =>
    obtain ⟨l, hl, rfl⟩ := List.mem_map.mp h
    exact ih hl
  | binary op line a b iha ihb =>
    rw [lookups, List.mem_append] at h
    rcases h with h | h
    · obtain ⟨l, hl, rfl⟩ := List.mem_map.mp h
      exact iha hl
    · have hc := a.contour_eval c
      rcases hv : a.eval c with ⟨err | v, d⟩ <;> rw [hv] at h hc
      · cases h
      · obtain ⟨l, hl, rfl⟩ := List.mem_map.mp h
        obtain ⟨hname, hcontour, hheights⟩ := ihb hl
        exact ⟨hname, hcontour.trans hc, hheights⟩
  | logical op line a b iha ihb =>
    rw [lookups, List.mem_append] at h
    rcases h with h | h
    · obtain ⟨l, hl, rfl⟩ := List.mem_map.mp h
      exact iha hl
    · have hc := a.contour_eval c
      rcases hv : a.eval c with ⟨err | v, d⟩ <;> rw [hv] at h hc
      · cases h
      · dsimp only at h
        split at h
        · cases h
        · obtain ⟨l, hl, rfl⟩ := List.mem_map.mp h
          obtain ⟨hname, hcontour, hheights⟩ := ihb hl
          exact ⟨hname, hcontour.trans hc, hheights⟩
  | var n =>
    obtain rfl := List.mem_singleton.mp h
    exact ⟨rfl, rfl, rfl⟩
  | assign n e ih =>
    rw [lookups, List.mem_append] at h
    rcases h with h | h
    · obtain ⟨l, hl, rfl⟩ := List.mem_map.mp h
      exact ih hl
    · have hc := e.contour_eval c
      rcases hv : e.eval c with ⟨err | v, d⟩ <;> rw [hv] at h hc
      · cases h
      · obtain rfl := List.mem_singleton.mp h
        exact ⟨rfl, hc, rfl⟩

/-- What an expression looks up as the first child of a statement. -/
theorem Expr.stands_lookups {e : Expr} {c : Chain} {l : Lookup}
    {g : List Nat → Option (Name × List (List Stmt))}
    (hg : ∀ p, g (0 :: p) = (e.nameAt? p).map (·, []))
    (h : l ∈ (e.lookups c).map (.under 0)) : l.Stands g c.contour := by
  obtain ⟨l, hl, rfl⟩ := List.mem_map.mp h
  obtain ⟨hname, hcontour, hheights⟩ := of_mem_lookups hl
  refine ⟨[], ?_, hcontour, hheights⟩
  rw [Lookup.under, hg, hname]
  rfl

theorem Eval.stands_iterateLookups {c : Expr} {body : State → Outcome}
    {lookups : State → List Lookup} {fs : List (String → Bool)}
    {g : List Nat → Option (Name × List (List Stmt))}
    (hg : ∀ p, g (0 :: p) = (c.nameAt? p).map (·, []))
    (hbody : ∀ s t, body s = some (.ok (), t) → t.chain.contour = s.chain.contour)
    (hlookups : ∀ s, s.chain.contour = fs → ∀ l ∈ lookups s, (l.under 1).Stands g fs)
    {rounds : Nat} {s : State} (hs : s.chain.contour = fs) {l : Lookup}
    (h : l ∈ iterateLookups c body lookups rounds s) : l.Stands g fs := by
  induction rounds generalizing s with
  | zero => cases h
  | succ rounds ih =>
    rw [iterateLookups, List.mem_append] at h
    rcases h with h | h
    · rw [← hs]
      exact Expr.stands_lookups hg h
    · have hc := s.contour_eval c
      rcases hv : s.eval c with ⟨err | v, s'⟩ <;> rw [hv] at h hc
      · cases h
      · dsimp only at h hc
        rw [hs] at hc
        split at h
        · rw [List.mem_append] at h
          rcases h with h | h
          · obtain ⟨l, hl, rfl⟩ := List.mem_map.mp h
            exact hlookups s' hc l hl
          · rcases hb : body s' with - | ⟨err | u, s''⟩ <;> rw [hb] at h
            · cases h
            · cases h
            · exact ih ((hbody s' s'' hb).trans hc) h
        · cases h

/-- The lookup stands in the statement with number `i` of a list. What has been declared before it
in the list is in the innermost of the scopes with the names `fs`. -/
def Lookup.StandsIn (ss : List Stmt) (fs : List (String → Bool)) (l : Lookup) : Prop :=
  ∃ i p t, l.path = i :: p ∧ ss[i]? = some t ∧
    Lookup.Stands (Stmt.occurrence? · t) (addNames (Stmt.declaresAny (ss.take i)) fs)
      { l with path := p }

theorem Lookup.StandsIn.within {ss : List Stmt} {c : Chain} {l : Lookup}
    (h : l.StandsIn ss c.push.contour) :
    (l.within c.locals.length).Stands (Stmt.occurrence? · (.block ss)) c.contour := by
  obtain ⟨i, p, t, hpath, ht, befores, hocc, hcontour, hheights⟩ := h
  refine ⟨befores ++ [ss.take i], ?_, ?_, ?_⟩
  · simp only [Lookup.within, hpath, Stmt.occurrence?, ht, Option.bind_some]
    dsimp only at hocc
    rw [hocc]
    rfl
  · simpa [Lookup.within, addNames] using hcontour
  · have hpush : c.push.locals.length = c.locals.length + 1 := rfl
    simp only [Lookup.within, length_addNames, Chain.length_contour, hpush, Nat.add_sub_cancel]
      at hheights ⊢
    rw [hheights, List.length_append, List.length_singleton, List.range'_succ, List.reverse_cons]

namespace Stmt

mutual

theorem stands_lookups {bound : Nat} : ∀ {r : Stmt} {s : State}, r.Proper →
    ∀ {l : Lookup}, l ∈ lookups bound r s → l.Stands (occurrence? · r) s.chain.contour
  | expression e, s, _, l, h => Expr.stands_lookups (fun _ => rfl) h
  | print e, s, _, l, h => Expr.stands_lookups (fun _ => rfl) h
  | declare n none, s, _, l, h => by
    rw [lookups] at h
    cases h
  | declare n (some e), s, _, l, h => Expr.stands_lookups (fun _ => rfl) h
  | block ss, s, hp, l, h => by
    rw [Proper] at hp
    rw [lookups] at h
    obtain ⟨l, hl, rfl⟩ := List.mem_map.mp h
    have hin := standsIn_lookupsAll [] hp (by rw [declaresAny_nil, addNames_false]) hl
    exact hin.within
  | ifThen c r, s, hp, l, h => by
    rw [Proper] at hp
    rw [lookups, List.mem_append] at h
    rcases h with h | h
    · exact Expr.stands_lookups (fun _ => rfl) h
    · have hc := s.contour_eval c
      rcases hv : s.eval c with ⟨err | v, s'⟩ <;> rw [hv] at h hc
      · cases h
      · dsimp only at h hc
        split at h
        · obtain ⟨l, hl, rfl⟩ := List.mem_map.mp h
          rw [← hc]
          exact (stands_lookups hp.2 hl).under fun _ => rfl
        · cases h
  | ifElse c r u, s, hp, l, h => by
    rw [Proper] at hp
    rw [lookups, List.mem_append] at h
    rcases h with h | h
    · exact Expr.stands_lookups (fun _ => rfl) h
    · have hc := s.contour_eval c
      rcases hv : s.eval c with ⟨err | v, s'⟩ <;> rw [hv] at h hc
      · cases h
      · dsimp only at h hc
        rw [← hc]
        split at h
        · obtain ⟨l, hl, rfl⟩ := List.mem_map.mp h
          exact (stands_lookups hp.2.1 hl).under fun _ => rfl
        · obtain ⟨l, hl, rfl⟩ := List.mem_map.mp h
          exact (stands_lookups hp.2.2.2 hl).under fun _ => rfl
  | loop c r, s, hp, l, h => by
    rw [Proper] at hp
    rw [lookups] at h
    have hbody : ∀ s t, exec bound r s = some (.ok (), t) → t.chain.contour = s.chain.contour := by
      intro s t h
      rw [contour_exec hp.2 h, hp.1, addNames_false]
    refine Eval.stands_iterateLookups (fun _ => rfl) hbody (fun s' hs' l hl => ?_) rfl h
    rw [← hs']
    exact (stands_lookups hp.2 hl).under fun _ => rfl

theorem standsIn_lookupsAll {bound : Nat} : ∀ {rs : List Stmt} (done : List Stmt)
    {fs : List (String → Bool)} {s : State}, ProperAll rs →
    s.chain.contour = addNames (declaresAny done) fs →
    ∀ {l : Lookup}, l ∈ lookupsAll bound done.length rs s → l.StandsIn (done ++ rs) fs
  | [], done, fs, s, _, _, l, h => by
    rw [lookupsAll] at h
    cases h
  | r :: rs, done, fs, s, hp, hs, l, h => by
    rw [ProperAll] at hp
    rw [lookupsAll, List.mem_append] at h
    rcases h with h | h
    · obtain ⟨l, hl, rfl⟩ := List.mem_map.mp h
      refine ⟨done.length, l.path, r, rfl, by simp, ?_⟩
      rw [List.take_left, ← hs]
      exact stands_lookups hp.1 hl
    · rcases hr : exec bound r s with - | ⟨err | u, s'⟩ <;> rw [hr] at h
      · cases h
      · cases h
      · have hcontour := contour_exec hp.1 hr
        have hdone : (done ++ [r]).length = done.length + 1 := by simp
        rw [hs, addNames_addNames, ← declaresAny_concat] at hcontour
        dsimp only at h
        rw [← hdone] at h
        have hin := standsIn_lookupsAll (done ++ [r]) hp.2 hcontour h
        rwa [List.append_assoc, List.singleton_append] at hin

end

end Stmt

/-! ## The scope in which a name is found -/

namespace Lookup

/-- The name is found in the local scope `k` steps out, to be read and assigned there. -/
def Hits (k : Nat) (l : Lookup) : Prop :=
  ∃ s v, l.chain.locals[k]? = some s ∧ s.get? l.name.text = some v ∧
    (∀ t ∈ l.chain.locals.take k, t.contains l.name.text = false) ∧
    l.chain.get? l.name.text = some v ∧
    ∀ w, l.chain.assign? l.name.text w =
      some { l.chain with locals := l.chain.locals.modify k (·.define l.name.text w) }

/-- The chain without its innermost local scopes. -/
def below (n : Nat) (l : Lookup) : Chain := { l.chain with locals := l.chain.locals.drop n }

/-- None of the `n` innermost scopes has the name. It is looked up in those below, and not found
exactly if none of them has it. -/
def Passes (n : Nat) (l : Lookup) : Prop :=
  (∀ s ∈ l.chain.locals.take n, s.contains l.name.text = false) ∧
    l.chain.get? l.name.text = (l.below n).get? l.name.text ∧
    (∀ w, l.chain.assign? l.name.text w = ((l.below n).assign? l.name.text w).map
      fun c => { c with locals := l.chain.locals.take n ++ c.locals }) ∧
    (l.Fails ↔ (∀ s ∈ (l.below n).locals, s.contains l.name.text = false) ∧
      l.chain.globals.contains l.name.text = false)

/-- The scopes above the `m` local ones at the start are those of the blocks around. The name is
found in that of the innermost block in which it has been declared before, at the height at which
the current execution of the block began, or below all of them if there is no such block. -/
def Resolves (m : Nat) (befores : List (List Stmt)) (l : Lookup) : Prop :=
  l.chain.locals.length = befores.length + m ∧
    match befores.findIdx? (Stmt.declaresAny · l.name.text) with
    | some k => l.Hits k ∧ l.heights[k]? = some (l.chain.locals.length - 1 - k)
    | none => l.Passes befores.length

end Lookup

theorem Chain.split_contour {c : Chain} {ds fs : List (String → Bool)} (h : c.contour = ds ++ fs)
    (hne : fs ≠ []) : (c.locals.take ds.length).map Scope.contains = ds ∧
      c.locals.length + 1 = ds.length + fs.length := by
  have hlen := congrArg List.length h
  have hpos := List.length_pos_iff.mpr hne
  rw [length_contour, List.length_append] at hlen
  have htake : c.contour.take ds.length = ds := by rw [h, List.take_left]
  rw [contour, List.take_append_of_le_length (by rw [List.length_map]; omega)] at htake
  exact ⟨by rw [List.map_take, htake], hlen⟩

theorem Lookup.hits_of_findIdx? {l : Lookup} {k : Nat}
    (h : l.chain.locals.findIdx? (·.contains l.name.text) = some k) : l.Hits k := by
  obtain ⟨hk, hname, hmin⟩ := List.findIdx?_eq_some_iff_getElem.mp h
  obtain ⟨v, hv⟩ := Option.isSome_iff_exists.mp hname
  have hbefore : ∀ t ∈ l.chain.locals.take k, t.contains l.name.text = false := by
    intro t ht
    obtain ⟨j, hj, rfl⟩ := List.mem_iff_getElem.mp ht
    have hjk : j < k := by
      rw [List.length_take] at hj
      omega
    rw [List.getElem_take]
    simpa using hmin j hjk
  refine ⟨l.chain.locals[k], v, List.getElem?_eq_getElem hk, hv, hbefore, ?_, fun w => ?_⟩
  · have hsplit : l.chain.locals.findSome? (·.get? l.name.text) = some v := by
      refine List.findSome?_eq_some_iff.mpr ⟨l.chain.locals.take k, l.chain.locals[k],
        l.chain.locals.drop (k + 1), ?_, hv, fun t ht => ?_⟩
      · rw [← List.drop_eq_getElem_cons hk, List.take_append_drop]
      · simpa [Scope.contains] using hbefore t ht
    rw [Chain.get?, hsplit, Option.some_or]
  · rw [Chain.assign?, h]

theorem modify_append {α : Type} (f : α → α) (xs ys : List α) (i : Nat) :
    (xs ++ ys).modify (i + xs.length) f = xs ++ ys.modify i f := by
  induction xs with
  | nil => rfl
  | cons x xs ih =>
    rw [List.length_cons, ← Nat.add_assoc, List.cons_append, List.modify_succ_cons, ih,
      List.cons_append]

theorem Chain.get?_eq_none_iff {c : Chain} {name : String} : c.get? name = none ↔
    (∀ s ∈ c.locals, s.contains name = false) ∧ c.globals.contains name = false := by
  simp [get?, Scope.contains, List.findSome?_eq_none_iff]

theorem Chain.get?_append {name : String} {xs : List Scope}
    (h : ∀ s ∈ xs, s.contains name = false) (ys : List Scope) (g : Scope) :
    (⟨xs ++ ys, g⟩ : Chain).get? name = (⟨ys, g⟩ : Chain).get? name := by
  have hnone : xs.findSome? (·.get? name) = none := by
    refine List.findSome?_eq_none_iff.mpr fun s hs => ?_
    simpa [Scope.contains] using h s hs
  simp only [get?, List.findSome?_append, hnone, Option.none_or]

theorem Chain.assign?_append {name : String} {xs : List Scope}
    (h : ∀ s ∈ xs, s.contains name = false) (ys : List Scope) (g : Scope) (v : Value) :
    (⟨xs ++ ys, g⟩ : Chain).assign? name v = ((⟨ys, g⟩ : Chain).assign? name v).map
      fun c => { c with locals := xs ++ c.locals } := by
  have hnone : xs.findIdx? (·.contains name) = none := List.findIdx?_eq_none_iff.mpr h
  simp only [assign?, List.findIdx?_append, hnone, Option.none_or]
  cases ys.findIdx? (·.contains name) with
  | some i => simp [modify_append]
  | none =>
    by_cases hg : g.contains name = true <;> simp [hg]

theorem Lookup.passes_of_take {l : Lookup} {n : Nat}
    (h : ∀ s ∈ l.chain.locals.take n, s.contains l.name.text = false) : l.Passes n := by
  have hsplit : l.chain = ⟨l.chain.locals.take n ++ l.chain.locals.drop n, l.chain.globals⟩ := by
    rw [List.take_append_drop]
  have hget : l.chain.get? l.name.text = (l.below n).get? l.name.text :=
    (congrArg (Chain.get? · l.name.text) hsplit).trans (Chain.get?_append h _ _)
  refine ⟨h, hget, fun w => ?_, ?_⟩
  · exact (congrArg (Chain.assign? · l.name.text w) hsplit).trans (Chain.assign?_append h _ _ w)
  · rw [Fails, hget, Chain.get?_eq_none_iff]
    rfl

/-- The scopes at a lookup decide where its name is found. -/
theorem Lookup.resolves_of_contour {l : Lookup} {m : Nat} {befores : List (List Stmt)}
    {fs : List (String → Bool)} (hcontour : l.chain.contour = befores.map Stmt.declaresAny ++ fs)
    (hheights : l.heights = (List.range' m befores.length).reverse) (hm : fs.length = m + 1) :
    l.Resolves m befores := by
  have hne : fs ≠ [] := List.ne_nil_of_length_eq_add_one hm
  obtain ⟨htake, hlen⟩ := Chain.split_contour hcontour hne
  rw [List.length_map] at htake hlen
  refine ⟨by omega, ?_⟩
  have hfind : (l.chain.locals.take befores.length).findIdx? (·.contains l.name.text) =
      befores.findIdx? (Stmt.declaresAny · l.name.text) := by
    have hmap := congrArg (List.findIdx? (· l.name.text)) htake
    rwa [List.findIdx?_map, List.findIdx?_map] at hmap
  cases hk : befores.findIdx? (Stmt.declaresAny · l.name.text) with
  | some k =>
    rw [hk] at hfind
    obtain ⟨hlt, -, -⟩ := List.findIdx?_eq_some_iff_getElem.mp hk
    refine ⟨Lookup.hits_of_findIdx? ?_, ?_⟩
    · rw [← List.take_append_drop befores.length l.chain.locals, List.findIdx?_append, hfind,
        Option.some_or]
    · rw [hheights, List.getElem?_reverse (by simpa using hlt), List.length_range',
        List.getElem?_range' (by omega), Option.some.injEq]
      omega
  | none =>
    rw [hk] at hfind
    exact Lookup.passes_of_take (List.findIdx?_eq_none_iff.mp hfind)

open Parse (parse)

/-- **Names are resolved by the tree.** Whatever a program without syntax errors looks up while it
runs, the tree tells in which scope it is found. The run ends with an undefined variable exactly
if some lookup fails. -/
theorem lookups_resolve (bound : Nat) {tokens : List Token} {ss : List Stmt}
    (hf : (parse tokens).diagnostics = []) (hs : (parse tokens).statements? = some ss)
    (start : State) :
    (∀ l ∈ Stmt.lookupsAll bound 0 ss start, ∃ befores,
      occurrenceIn? ss l.path = some (l.name, befores) ∧
        l.Resolves start.chain.locals.length befores) ∧
    ∀ n : Name, (∃ t, Stmt.execAll bound ss start = some (.error ⟨.undefined n.text, n.line⟩, t)) ↔
      ∃ l ∈ Stmt.lookupsAll bound 0 ss start, l.name = n ∧ l.Fails := by
  refine ⟨fun l hl => ?_, fun n => Stmt.undefined_execAll bound n ss 0 start⟩
  obtain ⟨ss', hslots, hds, -⟩ := Parse.declarations_of_parse (List.map_eq_nil_iff.mp hf)
  obtain rfl : ss = ss' := by
    rw [Parse.statements?_of_slots hslots] at hs
    exact (Option.some.inj hs).symm
  have hin := Stmt.standsIn_lookupsAll [] hds.proper
    (by rw [Stmt.declaresAny_nil, addNames_false]) hl
  obtain ⟨i, p, t, hpath, ht, befores, hocc, hcontour, hheights⟩ := hin
  refine ⟨befores, ?_, ?_⟩
  · rw [hpath, occurrenceIn?]
    rw [List.nil_append] at ht
    rw [ht]
    exact hocc
  · exact Lookup.resolves_of_contour hcontour (by simpa using hheights) (by simp)

/-- A block reads in its own block what the block around it has declared. -/
theorem lookups_resolve_nested : ∃ l ∈ Stmt.lookupsAll 1 0
    [.block [.declare ⟨"a", 1⟩ none, .block [.print (.var ⟨"a", 2⟩)]]] {},
    l.path = [0, 1, 0, 0] ∧ l.Hits 1 ∧ l.heights[1]? = some 0 := by
  have hall := @lookups_resolve 1
    [⟨.leftBrace, "\x7b", none, 1⟩, ⟨.varKw, "var", none, 1⟩, ⟨.identifier, "a", none, 1⟩,
      ⟨.semicolon, ";", none, 1⟩, ⟨.leftBrace, "\x7b", none, 2⟩, ⟨.printKw, "print", none, 2⟩,
      ⟨.identifier, "a", none, 2⟩, ⟨.semicolon, ";", none, 2⟩, ⟨.rightBrace, "\x7d", none, 2⟩,
      ⟨.rightBrace, "\x7d", none, 3⟩]
    [.block [.declare ⟨"a", 1⟩ none, .block [.print (.var ⟨"a", 2⟩)]]] rfl rfl {}
  have hmem : (⟨[0, 1, 0, 0], ⟨"a", 2⟩, ⟨[⟨[]⟩, ⟨[("a", .nil)]⟩], ⟨[]⟩⟩, [1, 0]⟩ : Lookup) ∈
      Stmt.lookupsAll 1 0 [.block [.declare ⟨"a", 1⟩ none, .block [.print (.var ⟨"a", 2⟩)]]] {} :=
    List.mem_singleton.mpr rfl
  obtain ⟨befores, hocc, -, hfound⟩ := hall.1 _ hmem
  cases hocc
  exact ⟨_, hmem, rfl, hfound⟩

end Lox
