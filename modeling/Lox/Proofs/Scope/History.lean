import Mathlib.Data.List.Sort
import Lox.Proofs.Scope.Height

/-!
# Scopes answer by their history

* `Chain.Active`, `Chain.Current`: the scopes that are entered and not left, told by the steps;
* `Chain.Defined`, `Chain.LastWrite`: the names that a scope was given, and their latest values;
* `Chain.Tells`, `exists_tells`: every scope of the chain has exactly these names and values;
* `answers_by_history`: what a client sees of the chain at any time.
-/

namespace Lox.Chain

/-! ## Histories -/

/-- A scope is told by the number of the steps up to its entry: it is 0 for the global scope, and
`i + 1` for the scope that step `i` enters. -/
def Active (xs : List Step) (s : Nat) : Prop := s = 0 ∨ ∃ i, s = i + 1 ∧ Unmatched xs i

/-- The scope is the innermost one. -/
def Current (xs : List Step) (s : Nat) : Prop := Active xs s ∧ ∀ t, Active xs t → t ≤ s

/-- The name was defined while the scope was the innermost one. -/
def Defined (xs : List Step) (s : Nat) (name : String) : Prop :=
  ∃ i v, xs[i]? = some (.define name v) ∧ Current (xs.take i) s

/-- The scope is the innermost one that defines the name. -/
def Innermost (xs : List Step) (s : Nat) (name : String) : Prop :=
  (Active xs s ∧ Defined xs s name) ∧ ∀ t, Active xs t → Defined xs t name → t ≤ s

/-- The step, taken after the steps `xs`, gives the name in the scope `s` the value. -/
def Step.Writes (step : Step) (xs : List Step) (s : Nat) (name : String) (v : Value) : Prop :=
  step = .define name v ∧ Current xs s ∨ step = .assign name v ∧ Innermost xs s name

/-- Step `i` gives the name in the scope `s` the value. -/
def WrittenAt (xs : List Step) (s : Nat) (name : String) (v : Value) (i : Nat) : Prop :=
  ∃ step, xs[i]? = some step ∧ step.Writes (xs.take i) s name v

/-- The latest step that gives the name in the scope a value gives it this one. -/
def LastWrite (xs : List Step) (s : Nat) (name : String) (v : Value) : Prop :=
  ∃ i, WrittenAt xs s name v i ∧ ∀ j w, WrittenAt xs s name w j → j ≤ i

variable {xs ys zs : List Step} {step : Step} {c d : Chain} {s t i : Nat} {name other : String}
  {v w : Value}

theorem Current.unique (hs : Current xs s) (ht : Current xs t) : s = t :=
  Nat.le_antisymm (ht.2 s hs.1) (hs.2 t ht.1)

theorem Innermost.unique (hs : Innermost xs s name) (ht : Innermost xs t name) : s = t :=
  Nat.le_antisymm (ht.2 s hs.1.1 hs.1.2) (hs.2 t ht.1.1 ht.1.2)

/-! ## One more step -/

theorem Active.le (h : Active xs s) : s ≤ xs.length := by
  rcases h with rfl | ⟨i, rfl, hi⟩
  · exact Nat.zero_le _
  · exact hi.lt

theorem active_zero (xs : List Step) : Active xs 0 := .inl rfl

theorem active_push : Active (xs ++ [.push]) s ↔ s = xs.length + 1 ∨ Active xs s := by
  simp only [Active, unmatched_push]
  grind

theorem active_concat_of_ne (hpush : step ≠ .push) (hpop : step ≠ .pop) :
    Active (xs ++ [step]) s ↔ Active xs s := by
  simp only [Active, unmatched_concat_of_ne hpush hpop]

theorem active_pop : Active (xs ++ [.pop]) s ↔ s = 0 ∨ Active xs s ∧ ¬ Current xs s := by
  constructor
  · rintro (rfl | ⟨i, rfl, hi⟩)
    · exact .inl rfl
    · obtain ⟨hi, j, hij, hj⟩ := unmatched_pop.mp hi
      refine .inr ⟨.inr ⟨i, rfl, hi⟩, fun hcurrent => ?_⟩
      have hle := hcurrent.2 (j + 1) (.inr ⟨j, rfl, hj⟩)
      omega
  · rintro (rfl | ⟨rfl | ⟨i, rfl, hi⟩, hcurrent⟩)
    · exact .inl rfl
    · exact .inl rfl
    · refine .inr ⟨i, rfl, unmatched_pop.mpr ⟨hi, ?_⟩⟩
      by_contra hnone
      refine hcurrent ⟨.inr ⟨i, rfl, hi⟩, ?_⟩
      rintro t (rfl | ⟨j, rfl, hj⟩)
      · exact Nat.zero_le _
      · by_contra hlt
        exact hnone ⟨j, by omega, hj⟩

theorem getElem?_concat_and (P : List Step → Prop) {u : Step} :
    ((xs ++ [step])[i]? = some u ∧ P ((xs ++ [step]).take i)) ↔
      (xs[i]? = some u ∧ P (xs.take i)) ∨ i = xs.length ∧ step = u ∧ P xs := by
  rcases Nat.lt_trichotomy i xs.length with hi | rfl | hi
  · rw [List.getElem?_append_left hi, List.take_append_of_le_length (Nat.le_of_lt hi)]
    simp [Nat.ne_of_lt hi]
  · rw [List.getElem?_concat_length, List.take_left, List.getElem?_eq_none (Nat.le_refl _)]
    simp
  · have hlong : (xs ++ [step])[i]? = none := List.getElem?_eq_none (by simpa using hi)
    rw [hlong, List.getElem?_eq_none (Nat.le_of_lt hi)]
    simp [Nat.ne_of_gt hi]

theorem defined_concat : Defined (xs ++ [step]) s name ↔
    Defined xs s name ∨ ∃ v, step = .define name v ∧ Current xs s := by
  simp only [Defined, getElem?_concat_and fun ys => Current ys s]
  constructor
  · rintro ⟨i, v, h | ⟨-, h⟩⟩
    · exact .inl ⟨i, v, h⟩
    · exact .inr ⟨v, h⟩
  · rintro (⟨i, v, h⟩ | ⟨v, h⟩)
    · exact ⟨i, v, .inl h⟩
    · exact ⟨xs.length, v, .inr ⟨rfl, h⟩⟩

theorem WrittenAt.lt (h : WrittenAt xs s name v i) : i < xs.length := by
  obtain ⟨step, hget, -⟩ := h
  exact (List.getElem?_eq_some_iff.mp hget).1

theorem writtenAt_concat : WrittenAt (xs ++ [step]) s name v i ↔
    WrittenAt xs s name v i ∨ i = xs.length ∧ step.Writes xs s name v := by
  constructor
  · rintro ⟨u, h⟩
    rcases (getElem?_concat_and fun ys => u.Writes ys s name v).mp h with h | ⟨rfl, rfl, h⟩
    · exact .inl ⟨u, h⟩
    · exact .inr ⟨rfl, h⟩
  · rintro (⟨u, h⟩ | ⟨rfl, h⟩)
    · exact ⟨u, (getElem?_concat_and fun ys => u.Writes ys s name v).mpr (.inl h)⟩
    · exact ⟨step, (getElem?_concat_and fun ys => step.Writes ys s name v).mpr (.inr ⟨rfl, rfl, h⟩)⟩

theorem lastWrite_concat : LastWrite (xs ++ [step]) s name v ↔
    step.Writes xs s name v ∨ LastWrite xs s name v ∧ ∀ w, ¬ step.Writes xs s name w := by
  constructor
  · rintro ⟨i, hi, hlast⟩
    rcases writtenAt_concat.mp hi with hi | ⟨-, hi⟩
    · refine .inr ⟨⟨i, hi, fun j w hj => hlast j w (writtenAt_concat.mpr (.inl hj))⟩, ?_⟩
      intro w hw
      have hle := hlast xs.length w (writtenAt_concat.mpr (.inr ⟨rfl, hw⟩))
      exact absurd hi.lt (Nat.not_lt_of_le hle)
    · exact .inl hi
  · rintro (h | ⟨⟨i, hi, hlast⟩, hnone⟩)
    · refine ⟨xs.length, writtenAt_concat.mpr (.inr ⟨rfl, h⟩), fun j w hj => ?_⟩
      have hlt := hj.lt
      rw [List.length_append, List.length_singleton] at hlt
      exact Nat.le_of_lt_succ hlt
    · refine ⟨i, writtenAt_concat.mpr (.inl hi), fun j w hj => ?_⟩
      rcases writtenAt_concat.mp hj with hj | ⟨-, hj⟩
      · exact hlast j w hj
      · exact absurd hj (hnone w)

/-- The names of a scope are those that have a latest value. -/
theorem exists_lastWrite_iff : (∃ v, LastWrite xs s name v) ↔ Defined xs s name := by
  induction xs using List.reverseRecOn with
  | nil =>
    constructor
    · rintro ⟨v, i, hi, -⟩
      exact absurd hi.lt (Nat.not_lt_zero i)
    · rintro ⟨i, v, hget, -⟩
      cases hget
  | append_singleton xs step ih =>
    rw [defined_concat, ← ih]
    constructor
    · rintro ⟨v, hv⟩
      rcases lastWrite_concat.mp hv with (⟨hstep, hcurrent⟩ | ⟨-, hinner⟩) | ⟨hv, -⟩
      · exact .inr ⟨v, hstep, hcurrent⟩
      · exact .inl (ih.mpr hinner.1.2)
      · exact .inl ⟨v, hv⟩
    · rintro (⟨v, hv⟩ | ⟨v, hstep, hcurrent⟩)
      · by_cases hwrites : ∃ w, step.Writes xs s name w
        · obtain ⟨w, hw⟩ := hwrites
          exact ⟨w, lastWrite_concat.mpr (.inl hw)⟩
        · exact ⟨v, lastWrite_concat.mpr (.inr ⟨hv, not_exists.mp hwrites⟩)⟩
      · exact ⟨v, lastWrite_concat.mpr (.inl (.inl ⟨hstep, hcurrent⟩))⟩

theorem lastWrite_quiet (h : ∀ s name v, ¬ step.Writes xs s name v) :
    LastWrite (xs ++ [step]) s name v ↔ LastWrite xs s name v := by
  rw [lastWrite_concat]
  constructor
  · rintro (hw | ⟨hv, -⟩)
    · exact absurd hw (h s name v)
    · exact hv
  · intro hv
    exact .inr ⟨hv, h s name⟩

theorem Defined.le (h : Defined xs s name) : s ≤ xs.length := by
  obtain ⟨i, v, -, hcurrent⟩ := h
  have hle := hcurrent.1.le
  rw [List.length_take] at hle
  omega

/-! ## The chain and its history -/

/-- The scopes of the chain, each with the number that tells it, are the active ones and have the
names and values that the history gives them. -/
structure Tells (xs : List Step) (c : Chain) (es : List (Nat × Scope)) : Prop where
  scopes : c.scopes = es.map (·.2)
  nested : es.Pairwise (fun e f => f.1 < e.1)
  active : ∀ s, Active xs s ↔ s ∈ es.map (·.1)
  values : ∀ e ∈ es, ∀ name v, e.2.get? name = some v ↔ LastWrite xs e.1 name v

namespace Tells

variable {es inner outer : List (Nat × Scope)} {e : Nat × Scope} {n : String}

theorem contains_iff (h : Tells xs c es) (he : e ∈ es) :
    e.2.contains name = true ↔ Defined xs e.1 name := by
  rw [Scope.contains, Option.isSome_iff_exists, ← exists_lastWrite_iff]
  exact exists_congr fun v => h.values e he name v

theorem active_of_mem (h : Tells xs c es) (he : e ∈ es) : Active xs e.1 :=
  (h.active e.1).mpr (List.mem_map_of_mem he)

theorem current (h : Tells xs c (e :: outer)) : Current xs e.1 := by
  refine ⟨h.active_of_mem List.mem_cons_self, fun t ht => ?_⟩
  obtain ⟨f, hf, rfl⟩ := List.mem_map.mp ((h.active t).mp ht)
  rcases List.mem_cons.mp hf with rfl | hf
  · exact Nat.le_refl _
  · exact Nat.le_of_lt ((List.pairwise_cons.mp h.nested).1 f hf)

theorem exists_split {before after : List Scope} {t : Scope} (h : Tells xs c es)
    (hnear : c.Nearest name before t after) : ∃ inner e outer, es = inner ++ e :: outer ∧
      inner.map (·.2) = before ∧ e.2 = t ∧ outer.map (·.2) = after := by
  obtain ⟨inner, rest, rfl, rfl, hrest⟩ :=
    List.map_eq_append_iff.mp (h.scopes.symm.trans hnear.split)
  obtain ⟨e, outer, rfl, rfl, rfl⟩ := List.map_eq_cons_iff.mp hrest
  exact ⟨inner, e, outer, rfl, rfl, rfl, rfl⟩

/-- The innermost scope that defines a name is the nearest one that has it. -/
theorem innermost_iff (h : Tells xs c (inner ++ e :: outer)) : Innermost xs e.1 name ↔
    c.Nearest name (inner.map (·.2)) e.2 (outer.map (·.2)) := by
  have he : e ∈ inner ++ e :: outer := List.mem_append_right _ List.mem_cons_self
  obtain ⟨-, htail, hbetween⟩ := List.pairwise_append.mp h.nested
  constructor
  · rintro ⟨⟨-, hdefined⟩, hlast⟩
    refine ⟨by rw [h.scopes, List.map_append, List.map_cons], (h.contains_iff he).mpr hdefined, ?_⟩
    intro t ht
    obtain ⟨f, hf, rfl⟩ := List.mem_map.mp ht
    have hmem : f ∈ inner ++ e :: outer := List.mem_append_left _ hf
    rw [Bool.eq_false_iff]
    intro hhas
    have hle := hlast f.1 (h.active_of_mem hmem) ((h.contains_iff hmem).mp hhas)
    exact absurd (hbetween f hf e List.mem_cons_self) (Nat.not_lt_of_le hle)
  · intro hnear
    refine ⟨⟨h.active_of_mem he, (h.contains_iff he).mp hnear.has⟩, fun t ht hdefined => ?_⟩
    obtain ⟨f, hf, rfl⟩ := List.mem_map.mp ((h.active t).mp ht)
    have hhas := (h.contains_iff hf).mpr hdefined
    rcases List.mem_append.mp hf with hf | hf
    · rw [hnear.passed f.2 (List.mem_map_of_mem hf)] at hhas
      cases hhas
    · rcases List.mem_cons.mp hf with rfl | hf
      · exact Nat.le_refl _
      · exact Nat.le_of_lt ((List.pairwise_cons.mp htail).1 f hf)

theorem initial : Tells [] {} [(0, {})] where
  scopes := rfl
  nested := List.pairwise_singleton ..
  active := by
    intro s
    rw [List.map_singleton, List.mem_singleton]
    refine ⟨?_, fun hs => .inl hs⟩
    rintro (hs | ⟨i, -, hi⟩)
    · exact hs
    · exact absurd hi not_unmatched_nil
  values := by
    rintro e he name v
    rw [List.mem_singleton] at he
    subst he
    refine ⟨nofun, ?_⟩
    rintro ⟨i, hi, -⟩
    exact absurd hi.lt (Nat.not_lt_zero i)

theorem push (h : Tells xs c es) :
    Tells (xs ++ [.push]) c.push ((xs.length + 1, {}) :: es) where
  scopes := by rw [scopes_push, h.scopes, List.map_cons]
  nested := by
    refine List.pairwise_cons.mpr ⟨fun e he => ?_, h.nested⟩
    exact Nat.lt_succ_of_le (h.active_of_mem he).le
  active := by
    intro s
    rw [active_push, h.active, List.map_cons, List.mem_cons]
  values := by
    intro e he name v
    rw [lastWrite_quiet (by simp [Step.Writes])]
    rcases List.mem_cons.mp he with rfl | he
    · refine ⟨nofun, fun hlast => ?_⟩
      exact absurd (exists_lastWrite_iff.mp ⟨v, hlast⟩).le (Nat.not_succ_le_self _)
    · exact h.values e he name v

theorem pop_global (h : Tells xs c [e]) : Tells (xs ++ [.pop]) c.pop [e] where
  scopes := by
    have hlocals : c.locals = [] := by
      have hlength := congrArg List.length h.scopes
      rw [Chain.scopes, List.length_append] at hlength
      exact List.eq_nil_of_length_eq_zero (Nat.succ.inj hlength)
    rw [← h.scopes, Chain.pop, hlocals, List.tail_nil, ← hlocals]
  nested := h.nested
  active := by
    have hzero := (h.active 0).mp (active_zero xs)
    intro s
    rw [active_pop]
    constructor
    · rintro (rfl | ⟨hs, -⟩)
      · exact hzero
      · exact (h.active s).mp hs
    · intro hs
      rw [List.map_singleton, List.mem_singleton] at hs hzero
      exact .inl (hs.trans hzero.symm)
  values := by
    intro e he name v
    rw [lastWrite_quiet (by simp [Step.Writes])]
    exact h.values e he name v

theorem pop_local (h : Tells xs c (e :: es)) (hes : es ≠ []) : Tells (xs ++ [.pop]) c.pop es where
  scopes := by
    have hlength : 1 < c.scopes.length := by
      rw [h.scopes, List.length_map, List.length_cons]
      exact Nat.succ_lt_succ (List.length_pos_of_ne_nil hes)
    obtain ⟨t, ht⟩ := exists_scopes_pop hlength
    exact List.tail_eq_of_cons_eq (ht.symm.trans h.scopes)
  nested := h.nested.of_cons
  active := by
    have hbelow := (List.pairwise_cons.mp h.nested).1
    have mem_of_active {s : Nat} (hs : Active xs s) (hne : s ≠ e.1) : s ∈ es.map (·.1) :=
      (List.mem_cons.mp ((h.active s).mp hs)).resolve_left hne
    intro s
    rw [active_pop]
    constructor
    · rintro (rfl | ⟨hs, hcurrent⟩)
      · obtain ⟨f, hf⟩ := List.exists_mem_of_ne_nil es hes
        exact mem_of_active (active_zero xs) (Nat.ne_of_lt (Nat.zero_lt_of_lt (hbelow f hf)))
      · exact mem_of_active hs fun heq => hcurrent (heq ▸ h.current)
    · intro hs
      refine .inr ⟨(h.active s).mpr (List.mem_cons_of_mem _ hs), fun hcurrent => ?_⟩
      obtain ⟨f, hf, rfl⟩ := List.mem_map.mp hs
      have hle := hcurrent.2 e.1 (h.active_of_mem List.mem_cons_self)
      exact absurd (hbelow f hf) (Nat.not_lt_of_le hle)
  values := by
    intro f hf name v
    rw [lastWrite_quiet (by simp [Step.Writes])]
    exact h.values f (List.mem_cons_of_mem _ hf) name v

theorem ne_nil (h : Tells xs c es) : es ≠ [] := by
  rintro rfl
  cases (h.active 0).mp (active_zero xs)

theorem exists_pop (h : Tells xs c es) : ∃ es', Tells (xs ++ [.pop]) c.pop es' := by
  obtain ⟨e, outer, rfl⟩ := List.exists_cons_of_ne_nil h.ne_nil
  by_cases houter : outer = []
  · subst houter
    exact ⟨[e], h.pop_global⟩
  · exact ⟨outer, h.pop_local houter⟩

theorem write (h : Tells xs c (inner ++ e :: outer)) (hpush : step ≠ .push) (hpop : step ≠ .pop)
    (hstep : ∀ s m w, step.Writes xs s m w ↔ s = e.1 ∧ m = name ∧ w = v)
    (hd : d.scopes = inner.map (·.2) ++ e.2.define name v :: outer.map (·.2)) :
    Tells (xs ++ [step]) d (inner ++ (e.1, e.2.define name v) :: outer) where
  scopes := by rw [hd, List.map_append, List.map_cons]
  nested := by
    have hold : ((inner ++ e :: outer).map (·.1)).Pairwise (· > ·) :=
      List.pairwise_map.mpr h.nested
    have hnew : ((inner ++ (e.1, e.2.define name v) :: outer).map (·.1)).Pairwise (· > ·) := by
      rwa [List.map_append, List.map_cons] at hold ⊢
    exact List.pairwise_map.mp hnew
  active := by
    intro s
    rw [active_concat_of_ne hpush hpop, h.active]
    simp
  values := by
    obtain ⟨-, htail, hbetween⟩ := List.pairwise_append.mp h.nested
    -- The step writes nothing in another scope.
    have other {f : Nat × Scope} (hf : f ∈ inner ++ e :: outer) (hne : f.1 ≠ e.1) (m : String)
        (w : Value) : f.2.get? m = some w ↔ LastWrite (xs ++ [step]) f.1 m w := by
      rw [lastWrite_concat, h.values f hf m w]
      simp [hstep, hne]
    intro f hf m w
    rcases List.mem_append.mp hf with hf | hf
    · have hlt := hbetween f hf e List.mem_cons_self
      exact other (List.mem_append_left _ hf) (Nat.ne_of_gt hlt) m w
    rcases List.mem_cons.mp hf with rfl | hf
    · have hold := h.values e (List.mem_append_right _ List.mem_cons_self) m w
      by_cases hm : m = name
      · subst hm
        rw [Scope.get?_define_self, lastWrite_concat]
        simp [hstep, eq_comm]
      · rw [Scope.get?_define_of_ne _ hm, hold, lastWrite_concat]
        simp [hstep, hm]
    · have hlt := (List.pairwise_cons.mp htail).1 f hf
      exact other (List.mem_append_right _ (List.mem_cons_of_mem _ hf)) (Nat.ne_of_lt hlt) m w

theorem quiet (h : Tells xs c es) (hpush : step ≠ .push) (hpop : step ≠ .pop)
    (hstep : ∀ s m w, ¬ step.Writes xs s m w) : Tells (xs ++ [step]) c es where
  scopes := h.scopes
  nested := h.nested
  active := by
    intro s
    rw [active_concat_of_ne hpush hpop]
    exact h.active s
  values := by
    intro e he name v
    rw [lastWrite_quiet hstep]
    exact h.values e he name v

theorem define (h : Tells xs c es) (name : String) (v : Value) :
    ∃ es', Tells (xs ++ [.define name v]) (c.define name v) es' := by
  obtain ⟨e, outer, rfl⟩ := List.exists_cons_of_ne_nil h.ne_nil
  obtain ⟨t, rest, hc, hdefine⟩ := scopes_define c name v
  obtain ⟨rfl, rfl⟩ := List.cons_eq_cons.mp (hc.symm.trans h.scopes)
  have hstep : ∀ s m w, (Step.define name v).Writes xs s m w ↔ s = e.1 ∧ m = name ∧ w = v := by
    intro s m w
    constructor
    · rintro (⟨hdef, hs⟩ | ⟨hassign, -⟩)
      · cases hdef
        exact ⟨hs.unique h.current, rfl, rfl⟩
      · cases hassign
    · rintro ⟨rfl, rfl, rfl⟩
      exact .inl ⟨rfl, h.current⟩
  have hes : Tells xs c ([] ++ e :: outer) := h
  exact ⟨_, hes.write nofun nofun hstep hdefine⟩

theorem assign (h : Tells xs c es) (name : String) (v : Value) :
    ∃ es', Tells (xs ++ [.assign name v]) (c.step (.assign name v)) es' := by
  have hpush : Step.assign name v ≠ .push := by simp
  have hpop : Step.assign name v ≠ .pop := by simp
  cases hassign : c.assign? name v with
  | some d =>
    obtain ⟨inner, t, outer, hnear, hd⟩ := assign?_eq_some_iff.mp hassign
    obtain ⟨inner, e, outer, rfl, rfl, rfl, rfl⟩ := h.exists_split hnear
    have hinner := h.innermost_iff.mpr hnear
    have hstep : ∀ s m w, (Step.assign name v).Writes xs s m w ↔ s = e.1 ∧ m = name ∧ w = v := by
      intro s m w
      constructor
      · rintro (⟨hdef, -⟩ | ⟨hassign, hs⟩)
        · cases hdef
        · cases hassign
          exact ⟨hs.unique hinner, rfl, rfl⟩
      · rintro ⟨rfl, rfl, rfl⟩
        exact .inr ⟨rfl, hinner⟩
    rw [step, hassign]
    exact ⟨_, h.write hpush hpop hstep hd⟩
  | none =>
    have hunbound := assign?_eq_none_iff.mp hassign
    rw [step, hassign]
    refine ⟨es, h.quiet hpush hpop ?_⟩
    rintro s m w (⟨hdef, -⟩ | ⟨hassign, hs⟩)
    · cases hdef
    · cases hassign
      obtain ⟨e, he, rfl⟩ := List.mem_map.mp ((h.active s).mp hs.1.1)
      have hnone := hunbound e.2 (h.scopes ▸ List.mem_map_of_mem he)
      rw [(h.contains_iff he).mpr hs.1.2] at hnone
      cases hnone

end Tells

/-- At any time the scopes of the chain have the names and values of the history. -/
theorem exists_tells (xs : List Step) : ∃ es, Tells xs (after xs) es := by
  induction xs using List.reverseRecOn with
  | nil => exact ⟨_, .initial⟩
  | append_singleton xs s ih =>
    obtain ⟨es, hes⟩ := ih
    rw [after_concat]
    cases s with
    | push => exact ⟨_, hes.push⟩
    | pop => exact hes.exists_pop
    | define name v => exact hes.define name v
    | assign name v => exact hes.assign name v

end Lox.Chain
