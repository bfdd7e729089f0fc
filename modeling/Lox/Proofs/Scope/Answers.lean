import Lox.Proofs.Scope.History

/-!
# What a client sees of the scopes

* `Chain.get?_after_eq_some_iff`, `Chain.global?_after_eq_some_iff`: the answers to a name;
* `Chain.Spares`: steps that leave none of the scopes that were there before them
  (`defined_append_iff`: the names that these scopes then have);
* `Chain.answers_by_history`: all that a client can ask for, told by the steps alone.
-/

namespace Lox.Chain

variable {xs ys zs : List Step} {c d : Chain} {es es' inner outer : List (Nat × Scope)}
  {s t i : Nat} {name : String} {v : Value}

/-! ## Answers -/

theorem get?_after_eq_some_iff : (after xs).get? name = some v ↔
    ∃ s, Innermost xs s name ∧ LastWrite xs s name v := by
  obtain ⟨es, hes⟩ := exists_tells xs
  rw [get?_eq_some_iff]
  constructor
  · rintro ⟨before, t, behind, hnear, ht⟩
    obtain ⟨inner, e, outer, rfl, rfl, rfl, rfl⟩ := hes.exists_split hnear
    have hmem : e ∈ inner ++ e :: outer := List.mem_append_right _ List.mem_cons_self
    exact ⟨e.1, hes.innermost_iff.mpr hnear, (hes.values e hmem name v).mp ht⟩
  · rintro ⟨s, hinner, hlast⟩
    obtain ⟨e, he, rfl⟩ := List.mem_map.mp ((hes.active s).mp hinner.1.1)
    obtain ⟨inner, outer, rfl⟩ := List.append_of_mem he
    exact ⟨_, e.2, _, hes.innermost_iff.mp hinner, (hes.values e he name v).mpr hlast⟩

theorem isSome_get?_after_iff : ((after xs).get? name).isSome = true ↔
    ∃ s, Active xs s ∧ Defined xs s name := by
  obtain ⟨es, hes⟩ := exists_tells xs
  have hsome : ((after xs).get? name).isSome = true ↔ ∃ e ∈ es, e.2.contains name = true := by
    rw [← not_iff_not, Bool.not_eq_true, Option.isSome_eq_false_iff, Option.isNone_iff_eq_none,
      get?_eq_none_iff_unbound, Unbound, hes.scopes, List.forall_mem_map]
    simp
  rw [hsome]
  constructor
  · rintro ⟨e, he, hhas⟩
    exact ⟨e.1, hes.active_of_mem he, (hes.contains_iff he).mp hhas⟩
  · rintro ⟨s, hs, hdefined⟩
    obtain ⟨e, he, rfl⟩ := List.mem_map.mp ((hes.active s).mp hs)
    exact ⟨e, he, (hes.contains_iff he).mpr hdefined⟩

/-- The global scope is the last one, and has the number 0. -/
theorem Tells.global_mem (h : Tells xs c es) : (0, c.globals) ∈ es := by
  obtain ⟨init, rest, rfl, -, hrest⟩ := List.map_eq_append_iff.mp h.scopes.symm
  obtain ⟨last, tail, rfl, hlast, htail⟩ := List.map_eq_cons_iff.mp hrest
  obtain rfl := List.map_eq_nil_iff.mp htail
  obtain ⟨-, -, hbetween⟩ := List.pairwise_append.mp h.nested
  obtain ⟨e, he, hzero⟩ := List.mem_map.mp ((h.active 0).mp (active_zero xs))
  rcases List.mem_append.mp he with hinit | hsingle
  · have hlt := hbetween e hinit last List.mem_cons_self
    rw [hzero] at hlt
    exact absurd hlt (Nat.not_lt_zero _)
  · rw [List.mem_singleton] at hsingle
    subst hsingle
    rwa [← hlast, ← hzero]

theorem global?_after_eq_some_iff :
    (after xs).global? name = some v ↔ LastWrite xs 0 name v := by
  obtain ⟨es, hes⟩ := exists_tells xs
  exact hes.values _ hes.global_mem name v

theorem isSome_global?_after_iff :
    ((after xs).global? name).isSome = true ↔ Defined xs 0 name := by
  obtain ⟨es, hes⟩ := exists_tells xs
  exact hes.contains_iff hes.global_mem

/-! ## Steps that spare the scopes before them -/

/-- The steps `ys`, taken after `xs`, leave none of the scopes that were there before them. -/
def Spares (xs ys : List Step) : Prop :=
  ∀ zs, zs <+: ys → (after xs).depth ≤ (after (xs ++ zs)).depth

theorem Spares.mono (h : Spares xs ys) (hz : zs <+: ys) : Spares xs zs :=
  fun _ hw => h _ (hw.trans hz)

theorem Balanced.spares (h : Balanced ys) (xs : List Step) : Spares xs ys := by
  intro zs hz
  rw [depth_after, depth_after]
  exact Nat.succ_le_succ ((h.1.mono hz).height_le xs)

theorem Balanced.depth_append (h : Balanced ys) (xs : List Step) :
    (after (xs ++ ys)).depth = (after xs).depth := by
  have heq := h.1.height_append xs
  rw [h.2] at heq
  rw [depth_after, depth_after, Nat.add_right_cancel heq]

/-- Above the global scope, where a pop leaves nothing, steps that spare the scopes hold. -/
theorem Spares.holds (h : Spares xs ys) (hxs : height xs ≠ 0) : Holds ys := by
  induction ys using List.reverseRecOn with
  | nil => exact holds_nil
  | append_singleton ys s ih =>
    have hys := ih (h.mono (List.prefix_append ..))
    refine holds_concat.mpr ⟨hys, ?_⟩
    rintro rfl
    have hle := h _ List.prefix_rfl
    rw [depth_after, depth_after, ← List.append_assoc, height_pop] at hle
    have heq := hys.height_append xs
    omega

theorem Active.append (h : Active xs s) (hs : Spares xs ys) : Active (xs ++ ys) s := by
  rcases h with rfl | ⟨i, rfl, hi⟩
  · exact active_zero _
  · have hpos : height xs ≠ 0 := by
      have hlt := hi.height_lt hi.lt
      rw [List.take_length] at hlt
      exact Nat.ne_zero_of_lt hlt
    exact .inr ⟨i, rfl, hi.append (hs.holds hpos)⟩

theorem unmatched_of_append (h : Unmatched (xs ++ ys) i) (hi : i < xs.length) :
    Unmatched xs i := by
  obtain ⟨hget, hholds⟩ := (unmatched_append_of_lt hi).mp h
  exact ⟨hget, hholds.mono (List.prefix_append ..)⟩

theorem active_of_append (h : Active (xs ++ ys) s) (hs : s ≤ xs.length) : Active xs s := by
  rcases h with rfl | ⟨i, rfl, hi⟩
  · exact active_zero xs
  · exact .inr ⟨i, rfl, unmatched_of_append hi hs⟩

/-- An earlier scope is the innermost one when it was so before and the depth is the same. -/
theorem current_append_iff (hz : Spares xs zs) (h : Active xs s) : Current (xs ++ zs) s ↔
    Current xs s ∧ (after (xs ++ zs)).depth = (after xs).depth := by
  have hsub : {i | Unmatched xs i} ⊆ {i | Unmatched (xs ++ zs) i} := by
    intro i hi
    rcases Active.append (.inr ⟨i, rfl, hi⟩) hz with h | ⟨j, hj, hu⟩
    · cases h
    · cases hj
      exact hu
  rw [depth_after, depth_after, Nat.add_right_cancel_iff, ← ncard_unmatched, ← ncard_unmatched]
  constructor
  · rintro ⟨-, hlast⟩
    refine ⟨⟨h, fun t ht => hlast t (ht.append hz)⟩, ?_⟩
    have hsup : {i | Unmatched (xs ++ zs) i} ⊆ {i | Unmatched xs i} := by
      intro i hi
      have hle := hlast (i + 1) (.inr ⟨i, rfl, hi⟩)
      have hlt := h.le
      exact unmatched_of_append hi (by omega)
    rw [Set.Subset.antisymm hsup hsub]
  · rintro ⟨⟨-, hlast⟩, hcard⟩
    have hfinite : {i | Unmatched (xs ++ zs) i}.Finite :=
      (Set.finite_Iio (xs ++ zs).length).subset fun i hi => Unmatched.lt hi
    have hsame := Set.eq_of_subset_of_ncard_le hsub (Nat.le_of_eq hcard) hfinite
    refine ⟨h.append hz, ?_⟩
    rintro t (rfl | ⟨i, rfl, hi⟩)
    · exact Nat.zero_le s
    · have hi : i ∈ {i | Unmatched xs i} := hsame ▸ hi
      exact hlast (i + 1) (.inr ⟨i, rfl, hi⟩)

/-- An earlier scope has gained the names that were defined at the depth of the start, if it was
the innermost one there. -/
theorem defined_append_iff (hy : Spares xs ys) (h : Active xs s) : Defined (xs ++ ys) s name ↔
    Defined xs s name ∨ Current xs s ∧ ∃ i v, ys[i]? = some (.define name v) ∧
      (after (xs ++ ys.take i)).depth = (after xs).depth := by
  constructor
  · rintro ⟨i, v, hget, hcurrent⟩
    rcases Nat.lt_or_ge i xs.length with hi | hi
    · rw [List.getElem?_append_left hi] at hget
      rw [List.take_append_of_le_length (Nat.le_of_lt hi)] at hcurrent
      exact .inl ⟨i, v, hget, hcurrent⟩
    · obtain ⟨j, rfl⟩ := Nat.exists_eq_add_of_le hi
      rw [List.getElem?_append_right hi, Nat.add_sub_cancel_left] at hget
      rw [List.take_length_add_append] at hcurrent
      have hspares := hy.mono (List.take_prefix j ys)
      obtain ⟨hbefore, hdepth⟩ := (current_append_iff hspares h).mp hcurrent
      exact .inr ⟨hbefore, j, v, hget, hdepth⟩
  · rintro (⟨i, v, hget, hcurrent⟩ | ⟨hcurrent, j, v, hget, hdepth⟩)
    · have hi := (List.getElem?_eq_some_iff.mp hget).1
      refine ⟨i, v, ?_, ?_⟩
      · rwa [List.getElem?_append_left hi]
      · rwa [List.take_append_of_le_length (Nat.le_of_lt hi)]
    · have hspares := hy.mono (List.take_prefix j ys)
      refine ⟨xs.length + j, v, ?_, ?_⟩
      · rwa [List.getElem?_append_right (Nat.le_add_right ..), Nat.add_sub_cancel_left]
      · rw [List.take_length_add_append]
        exact (current_append_iff hspares h).mpr ⟨hcurrent, hdepth⟩

/-- The scopes before the steps are the outermost ones after them. -/
theorem Tells.exists_append (h : Tells xs c es) (h' : Tells (xs ++ ys) d es')
    (hy : Spares xs ys) :
    ∃ new old, es' = new ++ old ∧ old.map (·.1) = es.map (·.1) := by
  have hle {s : Nat} (hs : s ∈ es.map (·.1)) : s ≤ xs.length := ((h.active s).mpr hs).le
  -- Both sides are the active scopes, the youngest first.
  have hids : es'.map (·.1) = (es'.map (·.1)).filter (xs.length < ·) ++ es.map (·.1) := by
    have hnested : (es.map (·.1)).Pairwise (· > ·) := List.pairwise_map.mpr h.nested
    have hnested' : (es'.map (·.1)).Pairwise (· > ·) := List.pairwise_map.mpr h'.nested
    have hjoined : ((es'.map (·.1)).filter (xs.length < ·) ++ es.map (·.1)).Pairwise (· > ·) := by
      refine List.pairwise_append.mpr ⟨hnested'.filter _, hnested, fun s hs t ht => ?_⟩
      have hlt := of_decide_eq_true (List.mem_filter.mp hs).2
      exact Nat.lt_of_le_of_lt (hle ht) hlt
    refine List.Perm.eq_of_pairwise (fun a b _ _ h₁ h₂ => by omega) hnested' hjoined ?_
    have hnodup : (es'.map (·.1)).Nodup := hnested'.imp Nat.ne_of_gt
    refine (List.perm_ext_iff_of_nodup hnodup (hjoined.imp Nat.ne_of_gt)).mpr ?_
    intro s
    rw [List.mem_append, List.mem_filter, decide_eq_true_iff]
    constructor
    · intro hs
      rcases Nat.lt_or_ge xs.length s with hlt | hge
      · exact .inl ⟨hs, hlt⟩
      · exact .inr ((h.active s).mp (active_of_append ((h'.active s).mpr hs) hge))
    · rintro (⟨hs, -⟩ | hs)
      · exact hs
      · exact (h'.active s).mp (((h.active s).mpr hs).append hy)
  obtain ⟨new, old, rfl, -, hold⟩ := List.map_eq_append_iff.mp hids
  exact ⟨new, old, rfl, hold⟩

/-- The scopes that were there before the steps have the names that they had, but for the innermost
of them, which has gained the names that were defined at the depth of the start. -/
theorem Spares.names (hy : Spares xs ys) : ∃ inner s outer t behind,
    (after xs).scopes = s :: outer ∧ (after (xs ++ ys)).scopes = inner ++ t :: behind ∧
    (∀ name, t.contains name = true ↔ s.contains name = true ∨
      ∃ i v, ys[i]? = some (.define name v) ∧
        (after (xs ++ ys.take i)).depth = (after xs).depth) ∧
    outer.Forall₂ (fun s t => ∀ name, s.contains name = t.contains name) behind := by
  obtain ⟨es, hes⟩ := exists_tells xs
  obtain ⟨es', hes'⟩ := exists_tells (xs ++ ys)
  obtain ⟨new, old, rfl, hold⟩ := hes.exists_append hes' hy
  obtain ⟨e, rest, rfl⟩ := List.exists_cons_of_ne_nil hes.ne_nil
  obtain ⟨f, behind, rfl, hf, hbehind⟩ := List.map_eq_cons_iff.mp hold
  refine ⟨new.map (·.2), e.2, rest.map (·.2), f.2, behind.map (·.2), ?_, ?_, ?_, ?_⟩
  · rw [hes.scopes, List.map_cons]
  · rw [hes'.scopes, List.map_append, List.map_cons]
  · intro name
    rw [hes'.contains_iff (List.mem_append_right _ List.mem_cons_self),
      hes.contains_iff List.mem_cons_self, hf,
      defined_append_iff hy (hes.active_of_mem List.mem_cons_self)]
    simp [hes.current]
  · rw [List.forall₂_map_left_iff, List.forall₂_map_right_iff, List.forall₂_iff_get]
    have hlength := congrArg List.length hbehind
    rw [List.length_map, List.length_map] at hlength
    refine ⟨hlength.symm, fun i hi hi' name => ?_⟩
    have hid : behind[i].1 = rest[i].1 := by
      have hget := congrArg (·[i]?) hbehind
      simpa [hi, hi'] using hget
    have hmem : rest[i] ∈ e :: rest := List.mem_cons_of_mem _ (List.getElem_mem hi)
    have hmem' : behind[i] ∈ new ++ f :: behind :=
      List.mem_append_right _ (List.mem_cons_of_mem _ (List.getElem_mem hi'))
    have hbelow : rest[i].1 < e.1 :=
      (List.pairwise_cons.mp hes.nested).1 _ (List.getElem_mem hi)
    have hcurrent : ¬ Current xs rest[i].1 := fun h =>
      absurd (h.unique hes.current) (Nat.ne_of_lt hbelow)
    rw [Bool.eq_iff_iff]
    show rest[i].2.contains name = true ↔ behind[i].2.contains name = true
    rw [hes.contains_iff hmem, hes'.contains_iff hmem', hid,
      defined_append_iff hy (hes.active_of_mem hmem)]
    simp [hcurrent]

/-! ## All that a client can ask for -/

/-- The chain answers by the history of the steps that made it: a name has a value when an active
scope defines it, and then the latest in the innermost such scope; the global scope answers in the
same way for itself; an assignment succeeds for the names that have a value, and otherwise changes
nothing; the depth counts the scopes that are entered and not left. Steps that spare the scopes
before them, as all balanced ones do, add names to the innermost of these at most. -/
theorem answers_by_history (xs : List Step) :
    (∀ name, ((after xs).get? name).isSome = true ↔ ∃ s, Active xs s ∧ Defined xs s name) ∧
    (∀ name v, (after xs).get? name = some v ↔
      ∃ s, Innermost xs s name ∧ LastWrite xs s name v) ∧
    (∀ name, ((after xs).global? name).isSome = true ↔ Defined xs 0 name) ∧
    (∀ name v, (after xs).global? name = some v ↔ LastWrite xs 0 name v) ∧
    (∀ name v, ((after xs).assign? name v).isSome = ((after xs).get? name).isSome) ∧
    (∀ name v, (after xs).get? name = none → after (xs ++ [.assign name v]) = after xs) ∧
    (after xs).depth = 1 + {i | Unmatched xs i}.ncard ∧
    ((after xs).depth = 1 → after (xs ++ [.pop]) = after xs) ∧
    (∀ ys, Balanced ys → Spares xs ys ∧ (after (xs ++ ys)).depth = (after xs).depth) ∧
    ∀ ys, Spares xs ys → ∃ inner s outer t behind,
      (after xs).scopes = s :: outer ∧ (after (xs ++ ys)).scopes = inner ++ t :: behind ∧
      (∀ name, t.contains name = true ↔ s.contains name = true ∨
        ∃ i v, ys[i]? = some (.define name v) ∧
          (after (xs ++ ys.take i)).depth = (after xs).depth) ∧
      outer.Forall₂ (fun s t => ∀ name, s.contains name = t.contains name) behind := by
  refine ⟨fun _ => isSome_get?_after_iff, fun _ _ => get?_after_eq_some_iff,
    fun _ => isSome_global?_after_iff, fun _ _ => global?_after_eq_some_iff,
    fun name v => isSome_assign? _ name v, ?_, ?_, ?_,
    fun ys h => ⟨h.spares xs, h.depth_append xs⟩, fun _ => Spares.names⟩
  · intro name v hnone
    rw [after_concat, step, assign?_eq_none_iff.mpr (get?_eq_none_iff_unbound.mp hnone)]
    rfl
  · rw [depth_after, ncard_unmatched, Nat.add_comm]
  · intro hdepth
    have hlocals : (after xs).locals = [] :=
      List.eq_nil_of_length_eq_zero (Nat.succ.inj hdepth)
    rw [after_concat, step, pop, hlocals, List.tail_nil, ← hlocals]

end Lox.Chain
