import Lox.Proofs.Eval.Rules

/-!
# Operators and scopes meet the rules

* `UnaryOp.gives_iff`, `BinaryOp.gives_iff`, `LogicalOp.decides_iff`: operators;
* `Chain.get?_eq_some_iff`, `Chain.get?_eq_none_iff_unbound`, `Chain.assign?_eq_some_iff`,
  `Chain.assign?_eq_none_iff`: the nearest scope answers for a name;
* `Chain.binds_iff`, `Chain.pop_of_scopes`, `Chain.exists_scopes_pop`: the innermost scope.
-/

namespace Lox

open Eval (Fault)

/-! ## Values and operators -/

namespace Value

variable {v w : Value}

theorem truthy_eq_false_iff : v.truthy = false ↔ v.Falsy := by
  cases v with
  | bool b => cases b <;> simp [truthy, Falsy]
  | _ => simp [truthy, Falsy]

theorem truthy_iff : v.truthy = true ↔ ¬ v.Falsy := by
  rw [← truthy_eq_false_iff, Bool.not_eq_false]

theorem not_truthy_iff : ¬ v.truthy = true ↔ v.Falsy := by
  rw [Bool.not_eq_true, truthy_eq_false_iff]

theorem equals_iff : v.equals w = true ↔ v.Equal w := by
  constructor
  · intro h
    cases v <;> cases w <;> simp only [equals, beq_iff_eq, Bool.false_eq_true] at h
    · exact .nil
    · subst h
      exact .bool _
    · exact .number h
    · subst h
      exact .string _
  · rintro (_ | b | h | s)
    · rfl
    · simp
    · exact h
    · simp

theorem equals_eq_false_iff : v.equals w = false ↔ ¬ v.Equal w := by
  rw [← equals_iff, Bool.not_eq_true]

theorem numbers_or (v w : Value) :
    (∃ x y, v = .number x ∧ w = .number y) ∨ v.NotNumbers w := by
  by_cases h : ∃ x y, v = .number x ∧ w = .number y
  · exact .inl h
  · exact .inr fun x y hxy => h ⟨x, y, hxy⟩

theorem strings_or (v w : Value) :
    (∃ s t, v = .string s ∧ w = .string t) ∨ v.NotStrings w := by
  by_cases h : ∃ s t, v = .string s ∧ w = .string t
  · exact .inl h
  · exact .inr fun s t hst => h ⟨s, t, hst⟩

end Value

theorem UnaryOp.gives_iff {op : UnaryOp} {v : Value} {r : Except Fault Value} :
    op.Gives v r ↔ op.apply v = r := by
  constructor
  · rintro (x | h | h | h)
    · rfl
    · cases v with
      | number x => exact absurd rfl (h x)
      | _ => rfl
    · rw [apply, Value.truthy_eq_false_iff.mpr h]
      rfl
    · rw [apply, Value.truthy_iff.mpr h]
      rfl
  · rintro rfl
    cases op with
    | not =>
      rw [apply]
      cases ht : v.truthy with
      | true => exact .notTruthy (Value.truthy_iff.mp ht)
      | false => exact .notFalsy (Value.truthy_eq_false_iff.mp ht)
    | negate =>
      cases v with
      | number x => exact .negate x
      | _ => exact .negateOther nofun

namespace BinaryOp

variable {op : BinaryOp} {v w : Value} {r : Except Fault Value}

theorem onNumbers_of_notNumbers (h : v.NotNumbers w) (f : Float → Float → Value) :
    onNumbers f v w = .error .operandsNotNumbers := by
  unfold onNumbers
  split
  · exact absurd ⟨rfl, rfl⟩ (h _ _)
  · rfl

theorem gives_onNumbers {f : Float → Float → Value} (hop : op ∉ [.add, .equal, .notEqual])
    (hf : ∀ x y, op.OfNumbers x y (f x y)) (v w : Value) : op.Gives v w (onNumbers f v w) := by
  rcases v.numbers_or w with ⟨x, y, rfl, rfl⟩ | h
  · exact .numbers (hf x y)
  · rw [onNumbers_of_notNumbers h]
    exact .notNumbers hop h

theorem add_of_other (hn : v.NotNumbers w) (hs : v.NotStrings w) :
    add.apply v w = .error .operandsNotAddable := by
  unfold apply
  split <;> try contradiction
  · exact absurd ⟨rfl, rfl⟩ (hn _ _)
  · exact absurd ⟨rfl, rfl⟩ (hs _ _)
  · rfl

theorem apply_of_gives (h : op.Gives v w r) : op.apply v w = r := by
  cases h with
  | addNumbers | addStrings => rfl
  | addOther hn hs => exact add_of_other hn hs
  | numbers h => cases h <;> rfl
  | notNumbers hop hn =>
    cases op <;> first | exact onNumbers_of_notNumbers hn _ | simp at hop
  | equal h => rw [apply, Value.equals_iff.mpr h]
  | equalNot h => rw [apply, Value.equals_eq_false_iff.mpr h]
  | notEqual h =>
    rw [apply, Value.equals_iff.mpr h]
    rfl
  | notEqualNot h =>
    rw [apply, Value.equals_eq_false_iff.mpr h]
    rfl

theorem gives_apply (op : BinaryOp) (v w : Value) : op.Gives v w (op.apply v w) := by
  cases op with
  | add =>
    rcases v.numbers_or w with ⟨x, y, rfl, rfl⟩ | hn
    · exact .addNumbers x y
    rcases v.strings_or w with ⟨s, t, rfl, rfl⟩ | hs
    · exact .addStrings s t
    · rw [add_of_other hn hs]
      exact .addOther hn hs
  | equal =>
    rw [apply]
    cases h : v.equals w with
    | true => exact .equal (Value.equals_iff.mp h)
    | false => exact .equalNot (Value.equals_eq_false_iff.mp h)
  | notEqual =>
    rw [apply]
    cases h : v.equals w with
    | true => exact .notEqual (Value.equals_iff.mp h)
    | false => exact .notEqualNot (Value.equals_eq_false_iff.mp h)
  | subtract => exact gives_onNumbers (by decide) .subtract v w
  | multiply => exact gives_onNumbers (by decide) .multiply v w
  | divide => exact gives_onNumbers (by decide) .divide v w
  | greater => exact gives_onNumbers (by decide) .greater v w
  | greaterEqual => exact gives_onNumbers (by decide) .greaterEqual v w
  | less => exact gives_onNumbers (by decide) .less v w
  | lessEqual => exact gives_onNumbers (by decide) .lessEqual v w

theorem gives_iff : op.Gives v w r ↔ op.apply v w = r := by
  refine ⟨apply_of_gives, ?_⟩
  rintro rfl
  exact gives_apply op v w

end BinaryOp

theorem LogicalOp.decides_iff {op : LogicalOp} {v : Value} :
    op.decides v = true ↔ op.Decided v := by
  cases op with
  | and => rw [decides, Decided, Bool.not_eq_true', Value.truthy_eq_false_iff]
  | or => exact Value.truthy_iff

/-! ## Scopes -/

namespace Chain

variable {c d : Chain} {name : String} {v : Value} {inner outer : List Scope} {s : Scope}

theorem scopes_injective (h : c.scopes = d.scopes) : c = d := by
  obtain ⟨locals, globals⟩ := c
  obtain ⟨locals', globals'⟩ := d
  obtain ⟨hlocals, hglobals⟩ := List.append_inj' h rfl
  exact Chain.mk.injEq .. ▸ ⟨hlocals, List.singleton_inj.mp hglobals⟩

theorem get?_eq_findSome? (c : Chain) (name : String) :
    c.get? name = c.scopes.findSome? (·.get? name) := by
  rw [get?, scopes, List.findSome?_append]
  cases h : c.globals.get? name <;> simp [h]

/-- A name is looked up in the nearest scope that has it. -/
theorem get?_eq_some_iff : c.get? name = some v ↔
    ∃ inner s outer, c.Nearest name inner s outer ∧ s.get? name = some v := by
  rw [get?_eq_findSome?, List.findSome?_eq_some_iff]
  constructor
  · rintro ⟨inner, s, outer, hsplit, hs, hinner⟩
    refine ⟨inner, s, outer, ⟨hsplit, ?_, fun t ht => ?_⟩, hs⟩
    · rw [Scope.contains, hs]
      rfl
    · rw [Scope.contains, hinner t ht]
      rfl
  · rintro ⟨inner, s, outer, ⟨hsplit, -, hinner⟩, hs⟩
    exact ⟨inner, s, outer, hsplit, hs, fun t ht => by simpa [Scope.contains] using hinner t ht⟩

theorem get?_eq_none_iff_unbound : c.get? name = none ↔ c.Unbound name := by
  rw [get?_eq_findSome?, List.findSome?_eq_none_iff]
  simp [Unbound, Scope.contains]

theorem Nearest.takeWhile_eq (h : c.Nearest name inner s outer) :
    c.scopes.takeWhile (fun t => !t.contains name) = inner := by
  rw [h.split, List.takeWhile_append_of_pos fun t ht => by simp [h.passed t ht]]
  simp [h.has]

theorem Nearest.unique {inner' outer' : List Scope} {s' : Scope} (h : c.Nearest name inner s outer)
    (h' : c.Nearest name inner' s' outer') : inner = inner' ∧ s = s' ∧ outer = outer' := by
  have hinner : inner = inner' := h.takeWhile_eq.symm.trans h'.takeWhile_eq
  subst hinner
  have htail := List.append_cancel_left (h.split.symm.trans h'.split)
  exact ⟨rfl, List.cons_eq_cons.mp htail⟩

private theorem nearest_of_assign? (h : c.assign? name v = some d) : ∃ inner s outer,
    c.Nearest name inner s outer ∧ d.scopes = inner ++ s.define name v :: outer := by
  rw [assign?] at h
  cases hi : c.locals.findIdx? (·.contains name) with
  | some i =>
    rw [hi] at h
    cases h
    obtain ⟨hlt, hname, hbefore⟩ := List.findIdx?_eq_some_iff_getElem.mp hi
    refine ⟨c.locals.take i, c.locals[i], c.locals.drop (i + 1) ++ [c.globals],
      ⟨?_, hname, fun t ht => ?_⟩, ?_⟩
    · rw [scopes, ← List.cons_append, ← List.append_assoc, List.getElem_cons_drop,
        List.take_append_drop]
    · obtain ⟨j, hj, rfl⟩ := List.mem_take_iff_getElem.mp ht
      exact Bool.eq_false_iff.mpr (hbefore j (Nat.lt_of_lt_of_le hj (Nat.min_le_left ..)))
    · rw [scopes, List.modify_eq_take_cons_drop hlt, List.append_assoc, List.cons_append]
  | none =>
    rw [hi] at h
    obtain ⟨hname, hd⟩ := Option.ite_none_right_eq_some.mp h
    cases hd
    exact ⟨c.locals, c.globals, [],
      ⟨rfl, hname, fun t ht => by simpa using List.findIdx?_eq_none_iff.mp hi t ht⟩, rfl⟩

theorem Nearest.exists_assign? (h : c.Nearest name inner s outer) (v : Value) :
    ∃ d, c.assign? name v = some d ∧ d.scopes = inner ++ s.define name v :: outer := by
  obtain ⟨w, hw⟩ : ∃ w, s.get? name = some w := Option.isSome_iff_exists.mp h.has
  have hsome : (c.assign? name v).isSome = true := by
    rw [isSome_assign?, get?_eq_some_iff.mpr ⟨inner, s, outer, h, hw⟩]
    rfl
  obtain ⟨d, hd⟩ := Option.isSome_iff_exists.mp hsome
  obtain ⟨inner', s', outer', hnear, hscopes⟩ := nearest_of_assign? hd
  obtain ⟨rfl, rfl, rfl⟩ := h.unique hnear
  exact ⟨d, hd, hscopes⟩

/-- An assignment changes the nearest scope that has the name, and no other. -/
theorem assign?_eq_some_iff : c.assign? name v = some d ↔ ∃ inner s outer,
    c.Nearest name inner s outer ∧ d.scopes = inner ++ s.define name v :: outer := by
  refine ⟨nearest_of_assign?, ?_⟩
  rintro ⟨inner, s, outer, hnear, hd⟩
  obtain ⟨d', hd', hscopes⟩ := hnear.exists_assign? v
  rw [hd', scopes_injective (hscopes.trans hd.symm)]

theorem assign?_eq_none_iff : c.assign? name v = none ↔ c.Unbound name := by
  rw [← get?_eq_none_iff_unbound, ← Option.isNone_iff_eq_none, ← Option.isNone_iff_eq_none,
    ← Option.not_isSome, ← Option.not_isSome, isSome_assign?]

theorem scopes_define (c : Chain) (name : String) (v : Value) : ∃ s outer,
    c.scopes = s :: outer ∧ (c.define name v).scopes = s.define name v :: outer := by
  obtain ⟨locals, globals⟩ := c
  cases locals with
  | nil => exact ⟨globals, [], rfl, rfl⟩
  | cons s rest => exact ⟨s, rest ++ [globals], rfl, rfl⟩

theorem binds_iff : c.Binds name v d ↔ c.define name v = d := by
  obtain ⟨s, outer, hc, hdefine⟩ := scopes_define c name v
  constructor
  · rintro ⟨s', outer', hc', hd⟩
    obtain ⟨rfl, rfl⟩ := List.cons_eq_cons.mp (hc.symm.trans hc')
    exact scopes_injective (hdefine.trans hd.symm)
  · rintro rfl
    exact ⟨s, outer, hc, hdefine⟩

@[simp] theorem scopes_push (c : Chain) : c.push.scopes = {} :: c.scopes := rfl

theorem pop_of_scopes (h : d.scopes = s :: c.scopes) : d.pop = c := by
  have hd : d = { c with locals := s :: c.locals } := scopes_injective h
  rw [hd]
  rfl

theorem exists_scopes_pop (h : 1 < c.scopes.length) : ∃ s, c.scopes = s :: c.pop.scopes := by
  obtain ⟨locals, globals⟩ := c
  cases locals with
  | nil => exact absurd h (Nat.lt_irrefl 1)
  | cons s rest => exact ⟨s, rfl⟩

end Chain

end Lox
