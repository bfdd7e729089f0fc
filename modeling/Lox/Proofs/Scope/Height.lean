import Mathlib.Data.List.Induction
import Mathlib.Data.Set.Card
import Mathlib.Order.Interval.Set.Nat
import Lox.Proofs.Eval.Meets

/-!
# Scopes entered and left

* `Chain.Step`, `Chain.after`: what a client does to the scopes, and the scopes afterwards;
* `Chain.height`: the number of scopes above the global one, told by the steps alone
  (`depth_after`);
* `Chain.Holds`, `Chain.Balanced`: steps that leave no scope but those that they enter, and that
  leave all these (`Holds.height_append`);
* `Chain.Unmatched`: a scope is entered that is not left (`ncard_unmatched`: there are as many as
  the height says).
-/

namespace Lox.Chain

/-- What a client does to the scopes. -/
inductive Step where
  | push
  | pop
  | define (name : String) (v : Value)
  | assign (name : String) (v : Value)
  deriving DecidableEq

/-- An assignment to a name that no scope has changes nothing. -/
def step (c : Chain) : Step → Chain
  | .push => c.push
  | .pop => c.pop
  | .define name v => c.define name v
  | .assign name v => (c.assign? name v).getD c

/-- The scopes after the steps `xs`, of which the earliest stands first. -/
def after (xs : List Step) : Chain := xs.foldl step {}

theorem depth_define (c : Chain) (name : String) (v : Value) :
    (c.define name v).depth = c.depth := by
  rw [define]
  cases h : c.locals with
  | nil => simp only [depth, h]
  | cons t rest => simp only [depth, h, List.length_cons]

theorem after_concat (xs : List Step) (s : Step) : after (xs ++ [s]) = (after xs).step s := by
  rw [after, List.foldl_append]
  rfl

/-- The number of scopes above the global one. -/
def height (xs : List Step) : Nat :=
  xs.foldl (fun h s => match s with | .push => h + 1 | .pop => h - 1 | _ => h) 0

@[simp] theorem height_nil : height [] = 0 := rfl

theorem height_push (xs : List Step) : height (xs ++ [.push]) = height xs + 1 := by
  simp [height]

theorem height_pop (xs : List Step) : height (xs ++ [.pop]) = height xs - 1 := by
  simp [height]

theorem height_define (xs : List Step) (name : String) (v : Value) :
    height (xs ++ [.define name v]) = height xs := by
  simp [height]

theorem height_assign (xs : List Step) (name : String) (v : Value) :
    height (xs ++ [.assign name v]) = height xs := by
  simp [height]

theorem depth_after (xs : List Step) : (after xs).depth = height xs + 1 := by
  induction xs using List.reverseRecOn with
  | nil => rfl
  | append_singleton xs s ih =>
    rw [after_concat]
    cases s with
    | push => rw [step, depth_push, ih, height_push]
    | pop =>
      have hlocals : (after xs).locals.length = height xs := Nat.succ.inj ih
      rw [step, pop, depth, height_pop, List.length_tail, hlocals]
    | define name v =>
      rw [step, depth_define, ih, height_define]
    | assign name v =>
      rw [height_assign, ← ih, step]
      cases h : (after xs).assign? name v with
      | none => rfl
      | some d => exact depth_of_assign? h

/-! ## Steps that leave what they enter -/

/-- The steps leave no scope that was there before them. -/
def Holds (ys : List Step) : Prop := ∀ zs, zs <+: ys → zs.count .pop ≤ zs.count .push

/-- The steps leave the scopes that they enter, and no others. -/
def Balanced (ys : List Step) : Prop := Holds ys ∧ ys.count .pop = ys.count .push

variable {xs ys zs : List Step} {s : Step} {i j : Nat}

theorem holds_nil : Holds [] := by
  intro zs h
  rw [List.prefix_nil.mp h]
  exact Nat.le_refl _

theorem Holds.mono (h : Holds ys) (hz : zs <+: ys) : Holds zs :=
  fun _ hw => h _ (hw.trans hz)

theorem holds_concat : Holds (ys ++ [s]) ↔
    Holds ys ∧ (s = .pop → ys.count .pop < ys.count .push) := by
  constructor
  · intro h
    refine ⟨h.mono (List.prefix_append ys [s]), ?_⟩
    rintro rfl
    have hall := h _ List.prefix_rfl
    simpa [List.count_append] using hall
  · rintro ⟨h, hpop⟩ zs hz
    rcases List.prefix_concat_iff.mp hz with rfl | hz
    · have hle := h ys List.prefix_rfl
      cases s with
      | pop =>
        have hlt := hpop rfl
        simpa [List.count_append] using hlt
      | push =>
        rw [List.count_append, List.count_append]
        show ys.count .pop + 0 ≤ ys.count .push + 1
        omega
      | define name v | assign name v => simpa [List.count_append] using hle
    · exact h zs hz

theorem holds_singleton (h : s ≠ .pop) : Holds [s] :=
  holds_concat.mpr ⟨holds_nil, fun hs => absurd hs h⟩

/-- Steps that hold change the height by the scopes entered and left. -/
theorem Holds.height_append (h : Holds ys) (xs : List Step) :
    height (xs ++ ys) + ys.count .pop = height xs + ys.count .push := by
  induction ys using List.reverseRecOn with
  | nil => simp
  | append_singleton ys s ih =>
    obtain ⟨hys, hpop⟩ := holds_concat.mp h
    have heq := ih hys
    rw [← List.append_assoc, List.count_append, List.count_append]
    cases s with
    | push =>
      rw [height_push]
      show _ + (ys.count .pop + 0) = _ + (ys.count .push + 1)
      omega
    | pop =>
      have hlt := hpop rfl
      rw [height_pop]
      show _ + (ys.count .pop + 1) = _ + (ys.count .push + 0)
      omega
    | define name v =>
      rw [height_define]
      simpa using heq
    | assign name v =>
      rw [height_assign]
      simpa using heq

theorem Holds.height_le (h : Holds ys) (xs : List Step) : height xs ≤ height (xs ++ ys) := by
  have heq := h.height_append xs
  have hle := h ys List.prefix_rfl
  omega

theorem Holds.append (hy : Holds ys) (hz : Holds zs) : Holds (ys ++ zs) := by
  induction zs using List.reverseRecOn with
  | nil => rwa [List.append_nil]
  | append_singleton zs s ih =>
    obtain ⟨hinit, hpop⟩ := holds_concat.mp hz
    rw [← List.append_assoc]
    refine holds_concat.mpr ⟨ih hinit, fun hs => ?_⟩
    have hlt := hpop hs
    have hle := hy ys List.prefix_rfl
    rw [List.count_append, List.count_append]
    omega

/-! ## Scopes that are not left -/

/-- The step at `i` enters a scope that is not left. -/
def Unmatched (xs : List Step) (i : Nat) : Prop :=
  xs[i]? = some .push ∧ Holds (xs.drop (i + 1))

theorem Unmatched.lt (h : Unmatched xs i) : i < xs.length :=
  (List.getElem?_eq_some_iff.mp h.1).1

theorem Unmatched.split (h : Unmatched xs i) : xs = xs.take i ++ .push :: xs.drop (i + 1) := by
  obtain ⟨hi, hget⟩ := List.getElem?_eq_some_iff.mp h.1
  rw [← hget, List.getElem_cons_drop, List.take_append_drop]

theorem Unmatched.height_append (h : Unmatched xs i) : height xs + (xs.drop (i + 1)).count .pop =
    height (xs.take i) + 1 + (xs.drop (i + 1)).count .push := by
  have heq := h.2.height_append (xs.take i ++ [.push])
  rwa [height_push, List.append_assoc, List.singleton_append, ← h.split] at heq

theorem Unmatched.height_lt (h : Unmatched xs i) (hij : i < j) :
    height (xs.take i) < height (xs.take j) := by
  have hpush : xs.take (i + 1) = xs.take i ++ [.push] := by
    rw [List.take_add_one, h.1]
    rfl
  have hle := (h.2.mono (List.take_prefix (j - (i + 1)) _)).height_le (xs.take (i + 1))
  rw [← List.take_add, Nat.add_sub_of_le hij, hpush, height_push] at hle
  exact hle

theorem not_unmatched_nil : ¬ Unmatched [] i := by
  intro h
  exact absurd h.lt (Nat.not_lt_zero i)

theorem unmatched_append_of_lt (h : i < xs.length) :
    Unmatched (xs ++ ys) i ↔ xs[i]? = some .push ∧ Holds (xs.drop (i + 1) ++ ys) := by
  rw [Unmatched, List.getElem?_append_left h, List.drop_append_of_le_length h]

theorem Unmatched.append (h : Unmatched xs i) (hy : Holds ys) : Unmatched (xs ++ ys) i :=
  (unmatched_append_of_lt h.lt).mpr ⟨h.1, h.2.append hy⟩

theorem unmatched_append_add : Unmatched (xs ++ ys) (xs.length + i) ↔ Unmatched ys i := by
  rw [Unmatched, List.getElem?_append_right (Nat.le_add_right ..), Nat.add_sub_cancel_left,
    Nat.add_assoc, List.drop_length_add_append]
  rfl

theorem unmatched_push :
    Unmatched (xs ++ [.push]) i ↔ i = xs.length ∨ Unmatched xs i := by
  constructor
  · intro h
    have hlt := h.lt
    rw [List.length_append, List.length_singleton] at hlt
    rcases Nat.lt_or_eq_of_le (Nat.le_of_lt_succ hlt) with hi | hi
    · obtain ⟨hpush, hholds⟩ := (unmatched_append_of_lt hi).mp h
      exact .inr ⟨hpush, hholds.mono (List.prefix_append ..)⟩
    · exact .inl hi
  · rintro (rfl | h)
    · exact ⟨List.getElem?_concat_length, by simpa using holds_nil⟩
    · exact h.append (holds_singleton nofun)

/-- Some scope is entered at each height below the present one and not left. -/
theorem exists_unmatched {ℓ : Nat} (h : ℓ < height xs) :
    ∃ i, Unmatched xs i ∧ height (xs.take i) = ℓ := by
  induction xs using List.reverseRecOn with
  | nil => exact absurd h (Nat.not_lt_zero ℓ)
  | append_singleton xs s ih =>
    -- A scope that is not left before the last step is not left by it either, if it is not a pop
    -- or does not leave that scope.
    have of_init (hl : ℓ < height xs) (hs : s = .pop → ℓ + 1 < height xs) :
        ∃ i, Unmatched (xs ++ [s]) i ∧ height ((xs ++ [s]).take i) = ℓ := by
      obtain ⟨i, hi, hheight⟩ := ih hl
      refine ⟨i, (unmatched_append_of_lt hi.lt).mpr ⟨hi.1, holds_concat.mpr ⟨hi.2, ?_⟩⟩, ?_⟩
      · intro hpop
        have hlt := hs hpop
        have heq := hi.height_append
        omega
      · rwa [List.take_append_of_le_length (Nat.le_of_lt hi.lt)]
    cases s with
    | push =>
      rw [height_push] at h
      rcases Nat.lt_or_eq_of_le (Nat.le_of_lt_succ h) with hl | hl
      · exact of_init hl nofun
      · refine ⟨xs.length, unmatched_push.mpr (.inl rfl), ?_⟩
        rw [List.take_left, hl]
    | pop =>
      rw [height_pop] at h
      exact of_init (by omega) fun _ => by omega
    | define name v =>
      rw [height_define] at h
      exact of_init h nofun
    | assign name v =>
      rw [height_assign] at h
      exact of_init h nofun

theorem unmatched_concat_of_ne (hpush : s ≠ .push) (hpop : s ≠ .pop) :
    Unmatched (xs ++ [s]) i ↔ Unmatched xs i := by
  constructor
  · intro h
    have hlt := h.lt
    rw [List.length_append, List.length_singleton] at hlt
    rcases Nat.lt_or_eq_of_le (Nat.le_of_lt_succ hlt) with hi | rfl
    · obtain ⟨hget, hholds⟩ := (unmatched_append_of_lt hi).mp h
      exact ⟨hget, hholds.mono (List.prefix_append ..)⟩
    · have hget := h.1
      rw [List.getElem?_concat_length] at hget
      exact absurd (Option.some.inj hget) hpush
  · intro h
    exact h.append (holds_singleton hpop)

theorem unmatched_pop :
    Unmatched (xs ++ [.pop]) i ↔ Unmatched xs i ∧ ∃ j, i < j ∧ Unmatched xs j := by
  constructor
  · intro h
    have hlt := h.lt
    rw [List.length_append, List.length_singleton] at hlt
    rcases Nat.lt_or_eq_of_le (Nat.le_of_lt_succ hlt) with hi | rfl
    · obtain ⟨hget, hholds⟩ := (unmatched_append_of_lt hi).mp h
      obtain ⟨hinit, hcount⟩ := holds_concat.mp hholds
      have hpos : 0 < height (xs.drop (i + 1)) := by
        have heq := hinit.height_append []
        rw [List.nil_append, height_nil] at heq
        have hlt := hcount rfl
        omega
      obtain ⟨k, hk, -⟩ := exists_unmatched hpos
      refine ⟨⟨hget, hinit⟩, i + 1 + k, by omega, ?_⟩
      have hmoved : Unmatched (xs.take (i + 1) ++ xs.drop (i + 1)) ((xs.take (i + 1)).length + k) :=
        unmatched_append_add.mpr hk
      rwa [List.take_append_drop, List.length_take_of_le hi] at hmoved
    · have hget := h.1
      rw [List.getElem?_concat_length] at hget
      cases hget
  · rintro ⟨h, j, hij, hj⟩
    refine (unmatched_append_of_lt h.lt).mpr ⟨h.1, holds_concat.mpr ⟨h.2, fun _ => ?_⟩⟩
    have hlow := h.height_lt hij
    have hhigh := hj.height_lt hj.lt
    rw [List.take_length] at hhigh
    have heq := h.height_append
    omega

/-- The height tells how many scopes are entered and not left. -/
theorem ncard_unmatched (xs : List Step) : {i | Unmatched xs i}.ncard = height xs := by
  rw [← Set.ncard_Iio_nat (height xs)]
  refine Set.ncard_congr (fun i _ => height (xs.take i)) ?_ ?_ ?_
  · intro i hi
    have hlt := Unmatched.height_lt hi (Unmatched.lt hi)
    rwa [List.take_length] at hlt
  · intro i j hi hj heq
    rcases Nat.lt_trichotomy i j with h | h | h
    · exact absurd heq (Nat.ne_of_lt (Unmatched.height_lt hi h))
    · exact h
    · exact absurd heq.symm (Nat.ne_of_lt (Unmatched.height_lt hj h))
  · intro ℓ hℓ
    obtain ⟨i, hi, hheight⟩ := exists_unmatched hℓ
    exact ⟨i, hi, hheight⟩

end Lox.Chain
