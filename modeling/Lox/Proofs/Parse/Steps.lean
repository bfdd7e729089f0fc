import Lox.Proofs.Parse.Faults

/-!
# What one more token can do

A reader that is not skipping either goes on with the token or gives the declaration up at it.

* `Fault.isMajor`, `Minor`: faults that spoil a declaration, and lists without one;
* `Reader.GoesOn`, `Reader.FailsAt`: the two outcomes;
* `Reader.read_step`: one of them holds for every token;
* `Reader.blamed?`: the first fault that spoils a declaration, which no later token changes.
-/

namespace Lox.Parse

/-- The fault is reported and the declaration given up. After any other fault, which is about the
target of an assignment, the reader goes on. -/
def Fault.isMajor (f : Fault) : Bool := f.diagnostic.message != "Invalid assignment target."

theorem Fault.isMajor_eq (t : Placed) (c : Cause) : Fault.isMajor ⟨t, c⟩ = !c.isMinor := by
  cases c <;> simp [isMajor, diagnostic, Diagnostic.syntactic, Cause.message, Cause.isMinor]

/-- No fault spoils the declaration. -/
def Minor (fs : List Fault) : Prop := ∀ f ∈ fs, f.isMajor = false

namespace Minor

variable {fs gs : List Fault}

@[simp] theorem nil : Minor [] := fun _ h => absurd h List.not_mem_nil

theorem append (hf : Minor fs) (hg : Minor gs) : Minor (fs ++ gs) := by
  intro f h
  exact (List.mem_append.mp h).elim (hf f) (hg f)

theorem reverse (hf : Minor fs) : Minor fs.reverse := fun f h => hf f (List.mem_reverse.mp h)

theorem find?_eq_none (hf : Minor fs) : fs.find? Fault.isMajor = none :=
  List.find?_eq_none.mpr fun f h => by simp [hf f h]

end Minor

/-! ## Expressions -/

theorem close_minor (level : Nat) (e : Expr) (pending : List Pending) :
    Minor (close level e pending).faults := by
  induction pending generalizing e with
  | nil => exact .nil
  | cons p rest ih =>
    cases p with
    | unary op line => exact ih _
    | binary op line left | logical op line left =>
      rw [close]
      split
      · exact ih _
      · exact .nil
    | assign target equals =>
      unfold close
      split
      · split
        · exact ih _
        · intro f hf
          obtain rfl | hf := List.mem_cons.mp hf
          · exact Fault.isMajor_eq equals .assignmentTarget
          · exact ih _ f hf
      · exact .nil
    | paren => exact .nil

/-- The faults that a step brings are minor, and the cause of a failure is not. -/
def ExprStep.Sound : ExprStep → Prop
  | .next _ fs | .ended _ fs => Minor fs
  | .failed cause fs => cause.isMinor = false ∧ Minor fs

namespace ExprReader

theorem Takes.sound {reader : ExprReader} {t : Placed} {step : ExprStep}
    (h : Takes t reader step) : step.Sound := by
  cases h with
  | unary | openParen | atom | binary | logical | assign => exact .nil
  | noOperand => exact ⟨rfl, .nil⟩
  | closeParen | ended => exact close_minor 0 _ _
  | unclosed => exact ⟨rfl, close_minor 0 _ _⟩

theorem sound_read (reader : ExprReader) (t : Placed) : (reader.read t).Sound :=
  (reader.takes t).sound

end ExprReader

/-! ## Programs -/

/-- Tokens are being skipped. -/
def Mode.isSkipping : Mode → Bool
  | skipping _ => true
  | _ => false

namespace Reader

variable {r r' q : Reader} {t : Placed}

/-- From `r` to `r'` the declaration is not given up. -/
def GoesOn (r r' : Reader) : Prop :=
  r'.mode.isSkipping = false ∧ ∃ fs, Minor fs ∧ r'.faults = fs ++ r.faults

/-- From `r` to `r'` the declaration is given up at the token. -/
def FailsAt (t : Placed) (r r' : Reader) : Prop :=
  ∃ cause fs, cause.isMinor = false ∧ Minor fs ∧ r'.faults = ⟨t, cause⟩ :: (fs ++ r.faults)

/-- The two outcomes. -/
def Steps (t : Placed) (r r' : Reader) : Prop := r.GoesOn r' ∨ FailsAt t r r'

theorem goesOn_of_faults_eq (hm : r'.mode.isSkipping = false) (hf : r'.faults = r.faults) :
    r.GoesOn r' := ⟨hm, [], .nil, hf⟩

theorem steps_fail (t : Placed) {cause : Cause} (h : cause.isMinor = false) :
    Steps t r (r.fail t cause) := .inr ⟨cause, [], h, .nil, rfl⟩

theorem Steps.of_faults_eq (h : Steps t q r') (hf : q.faults = r.faults) : Steps t r r' := by
  unfold Steps GoesOn FailsAt at h ⊢
  rwa [hf] at h

theorem isSkipping_completeIn (r : Reader) (s : Stmt) (cs : List Clause) :
    (r.completeIn s cs).mode.isSkipping = false := by
  induction cs generalizing s with
  | nil =>
    unfold completeIn deliver
    split <;> rfl
  | cons c cs ih =>
    cases c with
    | thenBranch c => rfl
    | elseBranch c t | loopBody c => exact ih _

theorem goesOn_complete (r : Reader) (s : Stmt) : r.GoesOn (r.complete s) :=
  goesOn_of_faults_eq (r.isSkipping_completeIn s _) (r.faults_complete s)

theorem isSkipping_completeUse (r : Reader) (e : Expr) (use : Use) :
    (r.completeUse e use).mode.isSkipping = false := by
  cases use <;> first | rfl | exact r.isSkipping_completeIn _ _

theorem isMinor_cause (use : Use) : use.cause.isMinor = false := by cases use <;> rfl

theorem readExpression_step (r : Reader) (use : Use) (reader : ExprReader) (t : Placed) :
    Steps t r (r.readExpression use reader t) := by
  have hsound := reader.sound_read t
  rw [readExpression]
  cases hread : reader.read t with
  | next next fs =>
    rw [hread] at hsound
    exact .inl ⟨rfl, _, hsound.reverse, rfl⟩
  | ended e fs =>
    rw [hread] at hsound
    dsimp only
    split_ifs
    · exact .inl ⟨isSkipping_completeUse _ _ _, _, hsound.reverse, faults_completeUse _ _ _⟩
    · exact .inr ⟨_, _, isMinor_cause use, hsound.reverse, rfl⟩
  | failed cause fs =>
    rw [hread] at hsound
    exact .inr ⟨_, _, hsound.1, hsound.2.reverse, rfl⟩

theorem TakesStatement.step (h : TakesStatement t r r') : Steps t r r' := by
  cases h with
  | print | openBlock | ifHeader | loopHeader => exact .inl (goesOn_of_faults_eq rfl rfl)
  | expression => exact r.readExpression_step _ _ t

theorem TakesDeclaration.step (h : TakesDeclaration t r r') : Steps t r r' := by
  cases h with
  | variableName => exact .inl (goesOn_of_faults_eq rfl rfl)
  | closeBlock => exact .inl (goesOn_complete _ _)
  | statement h => exact h.step

theorem Takes.step (h : Takes t r r') (hr : r.mode.isSkipping = false) : Steps t r r' := by
  cases h with
  | declaration _ h => exact h.step
  | statement _ h => exact h.step
  | named | initializer | ifCondition | loopCondition | elseBranch =>
    exact .inl (goesOn_of_faults_eq rfl rfl)
  | nameless | undeclared | ifOpen | loopOpen => exact steps_fail t rfl
  | declared => exact .inl (goesOn_complete _ _)
  | expression => exact r.readExpression_step _ _ t
  | noElse _ h => exact h.step.of_faults_eq (r.faults_settle _)
  | resumes hm | skips hm =>
    rw [hm] at hr
    cases hr

/-- Unless tokens are being skipped, one more is read on or fails the declaration. -/
theorem read_step (h : r.mode.isSkipping = false) (t : Placed) : Steps t r (r.read t) :=
  (r.takes t).step h

/-! ## The first fault that spoils a declaration -/

/-- The first fault that spoils a declaration. -/
def blamed? (r : Reader) : Option Fault := r.faults.reverse.find? Fault.isMajor

theorem blamed?_append {fs : List Fault} (h : r'.faults = fs ++ r.faults) :
    r'.blamed? = r.blamed?.or (fs.reverse.find? Fault.isMajor) := by
  rw [blamed?, h, List.reverse_append, List.find?_append, blamed?]

theorem blamed?_of_suffix {f : Fault} (h : r.faults <:+ r'.faults) (hf : r.blamed? = some f) :
    r'.blamed? = some f := by
  obtain ⟨fs, hfs⟩ := h
  rw [blamed?_append hfs.symm, hf]
  rfl

theorem GoesOn.blamed? (h : r.GoesOn r') : r'.blamed? = r.blamed? := by
  obtain ⟨-, fs, hfs, heq⟩ := h
  rw [blamed?_append heq, hfs.reverse.find?_eq_none, Option.or_none]

theorem FailsAt.blamed? (h : FailsAt t r r') (hr : r.blamed? = none) :
    ∃ cause, r'.blamed? = some ⟨t, cause⟩ := by
  obtain ⟨cause, fs, hcause, hfs, heq⟩ := h
  refine ⟨cause, ?_⟩
  rw [@blamed?_append r r' (⟨t, cause⟩ :: fs) heq, hr, List.reverse_cons, List.find?_append,
    hfs.reverse.find?_eq_none]
  simp [Fault.isMajor_eq, hcause]

end Reader

end Lox.Parse
