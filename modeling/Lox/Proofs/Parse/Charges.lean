import Mathlib.Data.List.Perm.Subperm
import Lox.Proofs.Parse.Completion

/-!
# What a token pays for

Every fault is paid for by a token of its own: a declaration at fault by its first token, an open
block by its brace, and the target of an assignment by its `=`.

* `close_equals`, `ExprReader.marks_read`: an assignment that ends is blamed at its `=` at most;
* `Reader.marked`: the tokens that are blamed, or may be when an assignment ends;
* `Reader.weight`: the faults found, and those that the end of the program would bring at once;
* `Reader.majors`, `Reader.gaps`: the faults that spoil a declaration, and the empty slots;
* `Reader.Charges`, `Reader.charges_read`: what one more token adds to these;
* `Reader.Accounted`, `Reader.accounted_foldl`: what holds of them after any number of tokens.
-/

namespace Lox.Parse

open Token (Kind)

/-! ## Assignments that wait -/

/-- The `=` of an assignment. -/
def Pending.equals? : Pending → Option Placed
  | assign _ equals => some equals
  | _ => none

/-- The `=` of each assignment that waits for its right side, the innermost first. -/
def equalsOf (pending : List Pending) : List Placed := pending.filterMap Pending.equals?

/-- The tokens blamed in faults. -/
def tokensOf (fs : List Fault) : List Placed := fs.map (·.token)

theorem tokensOf_append (fs gs : List Fault) :
    tokensOf (fs ++ gs) = tokensOf fs ++ tokensOf gs := List.map_append

theorem tokensOf_cons (f : Fault) (fs : List Fault) :
    tokensOf (f :: fs) = f.token :: tokensOf fs := rfl

@[simp] theorem length_tokensOf (fs : List Fault) : (tokensOf fs).length = fs.length :=
  List.length_map _

/-- Each `=` is blamed at most once, and then waits no longer. -/
theorem close_equals (level : Nat) (e : Expr) (pending : List Pending) :
    (tokensOf (close level e pending).faults ++ equalsOf (close level e pending).pending).Sublist
      (equalsOf pending) := by
  induction pending generalizing e with
  | nil => exact List.Sublist.refl _
  | cons p rest ih =>
    cases p with
    | unary op line => exact ih _
    | binary op line left | logical op line left =>
      rw [close]
      split
      · exact ih _
      · exact List.Sublist.refl _
    | assign target equals =>
      unfold close
      split
      · split
        · exact (ih _).cons _
        · exact (ih _).cons_cons _
      · exact List.Sublist.refl _
    | paren => exact List.Sublist.refl _

/-- The `=` of each assignment that a reader has open. -/
def ExprReader.equals : ExprReader → List Placed
  | operand pending | operator _ pending => equalsOf pending

/-- A step blames, or leaves waiting, tokens that waited before; if it goes on, perhaps `t` too. -/
def ExprStep.Marks (t : Placed) (waiting : List Placed) : ExprStep → Prop
  | next reader fs => (tokensOf fs ++ reader.equals).Sublist (t :: waiting)
  | ended _ fs | failed _ fs => (tokensOf fs).Sublist waiting

namespace ExprReader

variable {t : Placed}

theorem Takes.marks {reader : ExprReader} {step : ExprStep} (h : Takes t reader step) :
    step.Marks t reader.equals := by
  have hclose := fun (level : Nat) (e : Expr) (pending : List Pending) =>
    close_equals level e pending
  have hwait := fun level e pending =>
    (List.sublist_append_right _ _).trans (hclose level e pending)
  have hfaults := fun e pending => (List.sublist_append_left _ _).trans (hclose 0 e pending)
  cases h with
  | unary | openParen | atom => exact List.sublist_cons_self _ _
  | noOperand => exact List.nil_sublist _
  | binary | logical => exact (hwait _ _ _).cons _
  | assign => exact (hwait _ _ _).cons_cons _
  | @closeParen e pending rest hparen =>
    have hmarks := hclose 0 e pending
    rw [hparen] at hmarks
    exact hmarks.cons _
  | unclosed | ended => exact hfaults _ _

theorem marks_read (reader : ExprReader) (t : Placed) : (reader.read t).Marks t reader.equals :=
  (reader.takes t).marks

theorem read_start (t : Placed) : (∃ reader, start.read t = .next reader [] ∧ reader.equals = []) ∨
    start.read t = .failed .expression [] := by
  have htakes := start.takes t
  generalize start.read t = step at htakes ⊢
  cases htakes with
  | unary | openParen | atom => exact .inl ⟨_, rfl, rfl⟩
  | noOperand => exact .inr rfl

end ExprReader

/-! ## What a reader owes -/

namespace Mode

/-- The `=` of each assignment that is being read. -/
def equals : Mode → List Placed
  | expression _ reader => reader.equals
  | _ => []

/-- The end of the program would be a fault of the current declaration. -/
def isInside : Mode → Bool
  | declaration | maybeElse .. | skipping _ => false
  | _ => true

end Mode

namespace Reader

/-- The tokens that are blamed, or may be when an assignment ends. -/
def marked (r : Reader) : List Placed := tokensOf r.faults ++ r.mode.equals

/-- The faults that spoil a declaration, the latest first. -/
def majors (r : Reader) : List Fault := r.faults.filter Fault.isMajor

/-- The number of slots that a declaration at fault has left empty. -/
def gaps (r : Reader) : Nat := r.slots.countP (·.isNone)

/-- The number of faults if every open assignment had a wrong target and the program ended. -/
def weight (r : Reader) : Nat := r.marked.length + r.blocks.length + r.mode.isInside.toNat

/-- From `r` to `r'` a token is read: it may be marked, and be the place of one fault that spoils
a declaration. -/
structure Charges (t : Placed) (r r' : Reader) : Prop where
  marked : r'.marked.Subperm (t :: r.marked)
  majors : r'.majors = r.majors ∧ r'.gaps ≤ r.gaps ∨
    ∃ cause, r'.majors = ⟨t, cause⟩ :: r.majors ∧ r'.gaps ≤ r.gaps + 1
  weight : r'.weight ≤ r.weight + 1

variable {r r' q : Reader} {t : Placed}

theorem weight_eq (r : Reader) : r.weight =
    r.faults.length + r.mode.equals.length + r.blocks.length + r.mode.isInside.toNat := by
  simp [weight, marked]

theorem filter_isMajor_of_minor {fs : List Fault} (h : Minor fs) :
    fs.filter Fault.isMajor = [] := by
  rw [List.filter_eq_nil_iff]
  intro f hf
  simp [h f hf]

theorem majors_append {fs : List Fault} (h : Minor fs) (hf : r'.faults = fs ++ r.faults) :
    r'.majors = r.majors := by
  rw [majors, hf, List.filter_append, filter_isMajor_of_minor h, List.nil_append, majors]

theorem gaps_deliver (r : Reader) (s : Stmt) : (r.deliver s).gaps = r.gaps := by
  unfold deliver
  split
  · simp [gaps]
  · rfl

theorem blocks_deliver (r : Reader) (s : Stmt) :
    (r.deliver s).blocks.length = r.blocks.length := (r.atRest_deliver s).2

theorem gaps_completeIn (r : Reader) (s : Stmt) (cs : List Clause) :
    (r.completeIn s cs).gaps = r.gaps := by
  induction cs generalizing s with
  | nil => exact r.gaps_deliver s
  | cons c cs ih =>
    cases c with
    | thenBranch c => rfl
    | elseBranch c t | loopBody c => exact ih _

theorem AtRest.owes_nothing (h : r.AtRest) : r.mode.equals = [] ∧ r.mode.isInside = false := by
  rcases h with h | ⟨c, s, h⟩ <;> rw [h] <;> exact ⟨rfl, rfl⟩

/-- Going on with a token, the reader `r'` owes no more than `r` but for the token. -/
theorem charges_of_goesOn (fs : List Fault) (hfaults : r'.faults = fs.reverse ++ r.faults)
    (hminor : Minor fs) (hgaps : r'.gaps ≤ r.gaps)
    (hmarks : (tokensOf fs ++ r'.mode.equals).Sublist (t :: r.mode.equals))
    (hweight : fs.length + r'.mode.equals.length + r'.blocks.length + r'.mode.isInside.toNat ≤
      r.mode.equals.length + r.blocks.length + r.mode.isInside.toNat + 1) : Charges t r r' where
  marked := by
    have hperm : r'.marked.Perm (tokensOf r.faults ++ (tokensOf fs ++ r'.mode.equals)) := by
      rw [marked, hfaults, tokensOf_append, tokensOf, List.map_reverse, ← List.append_assoc]
      exact ((List.reverse_perm _).append_right _).trans List.perm_append_comm |>.append_right _
    refine hperm.subperm.trans ((hmarks.append_left _).subperm.trans ?_)
    exact List.perm_middle.subperm
  majors := .inl ⟨majors_append hminor.reverse hfaults, hgaps⟩
  weight := by
    rw [weight_eq, weight_eq, hfaults, List.length_append, List.length_reverse]
    omega

/-- The declaration is given up at the token. If it has begun, the token costs nothing. -/
theorem charges_fail (fs : List Fault) (cause : Cause) (hcause : cause.isMinor = false)
    (hminor : Minor fs) (hmarks : (tokensOf fs).Sublist r.mode.equals) :
    Charges t r ({ r with faults := fs.reverse ++ r.faults }.fail t cause) ∧
      ({ r with faults := fs.reverse ++ r.faults }.fail t cause).weight + r.mode.isInside.toNat ≤
        r.weight + 1 := by
  have hlen := hmarks.length_le
  rw [length_tokensOf] at hlen
  have hweight : ({ r with faults := fs.reverse ++ r.faults }.fail t cause).weight +
      r.mode.isInside.toNat ≤ r.weight + 1 := by
    have hfail : ({ r with faults := fs.reverse ++ r.faults }.fail t cause).weight =
        fs.length + r.faults.length + 1 + r.blocks.length := by
      simp [weight_eq, fail, Mode.equals, Mode.isInside]
    rw [hfail, weight_eq]
    omega
  refine ⟨⟨?_, .inr ⟨cause, ?_, ?_⟩, Nat.le_of_add_right_le hweight⟩, hweight⟩
  · have hperm : (tokensOf (fs.reverse ++ r.faults)).Perm (tokensOf r.faults ++ tokensOf fs) := by
      rw [tokensOf_append, tokensOf, List.map_reverse]
      exact ((List.reverse_perm _).append_right _).trans List.perm_append_comm
    rw [marked, faults_fail, tokensOf_cons, List.cons_append, List.subperm_cons]
    simp only [fail, Mode.equals, List.append_nil]
    exact hperm.subperm.trans (hmarks.append_left _).subperm
  · rw [majors, faults_fail, List.filter_cons_of_pos (by simp [Fault.isMajor_eq, hcause])]
    exact congrArg _ (majors_append hminor.reverse rfl)
  · unfold gaps fail
    dsimp only
    split
    · simp
    · exact Nat.le_succ _

theorem Charges.mono (h : Charges t q r') (hfaults : q.faults = r.faults)
    (hmarked : q.mode.equals = []) (hgaps : q.gaps = r.gaps)
    (hweight : q.blocks.length + q.mode.isInside.toNat ≤
      r.blocks.length + r.mode.isInside.toNat) : Charges t r r' where
  marked := by
    refine h.marked.trans ((List.subperm_cons _).mpr ?_)
    rw [Reader.marked, Reader.marked, hfaults, hmarked, List.append_nil]
    exact (List.sublist_append_left _ _).subperm
  majors := by
    have hsame : q.majors = r.majors := by rw [Reader.majors, hfaults, Reader.majors]
    rw [← hsame, ← hgaps]
    exact h.majors
  weight := by
    have hle := h.weight
    rw [weight_eq q, hfaults, hmarked, List.length_nil] at hle
    rw [weight_eq r]
    omega

/-! ## One more token -/

theorem charges_complete (r : Reader) (t : Placed) (s : Stmt) (cs : List Clause) :
    Charges t r (r.completeIn s cs) := by
  obtain ⟨hrest, hblocks⟩ := r.atRest_completeIn s cs
  obtain ⟨hequals, hinside⟩ := hrest.owes_nothing
  have hgaps := Nat.le_of_eq (r.gaps_completeIn s cs)
  refine charges_of_goesOn [] (r.faults_completeIn s cs) .nil hgaps ?_ ?_
  · rw [hequals]
    exact List.nil_sublist _
  · rw [hequals, hinside, hblocks]
    simp only [List.length_nil, Bool.toNat_false]
    omega

/-- In another mode, in which no assignment is open, one more fault may be due at the end. -/
theorem charges_mode (r : Reader) {m : Mode} (t : Placed) (hm : m.equals = []) :
    Charges t r { r with mode := m } := by
  refine charges_of_goesOn [] rfl .nil (Nat.le_refl _) ?_ ?_
  · dsimp only
    rw [hm]
    exact List.nil_sublist _
  · have hbool := m.isInside.toNat_le
    simp only [hm, List.length_nil]
    omega

theorem charges_giveUp (r : Reader) {cause : Cause} (t : Placed) (h : cause.isMinor = false) :
    Charges t r (r.fail t cause) := (charges_fail [] cause h .nil (List.nil_sublist _)).1

theorem charges_completeUse {fs : List Fault} (hm : r.mode.isInside = true) (hminor : Minor fs)
    (hmarks : (tokensOf fs).Sublist r.mode.equals) (e : Expr) (use : Use) (t : Placed) :
    Charges t r ({ r with faults := fs.reverse ++ r.faults }.completeUse e use) := by
  have hlen := hmarks.length_le
  rw [length_tokensOf] at hlen
  have hends : ∀ q : Reader, (q.completeUse e use).mode.equals = [] ∧
      (q.completeUse e use).gaps = q.gaps ∧
      (q.completeUse e use).blocks.length = q.blocks.length := by
    intro q
    cases use with
    | value | statement | initializer name =>
      obtain ⟨hrest, hblocks⟩ := q.atRest_completeIn _ q.clauses
      exact ⟨hrest.owes_nothing.1, q.gaps_completeIn _ _, hblocks⟩
    | ifCondition | loopCondition => exact ⟨rfl, rfl, rfl⟩
  obtain ⟨hequals, hgaps, hblocks⟩ := hends { r with faults := fs.reverse ++ r.faults }
  refine charges_of_goesOn fs (faults_completeUse _ e use) hminor (Nat.le_of_eq hgaps) ?_ ?_
  · rw [hequals, List.append_nil]
    exact hmarks.cons _
  · have hbool := Bool.toNat_le (({ r with faults := fs.reverse ++ r.faults } : Reader).completeUse
      e use).mode.isInside
    rw [hequals, hblocks, hm]
    simp only [List.length_nil, Bool.toNat_true]
    omega

theorem charges_readExpression {use : Use} {reader : ExprReader}
    (hm : r.mode = .expression use reader) (t : Placed) :
    Charges t r (r.readExpression use reader t) := by
  have hequals : r.mode.equals = reader.equals := by rw [hm]; rfl
  have hinside : r.mode.isInside = true := by rw [hm]; rfl
  have hsound := reader.sound_read t
  have hmarks := reader.marks_read t
  rw [← hequals] at hmarks
  rw [readExpression]
  cases hread : reader.read t with
  | next next fs =>
    rw [hread] at hsound hmarks
    refine charges_of_goesOn fs rfl hsound (Nat.le_refl _) hmarks ?_
    have hlen := hmarks.length_le
    rw [List.length_append, length_tokensOf, List.length_cons] at hlen
    rw [hinside]
    show fs.length + next.equals.length + r.blocks.length + 1 ≤
      r.mode.equals.length + r.blocks.length + 1 + 1
    omega
  | ended e fs =>
    rw [hread] at hsound hmarks
    dsimp only
    split_ifs
    · exact charges_completeUse hinside hsound hmarks _ use t
    · exact (charges_fail _ _ (isMinor_cause use) hsound hmarks).1
  | failed cause fs =>
    rw [hread] at hsound hmarks
    exact (charges_fail _ _ hsound.1 hsound.2 hmarks).1

theorem TakesStatement.charges (h : TakesStatement t r r') : Charges t r r' := by
  cases h with
  | print | ifHeader | loopHeader => exact r.charges_mode t rfl
  | openBlock =>
    refine charges_of_goesOn [] rfl .nil (Nat.le_refl _) (List.nil_sublist _) ?_
    simp only [Mode.equals, Mode.isInside, List.length_nil, List.length_cons, Bool.toNat_false]
    omega
  | expression =>
    rw [readExpression]
    rcases ExprReader.read_start t with ⟨reader, hread, hequals⟩ | hread <;> rw [hread]
    · exact r.charges_mode (m := .expression .statement reader) t hequals
    · exact r.charges_giveUp t rfl

theorem TakesDeclaration.charges (h : TakesDeclaration t r r') (hm : r.mode.equals = []) :
    Charges t r r' := by
  cases h with
  | variableName =>
    refine charges_of_goesOn [] rfl .nil (Nat.le_refl _) (List.nil_sublist _) ?_
    simp only [Mode.equals, Mode.isInside, List.length_nil, Bool.toNat_true]
    omega
  | @closeBlock b bs _ hblocks =>
    refine (charges_complete { r with blocks := bs, clauses := b.around } t _ _).mono rfl hm rfl ?_
    rw [hblocks, List.length_cons]
    dsimp only
    omega
  | statement h => exact h.charges

theorem Takes.charges (h : Takes t r r') : Charges t r r' := by
  cases h with
  | declaration hm h => exact h.charges (by rw [hm]; rfl)
  | statement _ h => exact h.charges
  | named | initializer | ifCondition | loopCondition | skips => exact r.charges_mode t rfl
  | nameless | undeclared | ifOpen | loopOpen => exact r.charges_giveUp t rfl
  | declared => exact charges_complete r t _ _
  | expression hm => exact charges_readExpression hm t
  | @elseBranch c s hm =>
    have hstep := charges_mode { r with clauses := .elseBranch c s :: r.clauses }
      (m := .statement) t rfl
    have hequals : r.mode.equals = [] := by
      rw [hm]
      rfl
    exact hstep.mono rfl hequals rfl (Nat.le_refl _)
  | @noElse c s _ hm h =>
    have hmode := r.mode_deliver (r.clauses.foldl Clause.enclose (.ifThen c s))
    have hequals : (r.settle (.ifThen c s)).mode.equals = [] := by
      rw [settle, hmode]
      rfl
    refine (h.charges hequals).mono (r.faults_settle _) hequals (r.gaps_deliver _) ?_
    rw [settle, hmode, blocks_deliver, hm]
    exact Nat.le_refl _
  | resumes hm _ h =>
    exact (h.charges rfl).mono rfl rfl rfl (by rw [hm]; exact Nat.le_refl _)

theorem charges_read (r : Reader) (t : Placed) : Charges t r (r.read t) := (r.takes t).charges

/-- What holds after the tokens `ps`, the latest first: they pay for what is marked and owed. -/
structure Accounted (ps : List Placed) (r : Reader) : Prop where
  marked : r.marked.Subperm ps
  majors : (tokensOf r.majors).Sublist ps
  gaps : r.gaps ≤ r.majors.length
  weight : r.weight ≤ ps.length

theorem Accounted.charge {ps : List Placed} (h : r.Accounted ps) (hc : Charges t r r') :
    r'.Accounted (t :: ps) := by
  refine ⟨hc.marked.trans ((List.subperm_cons t).mpr h.marked), ?_, ?_, ?_⟩
  · rcases hc.majors with ⟨hsame, -⟩ | ⟨cause, hcons, -⟩
    · rw [hsame]
      exact h.majors.cons t
    · rw [hcons]
      exact h.majors.cons_cons t
  · have hle := h.gaps
    rcases hc.majors with ⟨hsame, hgaps⟩ | ⟨cause, hcons, hgaps⟩
    · rw [hsame]
      omega
    · rw [hcons, List.length_cons]
      omega
  · have hle := h.weight
    have hstep := hc.weight
    rw [List.length_cons]
    omega

theorem accounted_foldl {ps : List Placed} (h : r.Accounted ps) (qs : List Placed) :
    (qs.foldl read r).Accounted (qs.reverse ++ ps) := by
  induction qs generalizing r ps with
  | nil => exact h
  | cons t qs ih =>
    rw [List.reverse_cons, List.append_assoc]
    exact ih (h.charge (r.charges_read t))

end Reader

end Lox.Parse
