import Lox.Proofs.Parse.Takes

/-!
# Faults accumulate

The readers only ever put faults in front of those they have, so a reading without faults had
none at any moment.

* `Reader.faults_completeIn`, `Reader.faults_settle`: a statement that ends brings no fault;
* `Reader.faults_read`, `Reader.faults_foldl`: one more token, and several;
* `Reader.faults_finish`: the end of the program.
-/

namespace Lox.Parse.Reader

open Token (Kind)

variable (r : Reader)

theorem suffix_of_faults_eq {fs gs : List Fault} (h : gs = fs) : fs <:+ gs := ⟨[], h.symm⟩

@[simp] theorem faults_deliver (s : Stmt) : (r.deliver s).faults = r.faults := by
  unfold deliver
  split <;> rfl

@[simp] theorem faults_completeIn (s : Stmt) (cs : List Clause) :
    (r.completeIn s cs).faults = r.faults := by
  induction cs generalizing s with
  | nil => exact r.faults_deliver s
  | cons c cs ih =>
    cases c with
    | thenBranch c => rfl
    | elseBranch c t => exact ih _
    | loopBody c => exact ih _

@[simp] theorem faults_complete (s : Stmt) : (r.complete s).faults = r.faults :=
  r.faults_completeIn s _

@[simp] theorem faults_settle (s : Stmt) : (r.settle s).faults = r.faults := r.faults_deliver _

@[simp] theorem faults_completeUse (e : Expr) (use : Use) :
    (r.completeUse e use).faults = r.faults := by
  cases use <;> first | rfl | exact r.faults_complete _

theorem faults_fail (t : Placed) (cause : Cause) :
    (r.fail t cause).faults = ⟨t, cause⟩ :: r.faults := rfl

theorem faults_readExpression (use : Use) (reader : ExprReader) (t : Placed) :
    r.faults <:+ (r.readExpression use reader t).faults := by
  rw [readExpression]
  cases reader.read t with
  | next next fs => exact List.suffix_append _ _
  | ended e fs =>
    dsimp only
    split_ifs
    · rw [faults_completeUse]
      exact List.suffix_append _ _
    · exact (List.suffix_append _ _).trans (List.suffix_cons _ _)
  | failed cause fs => exact (List.suffix_append _ _).trans (List.suffix_cons _ _)

variable {r} {r' : Reader} {t : Placed}

theorem TakesStatement.faults (h : TakesStatement t r r') : r.faults <:+ r'.faults := by
  cases h with
  | print | openBlock | ifHeader | loopHeader => exact List.suffix_rfl
  | expression => exact r.faults_readExpression _ _ t

theorem TakesDeclaration.faults (h : TakesDeclaration t r r') : r.faults <:+ r'.faults := by
  cases h with
  | variableName => exact List.suffix_rfl
  | closeBlock => exact suffix_of_faults_eq (faults_complete _ _)
  | statement h => exact h.faults

theorem Takes.faults (h : Takes t r r') : r.faults <:+ r'.faults := by
  cases h with
  | declaration _ h | resumes _ _ h => exact h.faults
  | statement _ h => exact h.faults
  | named | initializer | ifCondition | loopCondition | elseBranch | skips =>
    exact List.suffix_rfl
  | nameless | undeclared | ifOpen | loopOpen => exact List.suffix_cons _ _
  | declared => exact suffix_of_faults_eq (faults_complete _ _)
  | expression => exact r.faults_readExpression _ _ t
  | noElse _ h => exact r.faults_settle _ ▸ h.faults

variable (r)

theorem faults_read (t : Placed) : r.faults <:+ (r.read t).faults := (r.takes t).faults

theorem faults_foldl (ps : List Placed) : r.faults <:+ (ps.foldl read r).faults := by
  induction ps generalizing r with
  | nil => exact List.suffix_rfl
  | cons t ps ih => exact (r.faults_read t).trans (ih _)

theorem faults_closeBlocks (t : Placed) : r.faults <:+ (r.closeBlocks t).faults := by
  unfold closeBlocks
  split
  · exact List.suffix_rfl
  · exact List.suffix_append _ _

/-- The end of the program keeps the faults found before. -/
theorem faults_finish (t : Placed) : r.faults <:+ (r.finish t).faults := by
  cases h : r.mode with
  | declaration | skipping latest =>
    simp only [finish, h]
    exact r.faults_closeBlocks t
  | maybeElse c s =>
    have hfaults := (r.settle (.ifThen c s)).faults_closeBlocks t
    rw [faults_settle] at hfaults
    simpa only [finish, h] using hfaults
  | _ =>
    simp only [finish, h]
    exact (r.faults_read t).trans (faults_closeBlocks _ t)

end Lox.Parse.Reader
