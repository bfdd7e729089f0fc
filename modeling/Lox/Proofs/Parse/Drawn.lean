import Lox.Parse.Reader
import Lox.Proofs.Grammar.Drawn
import Lox.Proofs.Parse.Derives
import Lox.Proofs.Source.Lossless

/-!
# Trees are drawn from the tokens that are read

Also among faults, nothing gets into a tree but what stands in tokens.

* `drawn_close`: completing what waits for an operand;
* `ExprReader.drawn_read`: one more token of an expression;
* `parseExpr_drawn`: an expression by itself;
* `Reader.drawn_read`, `Reader.drawn_finish`: one more token of a program, and its end;
* `parse_drawn`: programs;
* `parse_scan_drawn`, `parseExpr_scan_drawn`: the trees of a text.
-/

namespace Lox.Parse

open Grammar

variable {ts : List Token}

/-! ## Expressions -/

/-- What waits for an operand is drawn from the tokens. -/
def Pending.Drawn (ts : List Token) : Pending → Prop
  | unary op line => Token.Marks ts op.kind line
  | binary op line left => Token.Marks ts op.kind line ∧ left.Drawn ts
  | logical op line left => Token.Marks ts op.kind line ∧ left.Drawn ts
  | assign target _ => target.Drawn ts
  | paren => True

/-- What has been completed and what still waits are drawn from the tokens. -/
structure Closed.Drawn (ts : List Token) (c : Closed) : Prop where
  value : c.value.Drawn ts
  pending : ∀ p ∈ c.pending, p.Drawn ts

/-- What an expression reader holds is drawn from the tokens. -/
def ExprReader.Drawn (ts : List Token) : ExprReader → Prop
  | operand pending => ∀ p ∈ pending, p.Drawn ts
  | operator e pending => e.Drawn ts ∧ ∀ p ∈ pending, p.Drawn ts

/-- What one more token leads to is drawn from the tokens. -/
def ExprStep.Drawn (ts : List Token) : ExprStep → Prop
  | next reader _ => reader.Drawn ts
  | ended e _ => e.Drawn ts
  | failed _ _ => True

theorem drawn_close (level : Nat) {e : Expr} {pending : List Pending} (he : e.Drawn ts)
    (hp : ∀ p ∈ pending, p.Drawn ts) : (close level e pending).Drawn ts := by
  induction pending generalizing e with
  | nil => exact ⟨he, hp⟩
  | cons p rest ih =>
    obtain ⟨hhead, hrest⟩ := List.forall_mem_cons.mp hp
    cases p with
    | unary op line => exact ih ⟨hhead, he⟩ hrest
    | binary op line left | logical op line left =>
      rw [close]
      split
      · exact ih ⟨hhead.1, hhead.2, he⟩ hrest
      · exact ⟨he, hp⟩
    | assign target equals =>
      unfold close
      split
      · split
        · exact ih ⟨hhead, he⟩ hrest
        · obtain ⟨hvalue, hpending⟩ := ih hhead hrest
          exact ⟨hvalue, hpending⟩
      · exact ⟨he, hp⟩
    | paren => exact ⟨he, hp⟩

/-- The token is among those that count, unless it ends them. -/
def Placed.Counts (ts : List Token) (t : Placed) : Prop := t.kind ≠ .eof → t.toToken ∈ ts

theorem Placed.Counts.marks {t : Placed} {k : Token.Kind} (h : t.Counts ts) (hk : t.kind = k)
    (hne : k ≠ .eof) : Token.Marks ts k t.line :=
  ⟨t.toToken, h (hk ▸ hne), hk, rfl⟩

theorem Placed.Counts.drawn {t : Placed} {e : Expr} (h : t.Counts ts) (ha : Atom t.toToken e) :
    e.Drawn ts := by
  have hmem : t.toToken ∈ ts := h (by cases ha <;> simp_all)
  cases ha with
  | name hk => exact ⟨_, hmem, hk, rfl⟩
  | ofFalse hk => exact ⟨_, hmem, .ofFalse hk⟩
  | ofTrue hk => exact ⟨_, hmem, .ofTrue hk⟩
  | ofNil hk => exact ⟨_, hmem, .ofNil hk⟩
  | number hk => exact ⟨_, hmem, .number hk⟩
  | string hk => exact ⟨_, hmem, .string hk⟩

namespace ExprReader

variable {t : Placed} {reader : ExprReader}

theorem Takes.drawn {step : ExprStep} (h : Takes t reader step) (hr : reader.Drawn ts)
    (ht : t.Counts ts) : step.Drawn ts := by
  cases h with
  | @unary _ op hop =>
    have hmark := ht.marks (UnaryOp.ofKind?_eq_some_iff.mp hop) (by cases op <;> decide)
    exact List.forall_mem_cons.mpr ⟨hmark, hr⟩
  | openParen => exact List.forall_mem_cons.mpr ⟨trivial, hr⟩
  | atom hatom => exact ⟨ht.drawn (atom_of_atom? hatom), hr⟩
  | @binary _ _ op hop =>
    have hmark := ht.marks (BinaryOp.ofKind?_eq_some_iff.mp hop) (by cases op <;> decide)
    obtain ⟨hvalue, hpending⟩ := drawn_close op.level hr.1 hr.2
    exact List.forall_mem_cons.mpr ⟨⟨hmark, hvalue⟩, hpending⟩
  | @logical _ _ op hop =>
    have hmark := ht.marks (LogicalOp.ofKind?_eq_some_iff.mp hop) (by cases op <;> decide)
    obtain ⟨hvalue, hpending⟩ := drawn_close op.level hr.1 hr.2
    exact List.forall_mem_cons.mpr ⟨⟨hmark, hvalue⟩, hpending⟩
  | assign =>
    obtain ⟨hvalue, hpending⟩ := drawn_close 1 hr.1 hr.2
    exact List.forall_mem_cons.mpr ⟨hvalue, hpending⟩
  | closeParen hparen =>
    obtain ⟨hvalue, hpending⟩ := drawn_close 0 hr.1 hr.2
    rw [hparen] at hpending
    exact ⟨hvalue, (List.forall_mem_cons.mp hpending).2⟩
  | ended => exact (drawn_close 0 hr.1 hr.2).1
  | noOperand | unclosed => trivial

theorem drawn_read (h : reader.Drawn ts) (ht : t.Counts ts) : (reader.read t).Drawn ts :=
  (reader.takes t).drawn h ht

theorem drawn_start : start.Drawn ts := nofun

end ExprReader

theorem counts_of_mem_body {tokens : List Token} {t : Placed} (h : t ∈ body tokens) :
    t.Counts (before tokens) := by
  intro _
  rw [← map_toToken_body]
  exact List.mem_map_of_mem h

namespace ExprRun

/-- As long as no fault has ended the reading, the reader holds only what is drawn. -/
def Drawn (ts : List Token) (run : ExprRun) : Prop :=
  ∀ reader, run.progress = .ok reader → reader.Drawn ts

variable {run : ExprRun}

theorem drawn_read {t : Placed} (h : run.Drawn ts) (ht : t.Counts ts) :
    (run.read t).Drawn ts := by
  cases hprogress : run.progress with
  | error f =>
    have hsame : run.read t = run := by simp only [read, hprogress]
    rwa [hsame]
  | ok reader =>
    have hstep := ExprReader.drawn_read (h reader hprogress) ht
    intro next hnext
    rw [read, hprogress] at hnext
    cases hread : reader.read t with
    | next last fs =>
      rw [hread] at hstep
      simp only [hread] at hnext
      cases hnext
      exact hstep
    | ended e fs | failed cause fs =>
      simp only [hread, fail] at hnext
      cases hnext

theorem drawn_foldl {ps : List Placed} (h : run.Drawn ts) (hps : ∀ t ∈ ps, t.Counts ts) :
    (ps.foldl read run).Drawn ts := by
  induction ps generalizing run with
  | nil => exact h
  | cons t ps ih =>
    obtain ⟨ht, hps⟩ := List.forall_mem_cons.mp hps
    exact ih (drawn_read h ht) hps

theorem drawn_finish {t : Placed} {e : Expr} (h : run.Drawn ts)
    (hfinish : (run.finish t).1 = .ok e) : e.Drawn ts := by
  rw [finish] at hfinish
  cases hprogress : run.progress with
  | error f =>
    simp only [hprogress] at hfinish
    cases hfinish
  | ok reader =>
    have hreader := h reader hprogress
    cases reader with
    | operand pending =>
      simp only [hprogress, ExprReader.finish] at hfinish
      cases hfinish
    | operator v pending =>
      obtain ⟨hvalue, -⟩ := drawn_close 0 hreader.1 hreader.2
      rcases close_zero_pending v pending with hnil | ⟨rest, hparen⟩
      · simp only [hprogress, ExprReader.finish, hnil] at hfinish
        cases hfinish
        exact hvalue
      · simp only [hprogress, ExprReader.finish, hparen] at hfinish
        cases hfinish

end ExprRun

theorem parseExpr_drawn {tokens : List Token} {e : Expr} (h : (parseExpr tokens).1 = .ok e) :
    e.Drawn (before tokens) := by
  have hstart : ExprRun.Drawn (before tokens) {} := by
    intro reader hreader
    cases hreader
    exact ExprReader.drawn_start
  exact ExprRun.drawn_finish (ExprRun.drawn_foldl hstart fun _ => counts_of_mem_body) h

/-! ## Programs -/

/-- A clause is drawn from the tokens. -/
def Clause.Drawn (ts : List Token) : Clause → Prop
  | thenBranch c => c.Drawn ts
  | elseBranch c s => c.Drawn ts ∧ s.Drawn ts
  | loopBody c => c.Drawn ts

/-- An open block is drawn from the tokens. -/
structure OpenBlock.Drawn (ts : List Token) (b : OpenBlock) : Prop where
  done : ∀ s ∈ b.done, s.Drawn ts
  around : ∀ c ∈ b.around, c.Drawn ts

/-- The use of an expression is drawn from the tokens. -/
def Use.Drawn (ts : List Token) : Use → Prop
  | initializer n => n.Drawn ts
  | value | statement | ifCondition | loopCondition => True

/-- A mode is drawn from the tokens. -/
def Mode.Drawn (ts : List Token) : Mode → Prop
  | initializer n => n.Drawn ts
  | expression use reader => use.Drawn ts ∧ reader.Drawn ts
  | maybeElse c s => c.Drawn ts ∧ s.Drawn ts
  | declaration | statement | variableName | ifHeader | loopHeader | skipping _ => True

/-- What a reader of programs holds is drawn from the tokens. -/
structure Reader.Drawn (ts : List Token) (r : Reader) : Prop where
  slots : ∀ s, some s ∈ r.slots → s.Drawn ts
  blocks : ∀ b ∈ r.blocks, b.Drawn ts
  clauses : ∀ c ∈ r.clauses, c.Drawn ts
  mode : r.mode.Drawn ts

namespace Reader

variable {r : Reader} {s : Stmt} {t : Placed}

theorem drawn_found (h : r.Drawn ts) (fs : List Fault) : Reader.Drawn ts { r with faults := fs } :=
  ⟨h.slots, h.blocks, h.clauses, h.mode⟩

theorem drawn_deliver (h : r.Drawn ts) (hs : s.Drawn ts) : (r.deliver s).Drawn ts := by
  rw [deliver]
  cases hr : r.blocks with
  | nil =>
    have hblocks : ∀ b ∈ r.blocks, b.Drawn ts := h.blocks
    rw [hr] at hblocks
    refine ⟨fun u hu => ?_, hblocks, List.forall_mem_nil _, trivial⟩
    rcases List.mem_cons.mp hu with hu | hu
    · cases hu
      exact hs
    · exact h.slots u hu
  | cons b bs =>
    have hblocks := h.blocks
    rw [hr] at hblocks
    obtain ⟨hb, hbs⟩ := List.forall_mem_cons.mp hblocks
    have hb' : OpenBlock.Drawn ts { b with done := s :: b.done } :=
      ⟨List.forall_mem_cons.mpr ⟨hs, hb.done⟩, hb.around⟩
    exact { h with
      blocks := List.forall_mem_cons.mpr ⟨hb', hbs⟩
      clauses := List.forall_mem_nil _
      mode := trivial }

theorem drawn_completeIn (h : r.Drawn ts) {cs : List Clause} (hcs : ∀ c ∈ cs, c.Drawn ts)
    (hs : s.Drawn ts) : (r.completeIn s cs).Drawn ts := by
  induction cs generalizing s with
  | nil => exact drawn_deliver h hs
  | cons c cs ih =>
    obtain ⟨hc, hrest⟩ := List.forall_mem_cons.mp hcs
    cases c with
    | thenBranch c => exact { h with clauses := hrest, mode := ⟨hc, hs⟩ }
    | elseBranch c u => exact ih hrest ⟨hc.1, hc.2, hs⟩
    | loopBody c => exact ih hrest ⟨hc, hs⟩

theorem drawn_complete (h : r.Drawn ts) (hs : s.Drawn ts) : (r.complete s).Drawn ts :=
  drawn_completeIn h h.clauses hs

theorem drawn_settle (h : r.Drawn ts) (hs : s.Drawn ts) : (r.settle s).Drawn ts := by
  have henclose : ∀ (cs : List Clause) {u : Stmt}, (∀ c ∈ cs, c.Drawn ts) → u.Drawn ts →
      (cs.foldl Clause.enclose u).Drawn ts := by
    intro cs
    induction cs with
    | nil => exact fun _ hu => hu
    | cons c cs ih =>
      intro u hcs hu
      obtain ⟨hc, hcs⟩ := List.forall_mem_cons.mp hcs
      refine ih hcs ?_
      cases c with
      | thenBranch c => exact ⟨hc, hu⟩
      | elseBranch c v => exact ⟨hc.1, hc.2, hu⟩
      | loopBody c => exact ⟨hc, hu⟩
  exact drawn_deliver h (henclose r.clauses h.clauses hs)

theorem drawn_fail (h : r.Drawn ts) (t : Placed) (cause : Cause) : (r.fail t cause).Drawn ts := by
  refine { h with slots := fun u hu => h.slots u ?_, clauses := nofun, mode := trivial }
  rw [fail] at hu
  dsimp only at hu
  split at hu
  · simpa using hu
  · exact hu

theorem drawn_completeUse (h : r.Drawn ts) {e : Expr} (he : e.Drawn ts) {use : Use}
    (hu : use.Drawn ts) : (r.completeUse e use).Drawn ts := by
  cases use with
  | value | statement => exact drawn_complete h he
  | initializer n => exact drawn_complete h ⟨hu, he⟩
  | ifCondition | loopCondition =>
    exact { h with clauses := List.forall_mem_cons.mpr ⟨he, h.clauses⟩, mode := trivial }

theorem drawn_readExpression (h : r.Drawn ts) {use : Use} (hu : use.Drawn ts)
    {reader : ExprReader} (hreader : reader.Drawn ts) (ht : t.Counts ts) :
    (r.readExpression use reader t).Drawn ts := by
  have hstep := ExprReader.drawn_read hreader ht
  rw [readExpression]
  cases hread : reader.read t with
  | next next fs =>
    rw [hread] at hstep
    exact ⟨h.slots, h.blocks, h.clauses, hu, hstep⟩
  | ended e fs =>
    rw [hread] at hstep
    dsimp only
    split_ifs
    · exact drawn_completeUse (drawn_found h _) hstep hu
    · exact drawn_fail (drawn_found h _) t _
  | failed cause fs => exact drawn_fail (drawn_found h _) t _

theorem TakesStatement.drawn {r' : Reader} (hr : TakesStatement t r r') (h : r.Drawn ts)
    (ht : t.Counts ts) : r'.Drawn ts := by
  cases hr with
  | print => exact { h with mode := ⟨trivial, ExprReader.drawn_start⟩ }
  | openBlock =>
    have hblock : OpenBlock.Drawn ts { around := r.clauses } := ⟨nofun, h.clauses⟩
    exact { h with
      blocks := List.forall_mem_cons.mpr ⟨hblock, h.blocks⟩, clauses := nofun, mode := trivial }
  | ifHeader | loopHeader => exact { h with mode := trivial }
  | expression =>
    have huse : Use.Drawn ts .statement := trivial
    exact drawn_readExpression h huse ExprReader.drawn_start ht

theorem TakesDeclaration.drawn {r' : Reader} (hr : TakesDeclaration t r r') (h : r.Drawn ts)
    (ht : t.Counts ts) : r'.Drawn ts := by
  cases hr with
  | variableName => exact { h with mode := trivial }
  | closeBlock _ hbs =>
    have hblocks := h.blocks
    rw [hbs] at hblocks
    obtain ⟨hb, hbs⟩ := List.forall_mem_cons.mp hblocks
    refine drawn_complete { h with blocks := hbs, clauses := hb.around } ?_
    exact Stmt.drawnAll_iff.mpr fun s hs => hb.done s (List.mem_reverse.mp hs)
  | statement hr => exact hr.drawn h ht

theorem Takes.drawn {r' : Reader} (hr : Takes t r r') (h : r.Drawn ts) (ht : t.Counts ts) :
    r'.Drawn ts := by
  have hmode := h.mode
  cases hr with
  | declaration _ hr => exact hr.drawn h ht
  | statement _ hr => exact hr.drawn h ht
  | named _ hk => exact { h with mode := ⟨t.toToken, ht (by simp [hk]), hk, rfl⟩ }
  | nameless | undeclared | ifOpen | loopOpen => exact drawn_fail h t _
  | initializer hm =>
    rw [hm] at hmode
    exact { h with mode := ⟨hmode, ExprReader.drawn_start⟩ }
  | declared hm =>
    rw [hm] at hmode
    exact drawn_complete h hmode
  | ifCondition | loopCondition => exact { h with mode := ⟨trivial, ExprReader.drawn_start⟩ }
  | expression hm =>
    rw [hm] at hmode
    exact drawn_readExpression h hmode.1 hmode.2 ht
  | elseBranch hm =>
    rw [hm] at hmode
    exact { h with clauses := List.forall_mem_cons.mpr ⟨hmode, h.clauses⟩, mode := trivial }
  | noElse hm hr =>
    rw [hm] at hmode
    exact hr.drawn (drawn_settle h hmode) ht
  | resumes _ _ hr => exact hr.drawn { h with mode := trivial } ht
  | skips => exact { h with mode := trivial }

theorem drawn_read (h : r.Drawn ts) (ht : t.Counts ts) : (r.read t).Drawn ts :=
  (r.takes t).drawn h ht

theorem drawn_foldl {ps : List Placed} (h : r.Drawn ts) (hps : ∀ t ∈ ps, t.Counts ts) :
    (ps.foldl read r).Drawn ts := by
  induction ps generalizing r with
  | nil => exact h
  | cons t ps ih =>
    obtain ⟨ht, hps⟩ := List.forall_mem_cons.mp hps
    exact ih (drawn_read h ht) hps

theorem drawn_closeBlocks (h : r.Drawn ts) (t : Placed) : (r.closeBlocks t).Drawn ts := by
  unfold closeBlocks
  split
  · exact h
  · exact ⟨fun u hu => h.slots u (by simpa using hu), nofun, h.clauses, h.mode⟩

theorem drawn_finish (h : r.Drawn ts) (ht : t.Counts ts) : (r.finish t).Drawn ts := by
  have hmode := h.mode
  cases hm : r.mode with
  | declaration | skipping latest =>
    simp only [finish, hm]
    exact drawn_closeBlocks h t
  | maybeElse c s =>
    rw [hm] at hmode
    have hs : Stmt.Drawn ts (.ifThen c s) := hmode
    simp only [finish, hm]
    exact drawn_closeBlocks (drawn_settle h hs) t
  | _ =>
    simp only [finish, hm]
    exact drawn_closeBlocks (drawn_read h ht) t

end Reader

/-- The trees of a program are drawn from the tokens that count, whatever faults there are. -/
theorem parse_drawn {tokens : List Token} {s : Stmt} (h : some s ∈ (parse tokens).slots) :
    s.Drawn (before tokens) := by
  have hstart : Reader.Drawn (before tokens) {} := ⟨nofun, nofun, nofun, trivial⟩
  have hrun := Reader.drawn_foldl hstart fun _ => counts_of_mem_body
  have hend : (ending tokens).Counts (before tokens) := fun hne => absurd (kind_ending tokens) hne
  exact (Reader.drawn_finish hrun hend).slots s (List.mem_reverse.mp h)

/-! ## Texts -/

/-- The trees of a text are drawn from its tokens. -/
theorem parse_scan_drawn {source : String} {s : Stmt}
    (h : some s ∈ (parse (Source.scan source).1).slots) : s.Drawn (Source.pieceTokens source) := by
  have hdrawn := parse_drawn h
  rwa [before, Source.before_scan] at hdrawn

theorem parseExpr_scan_drawn {source : String} {e : Expr}
    (h : (parseExpr (Source.scan source).1).1 = .ok e) : e.Drawn (Source.pieceTokens source) := by
  have hdrawn := parseExpr_drawn h
  rwa [before, Source.before_scan] at hdrawn

end Lox.Parse
