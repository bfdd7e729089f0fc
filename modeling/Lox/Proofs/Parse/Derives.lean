import Lox.Proofs.Grammar.Else
import Lox.Proofs.Parse.ExprDerives
import Lox.Proofs.Parse.Faults

/-!
# What a reader holds derives from what it has read

* `Waits`, `Inside`, `Used`, `Current`: the tokens that lead to clauses, open blocks, the use of
  an expression and a mode;
* `Reader.Spells`: the tokens that a reader without faults has read;
* `Reader.spells_read`: one more token, mode by mode;
* `Reader.declarations_of_finish`: at the end the tokens derive as the statements delivered.
-/

namespace Lox.Parse

open Token (Kind)
open Grammar

/-! ## Clauses -/

/-- The tokens `ts` lead to clauses that wait for a statement. -/
inductive Waits : List Clause → List Token → Prop
  | nil : Waits [] []
  | thenBranch {cs : List Clause} {ts us : List Token} {i l r : Token} {c : Expr} : Waits cs ts →
      i.kind = .ifKw → l.kind = .leftParen → Expression .assignment us c →
      r.kind = .rightParen → Waits (.thenBranch c :: cs) (ts ++ i :: l :: (us ++ [r]))
  | elseBranch {cs : List Clause} {ts us vs : List Token} {i l r f : Token} {c : Expr}
      {s : Stmt} : Waits cs ts → i.kind = .ifKw → l.kind = .leftParen →
      Expression .assignment us c → r.kind = .rightParen → Statement vs s → s.NearestElse →
      s.endsOpen = false → f.kind = .elseKw →
      Waits (.elseBranch c s :: cs) (ts ++ i :: l :: (us ++ r :: (vs ++ [f])))
  | loopBody {cs : List Clause} {ts us : List Token} {w l r : Token} {c : Expr} : Waits cs ts →
      w.kind = .whileKw → l.kind = .leftParen → Expression .assignment us c →
      r.kind = .rightParen → Waits (.loopBody c :: cs) (ts ++ w :: l :: (us ++ [r]))

theorem Waits.enclose {cl : Clause} {cs : List Clause} {ts us : List Token} {s : Stmt}
    (hw : Waits (cl :: cs) ts) (hs : Statement us s) (hn : s.NearestElse) :
    ∃ vs ws, ts ++ us = vs ++ ws ∧ Waits cs vs ∧ Statement ws (cl.enclose s) ∧
      (cl.enclose s).NearestElse := by
  cases hw with
  | thenBranch hw hi hl hc hr =>
    refine ⟨_, _, ?_, hw, .ifThen hi hl hc hr hs, by rwa [Clause.enclose, Stmt.NearestElse]⟩
    simp
  | elseBranch hw hi hl hc hr ht hm ho hf =>
    refine ⟨_, _, ?_, hw, .ifElse hi hl hc hr ht hf hs, by
      rw [Clause.enclose, Stmt.NearestElse]; exact ⟨ho, hm, hn⟩⟩
    simp
  | loopBody hw hk hl hc hr =>
    refine ⟨_, _, ?_, hw, .loop hk hl hc hr hs, by rwa [Clause.enclose, Stmt.NearestElse]⟩
    simp

theorem Waits.foldl_enclose {cs : List Clause} {ts us : List Token} {s : Stmt}
    (hw : Waits cs ts) (hs : Statement us s) (hn : s.NearestElse) :
    Statement (ts ++ us) (cs.foldl Clause.enclose s) ∧
      (cs.foldl Clause.enclose s).NearestElse := by
  induction cs generalizing ts us s with
  | nil =>
    cases hw
    exact ⟨hs, hn⟩
  | cons cl cs ih =>
    obtain ⟨vs, ws, heq, hw', hs', hn'⟩ := hw.enclose hs hn
    rw [heq]
    exact ih hw' hs' hn'

/-! ## Blocks, uses and modes -/

/-- The tokens `ts` lead to the slots of a program and its open blocks. -/
inductive Inside : List (Option Stmt) → List OpenBlock → List Token → Prop
  | nil {ts : List Token} {ss : List Stmt} : Declarations ts ss → Stmt.NearestElseAll ss →
      Inside (ss.map some).reverse [] ts
  | cons {slots : List (Option Stmt)} {bs : List OpenBlock} {b : OpenBlock}
      {ts us vs : List Token} {l : Token} : Inside slots bs ts → Waits b.around us →
      l.kind = .leftBrace → Declarations vs b.done.reverse →
      Stmt.NearestElseAll b.done.reverse → Inside slots (b :: bs) (ts ++ (us ++ l :: vs))

/-- The tokens `ts` lead to an expression read for a use. -/
inductive Used : List Clause → Use → List Token → Prop
  | value {cs : List Clause} {ts : List Token} {p : Token} : Waits cs ts → p.kind = .printKw →
      Used cs .value (ts ++ [p])
  | statement {cs : List Clause} {ts : List Token} : Waits cs ts → Used cs .statement ts
  | initializer {v n q : Token} : v.kind = .varKw → n.kind = .identifier → q.kind = .equal →
      Used [] (.initializer ⟨n.lexeme, n.line⟩) [v, n, q]
  | ifCondition {cs : List Clause} {ts : List Token} {i l : Token} : Waits cs ts →
      i.kind = .ifKw → l.kind = .leftParen → Used cs .ifCondition (ts ++ [i, l])
  | loopCondition {cs : List Clause} {ts : List Token} {w l : Token} : Waits cs ts →
      w.kind = .whileKw → l.kind = .leftParen → Used cs .loopCondition (ts ++ [w, l])

/-- The tokens `ts` lead to the clauses and the mode of a reader without faults. A declaration
has no clauses around it, so no variable is declared directly under an `if` or `while`. -/
inductive Current : List Clause → Mode → List Token → Prop
  | declaration : Current [] .declaration []
  | statement {cs : List Clause} {ts : List Token} : Waits cs ts → Current cs .statement ts
  | variableName {v : Token} : v.kind = .varKw → Current [] .variableName [v]
  | initializer {v n : Token} : v.kind = .varKw → n.kind = .identifier →
      Current [] (.initializer ⟨n.lexeme, n.line⟩) [v, n]
  | ifHeader {cs : List Clause} {ts : List Token} {i : Token} : Waits cs ts → i.kind = .ifKw →
      Current cs .ifHeader (ts ++ [i])
  | loopHeader {cs : List Clause} {ts : List Token} {w : Token} : Waits cs ts →
      w.kind = .whileKw → Current cs .loopHeader (ts ++ [w])
  | expression {cs : List Clause} {use : Use} {reader : ExprReader} {ts us : List Token} :
      Used cs use ts → reader.Spells us → Current cs (.expression use reader) (ts ++ us)
  | maybeElse {cs : List Clause} {c : Expr} {s : Stmt} {ts us : List Token} :
      Waits (.thenBranch c :: cs) ts → Statement us s → s.NearestElse → s.endsOpen = false →
      Current cs (.maybeElse c s) (ts ++ us)

theorem declarations_concat {us vs : List Token} {ss : List Stmt} {s : Stmt}
    (hds : Declarations us ss) (hd : Declaration vs s) : Declarations (us ++ vs) (ss ++ [s]) := by
  induction ss generalizing us with
  | nil =>
    cases hds
    simpa using Declarations.cons hd .nil
  | cons t ss ih =>
    cases hds with
    | cons ht hts => simpa using Declarations.cons ht (ih hts)

namespace Reader

/-- The tokens that a reader without faults has read. -/
def Spells (r : Reader) (ts : List Token) : Prop :=
  ∃ us vs, ts = us ++ vs ∧ Inside r.slots r.blocks us ∧ Current r.clauses r.mode vs

/-! ## Statements that end -/

variable {r : Reader} {us vs : List Token} {s : Stmt}

theorem inside_deliver (hb : Inside r.slots r.blocks us) (hd : Declaration vs s)
    (hn : s.NearestElse) : Inside (r.deliver s).slots (r.deliver s).blocks (us ++ vs) := by
  have hone : Stmt.NearestElseAll [s] := by simpa [Stmt.NearestElseAll] using hn
  obtain ⟨slots, blocks, clauses, mode, faults⟩ := r
  cases hb with
  | nil hds hns =>
    have h := Inside.nil (declarations_concat hds hd) (Stmt.nearestElseAll_append.mpr ⟨hns, hone⟩)
    simpa [deliver] using h
  | @cons _ bs b ts ws xs l hb hw hl hds hns =>
    have h := Inside.cons (b := { b with done := s :: b.done }) hb hw hl
      (by simpa using declarations_concat hds hd)
      (by simpa using Stmt.nearestElseAll_append.mpr ⟨hns, hone⟩)
    simpa [deliver] using h

@[simp] theorem clauses_deliver (r : Reader) (s : Stmt) : (r.deliver s).clauses = [] := by
  unfold deliver
  split <;> rfl

@[simp] theorem mode_deliver (r : Reader) (s : Stmt) : (r.deliver s).mode = .declaration := by
  unfold deliver
  split <;> rfl

theorem spells_deliver (hb : Inside r.slots r.blocks us) (hd : Declaration vs s)
    (hn : s.NearestElse) : (r.deliver s).Spells (us ++ vs) :=
  ⟨us ++ vs, [], (List.append_nil _).symm, inside_deliver hb hd hn, by simpa using .declaration⟩

/-- A statement that ends in no open `if` ends with the clauses around it, up to an `if` that
may still get its `else`. -/
theorem spells_completeIn {cs : List Clause} {ws : List Token} (hb : Inside r.slots r.blocks us)
    (hw : Waits cs vs) (hs : Statement ws s) (hn : s.NearestElse) (ho : s.endsOpen = false) :
    (r.completeIn s cs).Spells (us ++ (vs ++ ws)) := by
  induction cs generalizing vs ws s with
  | nil =>
    cases hw
    exact spells_deliver hb (.statement hs) hn
  | cons cl cs ih =>
    obtain ⟨xs, ys, heq, hw', hs', hn'⟩ := hw.enclose hs hn
    cases cl with
    | thenBranch c => exact ⟨us, vs ++ ws, rfl, hb, .maybeElse hw hs hn ho⟩
    | elseBranch c t =>
      rw [heq]
      exact ih hw' hs' hn' (by simpa [Clause.enclose, Stmt.endsOpen] using ho)
    | loopBody c =>
      rw [heq]
      exact ih hw' hs' hn' (by simpa [Clause.enclose, Stmt.endsOpen] using ho)

theorem inside_settle {c : Expr} {ws : List Token} (hb : Inside r.slots r.blocks us)
    (hw : Waits (.thenBranch c :: r.clauses) vs) (hs : Statement ws s) (hn : s.NearestElse) :
    Inside (r.settle (.ifThen c s)).slots (r.settle (.ifThen c s)).blocks (us ++ (vs ++ ws)) := by
  obtain ⟨hs', hn'⟩ := hw.foldl_enclose hs hn
  exact inside_deliver hb (.statement hs') hn'

/-! ## One more token -/

variable {t : Placed}

theorem spells_completeUse {use : Use} {ws : List Token} {e : Expr}
    (hb : Inside r.slots r.blocks us) (hu : Used r.clauses use vs)
    (he : Expression .assignment ws e) (hk : t.kind = use.closer) :
    (r.completeUse e use).Spells (us ++ (vs ++ ws ++ [t.toToken])) := by
  obtain ⟨slots, blocks, clauses, mode, faults⟩ := r
  cases hu with
  | @value _ ts p hw hp =>
    have h := spells_completeIn hb hw (.print hp he hk) (by simp [Stmt.NearestElse]) rfl
    simpa [completeUse, complete] using h
  | statement hw =>
    have h := spells_completeIn hb hw (.expression he hk) (by simp [Stmt.NearestElse]) rfl
    simpa [completeUse, complete] using h
  | @initializer v n q hv hn hq =>
    have hd := Declaration.initialized hv hn hq he hk
    have h := spells_deliver hb hd (by simp [Stmt.NearestElse])
    simpa [completeUse, complete, completeIn] using h
  | @ifCondition _ ts i l hw hi hl =>
    have h := Current.statement (Waits.thenBranch hw hi hl he hk)
    exact ⟨us, _, rfl, hb, by simpa [completeUse] using h⟩
  | @loopCondition _ ts w l hw hk' hl =>
    have h := Current.statement (Waits.loopBody hw hk' hl he hk)
    exact ⟨us, _, rfl, hb, by simpa [completeUse] using h⟩

theorem spells_readExpression {use : Use} {reader : ExprReader} {ws : List Token}
    (hb : Inside r.slots r.blocks us) (hu : Used r.clauses use vs) (hr : reader.Spells ws)
    (hf : (r.readExpression use reader t).faults = []) :
    (r.readExpression use reader t).Spells (us ++ (vs ++ ws ++ [t.toToken])) := by
  rw [readExpression] at hf ⊢
  cases hread : reader.read t with
  | next next fs =>
    simp only [hread] at hf ⊢
    obtain ⟨hfs, -⟩ := List.append_eq_nil_iff.mp hf
    obtain rfl := List.reverse_eq_nil_iff.mp hfs
    rw [List.append_assoc]
    exact ⟨us, _, rfl, hb, .expression hu (ExprReader.spells_read hr hread)⟩
  | ended e fs =>
    simp only [hread] at hf ⊢
    split_ifs at hf ⊢ with hk
    · rw [faults_completeUse] at hf
      obtain ⟨hfs, -⟩ := List.append_eq_nil_iff.mp hf
      obtain rfl := List.reverse_eq_nil_iff.mp hfs
      exact spells_completeUse hb hu (ExprReader.expression_of_ended hr hread) hk
    · exact absurd hf (List.cons_ne_nil _ _)
  | failed cause fs =>
    simp only [hread] at hf
    exact absurd hf (List.cons_ne_nil _ _)

theorem TakesStatement.spells {r' : Reader} (h : TakesStatement t r r')
    (hb : Inside r.slots r.blocks us) (hw : Waits r.clauses vs) (hf : r'.faults = []) :
    r'.Spells (us ++ (vs ++ [t.toToken])) := by
  cases h with
  | print hk =>
    have h := Current.expression (Used.value hw hk) ExprReader.spells_start
    exact ⟨us, _, rfl, hb, by simpa using h⟩
  | openBlock hk =>
    have h := Inside.cons (b := { around := r.clauses }) hb hw hk .nil
      (by simp [Stmt.NearestElseAll])
    exact ⟨_, [], (List.append_nil _).symm, h, .declaration⟩
  | ifHeader hk => exact ⟨us, _, rfl, hb, .ifHeader hw hk⟩
  | loopHeader hk => exact ⟨us, _, rfl, hb, .loopHeader hw hk⟩
  | expression =>
    have h := spells_readExpression hb (.statement hw) ExprReader.spells_start hf
    simpa using h

theorem TakesDeclaration.spells {r' : Reader} (h : TakesDeclaration t r r')
    (hb : Inside r.slots r.blocks us) (hc : r.clauses = []) (hf : r'.faults = []) :
    r'.Spells (us ++ [t.toToken]) := by
  obtain ⟨slots, blocks, clauses, mode, faults⟩ := r
  obtain rfl : clauses = [] := hc
  cases h with
  | variableName hk => exact ⟨us, _, rfl, hb, .variableName hk⟩
  | @closeBlock b bs hk hbs =>
    obtain rfl : blocks = b :: bs := hbs
    cases hb with
    | @cons _ _ _ ts ws xs l hb hw hl hds hns =>
      have h := spells_completeIn (r := { slots, blocks := bs, clauses := b.around, mode, faults })
        hb hw (.block hl hds hk) (by rwa [Stmt.NearestElse]) rfl
      simpa [complete] using h
  | statement h => exact h.spells hb .nil hf

theorem Takes.spells {r' : Reader} {ts : List Token} (h : Takes t r r') (hs : r.Spells ts)
    (hf : r'.faults = []) : r'.Spells (ts ++ [t.toToken]) := by
  obtain ⟨us, vs, rfl, hb, hc⟩ := hs
  obtain ⟨slots, blocks, clauses, mode, faults⟩ := r
  rw [List.append_assoc]
  -- What the token brings is told by the way it is taken, what it belongs to by what waits for it.
  cases h with
  | nameless | undeclared | ifOpen | loopOpen => exact absurd hf (List.cons_ne_nil _ _)
  | declaration hm h =>
    cases hm
    cases hc
    exact h.spells hb rfl hf
  | statement hm h =>
    cases hm
    cases hc with
    | statement hw => exact h.spells hb hw hf
  | named hm hk =>
    cases hm
    cases hc with
    | variableName hv => exact ⟨us, _, rfl, hb, .initializer hv hk⟩
  | initializer hm hk =>
    cases hm
    cases hc with
    | initializer hv hn =>
      have h := Current.expression (Used.initializer hv hn hk) ExprReader.spells_start
      exact ⟨us, _, rfl, hb, by simpa using h⟩
  | declared hm hk =>
    cases hm
    cases hc with
    | initializer hv hn => exact spells_deliver hb (.plain hv hn hk) (by simp [Stmt.NearestElse])
  | ifCondition hm hk =>
    cases hm
    cases hc with
    | ifHeader hw hi =>
      have h := Current.expression (Used.ifCondition hw hi hk) ExprReader.spells_start
      exact ⟨us, _, rfl, hb, by simpa using h⟩
  | loopCondition hm hk =>
    cases hm
    cases hc with
    | loopHeader hw hi =>
      have h := Current.expression (Used.loopCondition hw hi hk) ExprReader.spells_start
      exact ⟨us, _, rfl, hb, by simpa using h⟩
  | expression hm =>
    cases hm
    cases hc with
    | expression hu hr => exact spells_readExpression hb hu hr hf
  | elseBranch hm hk =>
    cases hm
    cases hc with
    | maybeElse hw hs hn ho =>
      cases hw with
      | thenBranch hw hi hl he hp =>
        have h := Current.statement (Waits.elseBranch hw hi hl he hp hs hn ho hk)
        exact ⟨us, _, rfl, hb, by simpa using h⟩
  | noElse hm h =>
    cases hm
    cases hc with
    | maybeElse hw hs hn ho =>
      have h := h.spells (inside_settle hb hw hs hn) (clauses_deliver _ _) hf
      simpa using h
  | resumes hm | skips hm =>
    cases hm
    cases hc

/-- One more token that brings no fault. -/
theorem spells_read {ts : List Token} (hs : r.Spells ts) (hf : (r.read t).faults = []) :
    (r.read t).Spells (ts ++ [t.toToken]) := (r.takes t).spells hs hf

theorem spells_foldl {ts : List Token} {ps : List Placed} (hs : r.Spells ts)
    (hf : (ps.foldl read r).faults = []) :
    (ps.foldl read r).Spells (ts ++ ps.map (·.toToken)) := by
  induction ps generalizing r ts with
  | nil => simpa using hs
  | cons t ps ih =>
    have hread : (r.read t).faults = [] := by
      have h := (r.read t).faults_foldl ps
      rw [List.foldl_cons] at hf
      rwa [hf, List.suffix_nil] at h
    simpa using ih (spells_read hs hread) hf

/-! ## The end of the program -/

theorem declarations_of_closeBlocks {ts : List Token} (hb : Inside r.slots r.blocks ts)
    (hf : (r.closeBlocks t).faults = []) :
    ∃ ss, (r.closeBlocks t).slots = (ss.map some).reverse ∧ Declarations ts ss ∧
      Stmt.NearestElseAll ss := by
  obtain ⟨slots, blocks, clauses, mode, faults⟩ := r
  cases hb with
  | @nil _ ss hds hns => exact ⟨ss, rfl, hds, hns⟩
  | cons => exact absurd hf (by simp [closeBlocks])

theorem faults_readExpression_end {use : Use} {reader : ExprReader} (hend : t.kind = .eof) :
    (r.readExpression use reader t).faults ≠ [] := by
  rw [readExpression]
  cases hread : reader.read t with
  | next next fs =>
    exact absurd hread (ExprReader.read_ne_next (by simp [hend, ExprReader.foreignKinds]))
  | ended e fs =>
    have hne : t.kind ≠ use.closer := by cases use <;> simp [hend, Use.closer]
    dsimp only
    rw [if_neg hne]
    exact List.cons_ne_nil _ _
  | failed cause fs => exact List.cons_ne_nil _ _

/-- The end of the tokens is a fault unless a declaration may begin there. -/
theorem faults_read_end (hend : t.kind = .eof) (hs : ∀ k, r.mode ≠ .skipping k)
    (hd : r.mode ≠ .declaration) (hm : ∀ c s, r.mode ≠ .maybeElse c s) :
    (r.read t).faults ≠ [] := by
  cases hmode : r.mode with
  | declaration => exact absurd hmode hd
  | maybeElse c s => exact absurd hmode (hm c s)
  | skipping latest => exact absurd hmode (hs latest)
  | statement =>
    simp only [read, hmode, readStatement, hend]
    exact faults_readExpression_end hend
  | expression use reader =>
    simp only [read, hmode]
    exact faults_readExpression_end hend
  | variableName | initializer | ifHeader | loopHeader => simp [read, hmode, hend, faults_fail]

/-- **A reading without faults is a derivation**: the tokens read derive as the statements
delivered, each `else` at the nearest `if`. -/
theorem declarations_of_finish {ts : List Token} (hs : r.Spells ts) (hend : t.kind = .eof)
    (hf : (r.finish t).faults = []) :
    ∃ ss, (r.finish t).slots = (ss.map some).reverse ∧ Declarations ts ss ∧
      Stmt.NearestElseAll ss := by
  obtain ⟨us, vs, rfl, hb, hc⟩ := hs
  obtain ⟨slots, blocks, clauses, mode, faults⟩ := r
  have hread (hm : (read ⟨slots, blocks, clauses, mode, faults⟩ t).faults ≠ [])
      (hf : (closeBlocks (read ⟨slots, blocks, clauses, mode, faults⟩ t) t).faults = []) :
      False := by
    have h := (read ⟨slots, blocks, clauses, mode, faults⟩ t).faults_closeBlocks t
    rw [hf, List.suffix_nil] at h
    exact hm h
  cases hc with
  | declaration =>
    rw [List.append_nil]
    exact declarations_of_closeBlocks hb hf
  | maybeElse hw hs hn ho => exact declarations_of_closeBlocks (inside_settle hb hw hs hn) hf
  | _ => exact (hread (faults_read_end hend nofun nofun nofun) hf).elim

end Reader

/-! ## Programs -/

theorem spells_initial : Reader.Spells {} [] :=
  ⟨[], [], rfl, .nil (.nil : Declarations [] []) trivial, .declaration⟩

theorem map_toToken_body (tokens : List Token) :
    (body tokens).map (·.toToken) = before tokens := by
  rw [body, List.map_map]
  exact List.zipIdx_map_fst 0 (before tokens)

theorem kind_ending (tokens : List Token) : (ending tokens).kind = .eof := by
  unfold ending
  cases h : tokens.find? (·.isEnd) with
  | none => rfl
  | some t => simpa [Token.isEnd] using List.find?_some h

theorem statements?_of_slots {p : Program} {ss : List Stmt} (h : p.slots = ss.map some) :
    p.statements? = some ss := by
  rw [Program.statements?, h]
  clear h
  induction ss with
  | nil => rfl
  | cons s ss ih => simp [ih]

/-- **Soundness**: a program without faults derives from the tokens that count. -/
theorem declarations_of_parse {tokens : List Token} (hf : (parse tokens).faults = []) :
    ∃ ss, (parse tokens).slots = ss.map some ∧ Declarations (before tokens) ss ∧
      Stmt.NearestElseAll ss := by
  have hfin := List.reverse_eq_nil_iff.mp hf
  have hrun : ((body tokens).foldl Reader.read {}).faults = [] := by
    have h := ((body tokens).foldl Reader.read {}).faults_finish (ending tokens)
    rwa [hfin, List.suffix_nil] at h
  have hs := Reader.spells_foldl spells_initial hrun
  rw [List.nil_append, map_toToken_body] at hs
  obtain ⟨ss, hslots, hds, hn⟩ := Reader.declarations_of_finish hs (kind_ending tokens) hfin
  exact ⟨ss, by rw [parse, hslots, List.reverse_reverse], hds, hn⟩

end Lox.Parse
