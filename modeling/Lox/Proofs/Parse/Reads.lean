import Lox.Proofs.Grammar.Else
import Lox.Proofs.Parse.Derives
import Lox.Proofs.Parse.ExprReads

/-!
# A derived program is read without a fault

* `Reader.Ends`: a statement has been read, up to an `if` that may still get an `else`;
* `Reader.Settles`: the declarations before have been read, up to such an `if`;
* `Reader.ends_of_statement`, `Reader.settles_of_declarations`: what derives is read;
* `parse_of_declarations`: the program that a derived token sequence makes up;
* the main result: the parser accepts exactly the grammar and builds exactly its trees.
-/

namespace Lox.Parse

open Token (Kind)
open Grammar

namespace Reader

variable {r : Reader}

/-! ## Statements that end -/

theorem deliver_of_mode (r : Reader) (m : Mode) (s : Stmt) :
    ({ r with mode := m } : Reader).deliver s = r.deliver s := by
  obtain ⟨slots, blocks, clauses, mode, faults⟩ := r
  cases blocks <;> rfl

theorem deliver_of_clauses (r : Reader) (cs : List Clause) (s : Stmt) :
    ({ r with clauses := cs } : Reader).deliver s = r.deliver s := by
  obtain ⟨slots, blocks, clauses, mode, faults⟩ := r
  cases blocks <;> rfl

theorem completeIn_of_mode (r : Reader) (m : Mode) (s : Stmt) (cs : List Clause) :
    ({ r with mode := m } : Reader).completeIn s cs = r.completeIn s cs := by
  induction cs generalizing s with
  | nil => exact r.deliver_of_mode m s
  | cons c cs ih =>
    cases c with
    | thenBranch c => rfl
    | elseBranch c t => exact ih _
    | loopBody c => exact ih _

theorem completeIn_of_clauses (r : Reader) (xs : List Clause) (s : Stmt) (cs : List Clause) :
    ({ r with clauses := xs } : Reader).completeIn s cs = r.completeIn s cs := by
  induction cs generalizing s with
  | nil => exact r.deliver_of_clauses xs s
  | cons c cs ih =>
    cases c with
    | thenBranch c => rfl
    | elseBranch c t => exact ih _
    | loopBody c => exact ih _

theorem completeUse_of_mode (r : Reader) (m : Mode) (e : Expr) (use : Use) :
    ({ r with mode := m } : Reader).completeUse e use = r.completeUse e use := by
  cases use with
  | value | statement | initializer => exact r.completeIn_of_mode m _ _
  | ifCondition | loopCondition => rfl

theorem foldl_deliver (r : Reader) (hc : r.clauses = []) (hm : r.mode = .declaration)
    (ss : List Stmt) : ss.foldl deliver r = match r.blocks with
      | [] => { r with slots := (ss.map some).reverse ++ r.slots }
      | b :: bs => { r with blocks := { b with done := ss.reverse ++ b.done } :: bs } := by
  obtain ⟨slots, blocks, clauses, mode, faults⟩ := r
  obtain rfl : clauses = [] := hc
  obtain rfl : mode = .declaration := hm
  induction ss generalizing slots blocks with
  | nil => cases blocks <;> rfl
  | cons s ss ih => cases blocks <;> simp [deliver, ih]

theorem mode_foldl_deliver {r : Reader} (ss : List Stmt) (hm : r.mode = .declaration) :
    (ss.foldl deliver r).mode = .declaration := by
  induction ss generalizing r with
  | nil => exact hm
  | cons s ss ih => exact ih (r.mode_deliver s)

/-- The reader `r'` follows `r` once the statement `s` has been read. An `if` at its end is left
open for an `else`. -/
def Ends (r : Reader) (s : Stmt) (r' : Reader) : Prop :=
  if s.endsOpen then
    ∃ c t cs, r' = { r with clauses := cs, mode := .maybeElse c t } ∧
      cs.foldl Clause.enclose (.ifThen c t) = r.clauses.foldl Clause.enclose s
  else r' = r.completeIn s r.clauses

/-- The reader `r'` holds what `r` does, or would if no `else` came. -/
def Settles (r r' : Reader) : Prop :=
  r' = r ∨ ∃ c t, r'.mode = .maybeElse c t ∧ r'.settle (.ifThen c t) = r

theorem Ends.settles {s : Stmt} {r' : Reader} (h : r.Ends s r') (hc : r.clauses = []) :
    (r.deliver s).Settles r' := by
  unfold Ends at h
  rw [hc] at h
  split at h
  · obtain ⟨c, t, cs, rfl, heq⟩ := h
    refine .inr ⟨c, t, rfl, ?_⟩
    rw [settle, heq, List.foldl_nil, deliver_of_mode { r with clauses := cs },
      deliver_of_clauses]
  · exact .inl h

theorem Ends.enclose (cl : Clause) {s : Stmt} {r' : Reader}
    (h : Ends { r with clauses := cl :: r.clauses, mode := .statement } s r') :
    r.Ends (cl.enclose s) r' := by
  unfold Ends at h
  split_ifs at h with ho
  · obtain ⟨c, t, cs, rfl, heq⟩ := h
    unfold Ends
    rw [if_pos (by cases cl <;> simp [Clause.enclose, Stmt.endsOpen, ho])]
    exact ⟨c, t, cs, rfl, heq⟩
  · subst h
    unfold Ends
    cases cl with
    | thenBranch c => exact ⟨c, s, r.clauses, rfl, rfl⟩
    | elseBranch c t | loopBody c =>
      rw [if_neg (by simpa [Clause.enclose, Stmt.endsOpen] using ho)]
      rw [completeIn_of_mode { r with clauses := _ :: r.clauses }, completeIn_of_clauses]
      rfl

theorem Settles.read {r' : Reader} {t : Placed} (h : r.Settles r') (hm : r.mode = .declaration)
    (ht : t.kind ≠ .elseKw) : r'.read t = r.read t := by
  obtain rfl | ⟨c, s, hm', hs⟩ := h
  · rfl
  · simp only [Reader.read, hm, hm', if_neg ht, hs]

theorem Settles.finish {r' : Reader} {t : Placed} (h : r.Settles r')
    (hm : r.mode = .declaration) : r'.finish t = r.closeBlocks t := by
  obtain rfl | ⟨c, s, hm', hs⟩ := h
  · simp only [Reader.finish, hm]
  · simp only [Reader.finish, hm', hs]

/-! ## Expressions -/

theorem foldl_read_of_reads {use : Use} {reader last : ExprReader} {ps : List Placed}
    (h : ExprReader.Reads reader ps last) (hm : r.mode = .expression use reader) :
    ps.foldl read r = { r with mode := .expression use last } := by
  induction h generalizing r with
  | nil => rw [← hm]; rfl
  | cons hread _ ih =>
    rw [List.foldl_cons, ih] <;> simp [read, hm, readExpression, hread]

theorem endsExpression_closer (use : Use) : ExprReader.endsExpression use.closer = true := by
  cases use <;> rfl

theorem readExpression_of_ended {use : Use} {reader : ExprReader} {e : Expr} {t : Placed}
    (h : reader.read t = .ended e []) (hk : t.kind = use.closer) :
    r.readExpression use reader t = r.completeUse e use := by
  simp [readExpression, h, hk]

theorem foldl_read_use (use : Use) {ts : List Token} {e : Expr} {ps : List Placed} {t : Placed}
    (h : Expression .assignment ts e) (hps : ps.map (·.toToken) = ts) (hk : t.kind = use.closer) :
    (ps ++ [t]).foldl read { r with mode := .expression use .start } = r.completeUse e use := by
  obtain ⟨reader, hreads, hend⟩ := ExprReader.ended_of_expression h hps
  rw [List.foldl_append, foldl_read_of_reads hreads rfl]
  have hended := hend t (hk ▸ endsExpression_closer use)
  simp only [List.foldl_cons, List.foldl_nil, read]
  rw [readExpression_of_ended hended hk, completeUse_of_mode, completeUse_of_mode]

/-- The reader is about to read a statement. -/
def Ready (r : Reader) : Prop := r.mode = .declaration ∨ r.mode = .statement

theorem Ready.read {t : Placed} (h : r.Ready) (hv : t.kind ≠ .varKw) (hb : t.kind ≠ .rightBrace) :
    r.read t = r.readStatement t := by
  rcases h with h | h <;> simp only [Reader.read, h]
  exact readDeclaration_of_ne hv hb

theorem readExpression_of_mode (r : Reader) (m : Mode) (use : Use) (reader : ExprReader)
    (t : Placed) : ({ r with mode := m } : Reader).readExpression use reader t =
      r.readExpression use reader t := by
  rw [readExpression, readExpression]
  cases reader.read t with
  | next | failed => rfl
  | ended e fs =>
    dsimp only
    rw [completeUse_of_mode { r with faults := fs.reverse ++ r.faults } m]
    rfl

theorem readStatement_of_first {t : Placed} (h : t.kind ∈ Expression.firstKinds) :
    r.readStatement t = r.readExpression .statement .start t := by
  unfold readStatement
  split <;> simp_all [Expression.firstKinds]

theorem foldl_read_statement {ts : List Token} {e : Expr} {ps : List Placed} {t : Placed}
    (hr : r.Ready) (h : Expression .assignment ts e) (hps : ps.map (·.toToken) = ts)
    (hk : t.kind = .semicolon) : (ps ++ [t]).foldl read r = r.complete (.expression e) := by
  have huse := foldl_read_use (r := r) .statement h hps hk
  obtain ⟨u, rest, rfl, hu⟩ := h.first
  obtain ⟨q, qs, rfl, rfl, -⟩ := List.map_eq_cons_iff.mp hps
  have hread : r.read q = ({ r with mode := .expression .statement .start } : Reader).read q := by
    have hv : q.kind ≠ .varKw := by intro hk; simp [hk, Expression.firstKinds] at hu
    have hb : q.kind ≠ .rightBrace := by intro hk; simp [hk, Expression.firstKinds] at hu
    rw [hr.read hv hb, readStatement_of_first hu, ← readExpression_of_mode]
    rfl
  rw [← show r.completeUse e .statement = r.complete (.expression e) from rfl, ← huse]
  simp only [List.cons_append, List.foldl_cons, hread]

/-! ## Statements and declarations -/

/-- A keyword with a condition in parentheses: what the condition is read for, and the clause that
they open. -/
inductive IsHeader : Kind → Use → (Expr → Clause) → Prop
  | ifThen : IsHeader .ifKw .ifCondition .thenBranch
  | loop : IsHeader .whileKw .loopCondition .loopBody

theorem foldl_read_header {k : Kind} {use : Use} {clause : Expr → Clause} {i l rp : Placed}
    {qs : List Placed} {us : List Token} {c : Expr} (h : IsHeader k use clause) (hr : r.Ready)
    (hi : i.kind = k) (hl : l.kind = .leftParen) (hc : Expression .assignment us c)
    (hqs : qs.map (·.toToken) = us) (hrp : rp.kind = .rightParen) :
    (i :: l :: (qs ++ [rp])).foldl read r =
      { r with clauses := clause c :: r.clauses, mode := .statement } := by
  have hread : (r.read i).read l = { r with mode := .expression use .start } := by
    cases h <;> rw [hr.read (by simp [hi]) (by simp [hi]), readStatement, hi] <;> simp [read, hl]
  have hcloser : rp.kind = use.closer := by cases h <;> exact hrp
  rw [List.foldl_cons, List.foldl_cons, hread, foldl_read_use _ hc hqs hcloser]
  cases h <;> rfl

theorem map_eq_header {ps : List Placed} {i l rp : Token} {us vs : List Token}
    (hps : ps.map (·.toToken) = i :: l :: (us ++ rp :: vs)) :
    ∃ i' l' qs rp' rs, ps = (i' :: l' :: (qs ++ [rp'])) ++ rs ∧ i = i'.toToken ∧
      l = l'.toToken ∧ qs.map (·.toToken) = us ∧ rp = rp'.toToken ∧
      rs.map (·.toToken) = vs := by
  obtain ⟨i', tail, rfl, rfl, h₁⟩ := List.map_eq_cons_iff.mp hps
  obtain ⟨l', tail, rfl, rfl, h₂⟩ := List.map_eq_cons_iff.mp h₁
  obtain ⟨qs, tail, rfl, hqs, h₃⟩ := List.map_eq_append_iff.mp h₂
  obtain ⟨rp', rs, rfl, rfl, hrs⟩ := List.map_eq_cons_iff.mp h₃
  exact ⟨i', l', qs, rp', rs, by simp, rfl, rfl, hqs, rfl, hrs⟩

theorem read_var {v n : Placed} (hm : r.mode = .declaration) (hv : v.kind = .varKw)
    (hn : n.kind = .identifier) :
    (r.read v).read n = { r with mode := .initializer ⟨n.lexeme, n.line⟩ } := by
  simp [read, hm, readDeclaration, hv, hn]

theorem read_leftBrace {t : Placed} (hr : r.Ready) (ht : t.kind = .leftBrace) : r.read t =
    { r with
      blocks := { around := r.clauses } :: r.blocks, clauses := [], mode := .declaration } := by
  rw [hr.read (by simp [ht]) (by simp [ht]), readStatement, ht]

theorem read_rightBrace {t : Placed} {b : OpenBlock} {bs : List OpenBlock}
    (hm : r.mode = .declaration) (hb : r.blocks = b :: bs) (ht : t.kind = .rightBrace) :
    r.read t = ({ r with blocks := bs } : Reader).completeIn (.block b.done.reverse) b.around := by
  simp only [read, hm, readDeclaration, ht, hb]
  rw [complete, completeIn_of_clauses { r with blocks := bs, mode := .declaration },
    completeIn_of_mode { r with blocks := bs }]

mutual

/-- A derived statement is read to its end. -/
theorem ends_of_statement : ∀ {ts : List Token} {s : Stmt}, Statement ts s → s.NearestElse →
    ∀ {r : Reader} {ps : List Placed}, r.Ready → ps.map (·.toToken) = ts →
      r.Ends s (ps.foldl read r)
  | _, _, .expression he ht, _, r, ps, hr, hps => by
    obtain ⟨qs, tail, rfl, hqs, htail⟩ := List.map_eq_append_iff.mp hps
    obtain ⟨t, rfl, rfl⟩ := List.map_eq_singleton_iff.mp htail
    exact foldl_read_statement hr he hqs ht
  | _, _, .print hp he ht, _, r, ps, hr, hps => by
    obtain ⟨p, tail, rfl, rfl, h₁⟩ := List.map_eq_cons_iff.mp hps
    obtain ⟨qs, tail, rfl, hqs, h₂⟩ := List.map_eq_append_iff.mp h₁
    obtain ⟨t, rfl, rfl⟩ := List.map_eq_singleton_iff.mp h₂
    have hread : r.read p = { r with mode := .expression .value .start } := by
      rw [hr.read (by simp [hp]) (by simp [hp]), readStatement, hp]
    rw [List.foldl_cons, hread, foldl_read_use _ he hqs ht]
    rfl
  | _, .block ss, .block hl hds hrb, hn, r, ps, hr, hps => by
    rw [Stmt.NearestElse] at hn
    obtain ⟨l, tail, rfl, rfl, h₁⟩ := List.map_eq_cons_iff.mp hps
    obtain ⟨qs, tail, rfl, hqs, h₂⟩ := List.map_eq_append_iff.mp h₁
    obtain ⟨rb, rfl, rfl⟩ := List.map_eq_singleton_iff.mp h₂
    rw [List.foldl_cons, read_leftBrace hr hl, List.foldl_append, List.foldl_cons, List.foldl_nil]
    have hs := settles_of_declarations hds hn
      (r := { r with
        blocks := { around := r.clauses } :: r.blocks, clauses := [], mode := .declaration })
      rfl rfl (.inl rfl) hqs
    rw [foldl_deliver _ rfl rfl] at hs
    rw [hs.read rfl (by simp [hrb]), read_rightBrace rfl rfl hrb, Ends,
      if_neg (by simp [Stmt.endsOpen]), List.append_nil, List.reverse_reverse]
    exact (completeIn_of_mode { r with clauses := [] } .declaration _ _).trans
      (completeIn_of_clauses r [] _ _)
  | _, .ifThen c s, .ifThen hi hl hc hrp hs, hn, r, ps, hr, hps => by
    rw [Stmt.NearestElse] at hn
    obtain ⟨i, l, qs, rp, rs, rfl, rfl, rfl, hqs, rfl, hrs⟩ := map_eq_header hps
    rw [List.foldl_append, foldl_read_header .ifThen hr hi hl hc hqs hrp]
    exact .enclose (.thenBranch c) (ends_of_statement hs hn (.inr rfl) hrs)
  | _, .ifElse c s t, .ifElse hi hl hc hrp hs hf ht, hn, r, ps, hr, hps => by
    rw [Stmt.NearestElse] at hn
    obtain ⟨i, l, qs, rp, tail, rfl, rfl, rfl, hqs, rfl, h₁⟩ := map_eq_header hps
    obtain ⟨rs, tail, rfl, hrs, h₂⟩ := List.map_eq_append_iff.mp h₁
    obtain ⟨f, xs, rfl, rfl, hxs⟩ := List.map_eq_cons_iff.mp h₂
    rw [List.foldl_append, foldl_read_header .ifThen hr hi hl hc hqs hrp, List.foldl_append,
      List.foldl_cons]
    -- The first branch ends in no open `if` that would take the `else`.
    have hthen := ends_of_statement hs hn.2.1 (.inr rfl) hrs
      (r := { r with clauses := .thenBranch c :: r.clauses, mode := .statement })
    rw [Ends, hn.1, if_neg Bool.false_ne_true] at hthen
    have helse : (completeIn { r with clauses := .thenBranch c :: r.clauses, mode := .statement } s
        (.thenBranch c :: r.clauses)).read f =
          { r with clauses := .elseBranch c s :: r.clauses, mode := .statement } := by
      simp [completeIn, read, hf]
    rw [hthen, helse]
    exact .enclose (.elseBranch c s) (ends_of_statement ht hn.2.2 (.inr rfl) hxs)
  | _, .loop c s, .loop hw hl hc hrp hs, hn, r, ps, hr, hps => by
    rw [Stmt.NearestElse] at hn
    obtain ⟨w, l, qs, rp, rs, rfl, rfl, rfl, hqs, rfl, hrs⟩ := map_eq_header hps
    rw [List.foldl_append, foldl_read_header .loop hr hw hl hc hqs hrp]
    exact .enclose (.loopBody c) (ends_of_statement hs hn (.inr rfl) hrs)

theorem settles_of_declaration : ∀ {ts : List Token} {s : Stmt}, Declaration ts s →
    s.NearestElse → ∀ {r : Reader} {ps : List Placed}, r.clauses = [] → r.mode = .declaration →
      ps.map (·.toToken) = ts → (r.deliver s).Settles (ps.foldl read r)
  | _, _, .plain hv hn ht, _, r, ps, hc, hm, hps => by
    obtain ⟨v, tail, rfl, rfl, h₁⟩ := List.map_eq_cons_iff.mp hps
    obtain ⟨n, tail, rfl, rfl, h₂⟩ := List.map_eq_cons_iff.mp h₁
    obtain ⟨t, rfl, rfl⟩ := List.map_eq_singleton_iff.mp h₂
    simp only [List.foldl_cons, List.foldl_nil, read_var hm hv hn]
    refine .inl ?_
    simp only [read, ht, complete, hc, completeIn]
    rw [← hc, deliver_of_mode]
  | _, _, .initialized hv hn hq he ht, _, r, ps, hc, hm, hps => by
    obtain ⟨v, tail, rfl, rfl, h₁⟩ := List.map_eq_cons_iff.mp hps
    obtain ⟨n, tail, rfl, rfl, h₂⟩ := List.map_eq_cons_iff.mp h₁
    obtain ⟨q, tail, rfl, rfl, h₃⟩ := List.map_eq_cons_iff.mp h₂
    obtain ⟨qs, tail, rfl, hqs, h₄⟩ := List.map_eq_append_iff.mp h₃
    obtain ⟨t, rfl, rfl⟩ := List.map_eq_singleton_iff.mp h₄
    have hequal : Reader.read { r with mode := .initializer ⟨n.lexeme, n.line⟩ } q =
        { r with mode := .expression (.initializer ⟨n.lexeme, n.line⟩) .start } := by
      simp only [read, hq]
    rw [List.foldl_cons, List.foldl_cons, List.foldl_cons, read_var hm hv hn, hequal,
      foldl_read_use _ he hqs ht]
    refine .inl ?_
    simp only [completeUse, complete, hc, completeIn]
  | _, _, .statement hs, hn, r, ps, hc, hm, hps =>
    (ends_of_statement hs hn (.inl hm) hps).settles hc

theorem settles_of_declarations : ∀ {ts : List Token} {ss : List Stmt}, Declarations ts ss →
    Stmt.NearestElseAll ss → ∀ {r r' : Reader} {ps : List Placed}, r.clauses = [] →
      r.mode = .declaration → r.Settles r' → ps.map (·.toToken) = ts →
      (ss.foldl deliver r).Settles (ps.foldl read r')
  | _, _, .nil, _, r, r', ps, _, _, hr, hps => by
    obtain rfl := List.map_eq_nil_iff.mp hps
    exact hr
  | _, _, .cons hd hds, hn, r, r', ps, hc, hm, hr, hps => by
    rw [Stmt.NearestElseAll] at hn
    obtain ⟨qs, rs, rfl, hqs, hrs⟩ := List.map_eq_append_iff.mp hps
    have hfirst : qs.foldl read r' = qs.foldl read r := by
      obtain ⟨t, rest, rfl, ht⟩ := hd.first
      obtain ⟨q, qs, rfl, rfl, -⟩ := List.map_eq_cons_iff.mp hqs
      rw [List.foldl_cons, List.foldl_cons, hr.read hm ht]
    rw [List.foldl_append, hfirst]
    have hone := settles_of_declaration hd hn.1 hc hm hqs
    exact settles_of_declarations hds hn.2 (clauses_deliver _ _) (mode_deliver _ _) hone hrs

end

end Reader

/-- **Completeness**: a derived program is read without a fault, each declaration in its slot. -/
theorem parse_of_declarations {tokens : List Token} {ss : List Stmt}
    (hds : Declarations (before tokens) ss) (hn : Stmt.NearestElseAll ss) :
    parse tokens = ⟨ss.map some, []⟩ := by
  have hs := Reader.settles_of_declarations hds hn rfl rfl (.inl rfl) (map_toToken_body tokens)
    (r := {})
  have hd := Reader.foldl_deliver {} rfl rfl ss
  rw [parse, hs.finish (Reader.mode_foldl_deliver ss rfl), hd]
  simp [Reader.closeBlocks]

/-- **The parser and the grammar**: there is no diagnostic exactly if the tokens before the end
derive, and the slots are then the one reading in which each `else` belongs to the nearest `if`. -/
theorem parse_iff_derives (tokens : List Token) :
    ((parse tokens).diagnostics = [] ↔ ∃ ss, Declarations (before tokens) ss) ∧
      ((parse tokens).diagnostics = [] ↔ ∃ ss, (parse tokens).slots = ss.map some ∧
        ∀ ss', Declarations (before tokens) ss' ∧ Stmt.NearestElseAll ss' ↔ ss' = ss) := by
  have hsound : (parse tokens).diagnostics = [] → ∃ ss, (parse tokens).slots = ss.map some ∧
      Declarations (before tokens) ss ∧ Stmt.NearestElseAll ss := by
    intro h
    exact declarations_of_parse (List.map_eq_nil_iff.mp h)
  have hclean : ∀ ss, Declarations (before tokens) ss → (parse tokens).diagnostics = [] := by
    intro ss hds
    obtain ⟨ss', hds', hn⟩ := hds.balance
    rw [parse_of_declarations hds' hn]
    rfl
  refine ⟨⟨?_, ?_⟩, ⟨?_, ?_⟩⟩
  · intro h
    obtain ⟨ss, -, hds, -⟩ := hsound h
    exact ⟨ss, hds⟩
  · rintro ⟨ss, hds⟩
    exact hclean ss hds
  · intro h
    obtain ⟨ss, hslots, hds, hn⟩ := hsound h
    refine ⟨ss, hslots, fun ss' => ⟨?_, ?_⟩⟩
    · rintro ⟨hds', hn'⟩
      rw [parse_of_declarations hds' hn'] at hslots
      exact (List.map_inj_right fun _ _ => Option.some.inj).mp hslots
    · rintro rfl
      exact ⟨hds, hn⟩
  · rintro ⟨ss, -, huniq⟩
    exact hclean ss ((huniq ss).mpr rfl).1

end Lox.Parse
