import Lox.Proofs.Descent.Programs

/-!
# Programs of one statement

What stands around the expression of a statement decides nothing about the expression: the first
token that does not belong to it ends it, and if that is not the semicolon at the end of the
program, a further declaration or a gap follows.

* `rest_foldl`, `gap_of_abandon`, `rest_complete`: several tokens, a declaration that is given up,
  and a statement that has been read;
* `ended_of_single`, `rest_eq_single_iff`: the tokens behind some place are all of one statement
  exactly if they make up its expression;
* `parse_eq_expression_iff`, `parse_eq_print_iff`, `parse_eq_declare_iff`: the three statements.
-/

namespace Lox.Descent

open Token (Kind)
open Parse (Placed Fault Use ExprReader Reader Spans body openers)

variable {tokens : List Token} {r : Reader} {use : Use} {reader last : ExprReader}
  {ps qs us : List Placed} {t : Placed} {s : Stmt} {fs gs : List Fault} {p q : Nat} {e : Expr}
  {make : Expr → Stmt}

/-! ## The tokens around -/

theorem rest_foldl (h : (body tokens).drop p = qs ++ us) (r : Reader) :
    rest tokens r p = rest tokens (qs.foldl Reader.read r) (p + qs.length) ∧
      (body tokens).drop (p + qs.length) = us := by
  have hdrop : (body tokens).drop (p + qs.length) = us := by
    rw [← List.drop_drop, h, List.drop_left]
  refine ⟨?_, hdrop⟩
  rw [rest, rest, hdrop, h, List.foldl_append]

theorem current_of_drop (h : (body tokens).drop p = t :: us) :
    p < size tokens ∧ current tokens p = t ∧ (body tokens).drop (p + 1) = us := by
  have hlt : p < size tokens := by
    rw [size, ← Parse.length_body]
    by_contra hge
    rw [List.drop_eq_nil_of_le (Nat.le_of_not_lt hge)] at h
    cases h
  rw [drop_body hlt] at h
  obtain ⟨ht, hus⟩ := List.cons.inj h
  exact ⟨hlt, ht, hus⟩

theorem exists_collected (hp : p ≤ size tokens) (hmode : r.mode = .declaration)
    (hclauses : r.clauses = []) (hblocks : r.blocks = []) : ∃ slots q fs,
      Collects tokens p slots q fs ∧
        rest tokens r p = ⟨r.slots.reverse ++ slots, r.faults.reverse ++ fs⟩ := by
  obtain ⟨slots, q, fs, h⟩ := exists_collects hp
  exact ⟨slots, q, fs, h, h.follows hp hmode hclauses hblocks⟩

theorem gap_of_abandon (hp : p < size tokens) (hblocks : r.blocks = []) (fs : List Fault) :
    ∃ slots, (rest tokens (r.abandon fs (kind tokens p)) (p + 1)).slots =
      r.slots.reverse ++ none :: slots := by
  obtain ⟨q, hq⟩ := exists_boundary (Nat.succ_le_of_lt hp)
  have hskip : rest tokens (r.abandon fs (kind tokens p)) (p + 1) =
      rest tokens { r.abandon fs (kind tokens p) with mode := .declaration } q :=
    hq.follows (Nat.succ_le_of_lt hp) (r.abandon fs (kind tokens p)) fun _ => rfl
  obtain ⟨slots, q', gs, -, hrest⟩ := exists_collected (hq.bounds (Nat.succ_le_of_lt hp)).2
    (r := { r.abandon fs (kind tokens p) with mode := .declaration }) rfl rfl hblocks
  refine ⟨slots, ?_⟩
  rw [hskip, hrest]
  simp [Reader.abandon, hblocks]

/-! ## One statement -/

theorem rest_complete (hp : p ≤ size tokens) (s : Stmt) (fs : List Fault) : ∃ slots q gs,
    Collects tokens p slots q gs ∧
      rest tokens ((({} : Reader).found fs).complete s) p = ⟨some s :: slots, fs ++ gs⟩ := by
  obtain ⟨slots, q, gs, h, hrest⟩ := exists_collected hp
    (r := (({} : Reader).found fs).complete s) rfl rfl rfl
  refine ⟨slots, q, gs, h, hrest.trans ?_⟩
  rw [Reader.faults_complete]
  simp [Reader.found, Reader.complete, Reader.completeIn, Reader.deliver]

/-- If what follows an expression is all of one statement, the first token that does not belong to
the expression ends it and is the last. -/
theorem ended_of_single (hread : ExprReader.start.walk qs = some (last, gs))
    (hstop : ∀ next fs, last.read t ≠ .next next fs)
    (hmake : ∀ (r : Reader) (e : Expr), r.completeUse e use = r.complete (make e))
    (hbody : (body tokens).drop p = qs ++ t :: us)
    (h : rest tokens (({} : Reader).reading use .start) p = ⟨[some s], fs⟩) :
    us = [] ∧ ∃ e hs, last.read t = .ended e hs ∧ s = make e ∧ fs = gs ++ hs := by
  obtain ⟨hrest, hdrop⟩ := rest_foldl hbody (({} : Reader).reading use .start)
  obtain ⟨hlt, hcurrent, hus⟩ := current_of_drop hdrop
  rw [hrest, foldl_reading hread, rest_of_lt hlt, hcurrent] at h
  have hgap : ∀ fs', rest tokens ((({} : Reader).found gs).abandon fs' t.kind)
      (p + qs.length + 1) ≠ ⟨[some s], fs⟩ := by
    intro fs' heq
    obtain ⟨slots, hslots⟩ := gap_of_abandon hlt (r := ({} : Reader).found gs) rfl fs'
    rw [kind, hcurrent, heq] at hslots
    cases hslots
  cases hstep : last.read t with
  | next next fs => exact absurd hstep (hstop next fs)
  | failed cause hs =>
    rw [Reader.read_of_failed _ hstep] at h
    exact absurd h (hgap _)
  | ended e hs =>
    by_cases hk : t.kind = use.closer
    · rw [Reader.read_of_ended _ hstep hk, hmake] at h
      -- one more declaration would be a second slot
      obtain ⟨slots, q, fs', hcollects, hmore⟩ :=
        rest_complete (Nat.succ_le_of_lt hlt) (make e) (gs ++ hs)
      rw [Reader.found_found, hmore] at h
      cases h
      cases hcollects with
      | ended hend =>
        have hsize : p + qs.length + 1 = size tokens := eq_size (Nat.succ_le_of_lt hlt) hend
        rw [hsize, size, ← Parse.length_body, List.drop_length] at hus
        exact ⟨hus.symm, e, hs, rfl, rfl, List.append_nil _⟩
    · rw [Reader.read_of_not_ended _ hstep hk] at h
      exact absurd h (hgap _)

/-- The tokens behind some place are all of one statement exactly if they make up its expression,
up to the semicolon at the end. -/
theorem rest_eq_single_iff (hcloser : use.closer = .semicolon)
    (hmake : ∀ (r : Reader) (e : Expr), r.completeUse e use = r.complete (make e))
    (hbody : (body tokens).drop p = ps ++ [t]) (ht : t.kind = .semicolon) :
    rest tokens (({} : Reader).reading use .start) p = ⟨[some s], fs⟩ ↔
      ∃ e, s = make e ∧ Spans ps e fs := by
  have hends : ExprReader.endsExpression t.kind = true := by
    rw [ht]
    rfl
  constructor
  · intro h
    cases hwalk : ExprReader.start.walk ps with
    | none =>
      obtain ⟨qs, u, us, last, gs, rfl, hread, hstop⟩ := ExprReader.exists_stop hwalk
      rw [List.append_assoc] at hbody
      obtain ⟨hnil, -⟩ := ended_of_single hread hstop hmake hbody h
      simp at hnil
    | some out =>
      obtain ⟨last, gs⟩ := out
      obtain ⟨-, e, hs, hread, hs', rfl⟩ := ended_of_single hwalk
        (fun _ _ => ExprReader.read_ne_next (by simp [ht, ExprReader.foreignKinds])) hmake hbody h
      exact ⟨e, hs', last, gs, hs, hwalk, (ExprReader.read_eq_ended_iff hends).mp hread, rfl⟩
  · rintro ⟨e, rfl, last, gs, hs, hwalk, hfinish, rfl⟩
    obtain ⟨hrest, hdrop⟩ := rest_foldl hbody (({} : Reader).reading use .start)
    obtain ⟨hlt, hcurrent, hus⟩ := current_of_drop hdrop
    have hread := (ExprReader.read_eq_ended_iff hends).mpr hfinish
    rw [hrest, foldl_reading hwalk, rest_of_lt hlt, hcurrent,
      Reader.read_of_ended _ hread (ht.trans hcloser.symm), hmake, Reader.found_found]
    obtain ⟨slots, q, fs, hcollects, hmore⟩ :=
      rest_complete (Nat.succ_le_of_lt hlt) (make e) (gs ++ hs)
    rw [hmore]
    cases hcollects with
    | ended => rw [List.append_nil]
    | next hne =>
      have hlt' := lt_size (Nat.succ_le_of_lt hlt) hne
      rw [size, ← Parse.length_body] at hlt'
      exact absurd hus (List.ne_nil_of_length_pos (by rw [List.length_drop]; omega))

/-! ## Three contexts -/

theorem Parses.exists_block {done : List Stmt}
    (h : Parses tokens (.block done) p (some s) q fs) : ∃ ss, s = .block ss := by
  generalize htask : Task.block done = task, hout : some s = out at h
  induction h generalizing done with
  | closed => exact ⟨_, Option.some.inj hout⟩
  | missing => cases hout
  | next _ _ _ _ ih => exact ih rfl hout
  | _ => cases htask

theorem Parses.kind_of_expression
    (h : Parses tokens .declaration p (some (.expression e)) q fs) : kind tokens p ∉ openers := by
  cases h with
  | succeeds h =>
    generalize hout : some (Stmt.expression e) = out at h
    cases h with
    | nameless | unended | declared => cases hout
    | initialized =>
      obtain ⟨_, _, heq⟩ := Option.map_eq_some_iff.mp hout.symm
      cases heq
    | undeclared hvar h =>
      cases h with
      | block _ h =>
        subst hout
        obtain ⟨_, heq⟩ := h.exists_block
        cases heq
      | expression hk => exact List.not_mem_cons_of_ne_of_not_mem hvar hk
      | print | ifElse | loop =>
        obtain ⟨_, _, heq⟩ := Option.map_eq_some_iff.mp hout.symm
        cases heq
      | _ => cases hout

theorem parse_eq_expression_iff (hbody : body tokens = ps ++ [t]) (ht : t.kind = .semicolon) :
    Parse.parse tokens = ⟨[some (.expression e)], fs⟩ ↔ Spans ps e fs := by
  have hfirst : kind tokens 0 ∉ openers → (Parse.parse tokens = ⟨[some (.expression e)], fs⟩ ↔
      Spans ps e fs) := by
    intro hk
    obtain ⟨hvar, hk⟩ := List.ne_and_not_mem_of_not_mem_cons hk
    have hlt : 0 < size tokens := by
      rw [size, ← Parse.length_body, hbody, List.length_append]
      exact Nat.succ_pos _
    have hat : AtStatement tokens {} 0 := .inr ⟨rfl, hlt, hvar, fun _ => rfl⟩
    have hparse : Parse.parse tokens = rest tokens {} 0 := rfl
    rw [hparse, rest_expression hat (Nat.zero_le _) hk,
      rest_eq_single_iff (p := 0) rfl (fun _ _ => rfl) hbody ht]
    simp
  constructor
  · intro h
    obtain ⟨slots, q, gs, hcollects⟩ := exists_collects (Nat.zero_le (size tokens))
    have hparse := hcollects.parse
    rw [h] at hparse
    cases hparse
    cases hcollects with
    | next _ hdeclaration _ => exact (hfirst hdeclaration.kind_of_expression).mp h
  · intro h
    obtain ⟨u, us, rfl, hu⟩ := h.exists_cons
    obtain ⟨-, hcurrent, -⟩ := current_of_drop (p := 0) hbody
    refine (hfirst ?_).mpr h
    rwa [kind, hcurrent]

theorem parse_eq_print_iff {k : Placed} (hbody : body tokens = k :: (ps ++ [t]))
    (hk : k.kind = .printKw) (ht : t.kind = .semicolon) :
    Parse.parse tokens = ⟨[some (.print e)], fs⟩ ↔ Spans ps e fs := by
  have hbody : (body tokens).drop 0 = [k] ++ (ps ++ [t]) := hbody
  obtain ⟨hrest, hdrop⟩ := rest_foldl hbody {}
  have hread : [k].foldl Reader.read {} = ({} : Reader).reading .value .start := by
    simp only [List.foldl_cons, List.foldl_nil, Reader.read, Reader.readDeclaration,
      Reader.readStatement, hk]
    rfl
  have hparse : Parse.parse tokens = rest tokens {} 0 := rfl
  rw [hparse, hrest, hread, rest_eq_single_iff rfl (fun _ _ => rfl) hdrop ht]
  simp

theorem parse_eq_declare_iff {v x q : Placed} (hbody : body tokens = v :: x :: q :: (ps ++ [t]))
    (hv : v.kind = .varKw) (hx : x.kind = .identifier) (hq : q.kind = .equal)
    (ht : t.kind = .semicolon) :
    Parse.parse tokens = ⟨[some (.declare ⟨x.lexeme, x.line⟩ (some e))], fs⟩ ↔ Spans ps e fs := by
  have hbody : (body tokens).drop 0 = [v, x, q] ++ (ps ++ [t]) := hbody
  obtain ⟨hrest, hdrop⟩ := rest_foldl hbody {}
  have hread : [v, x, q].foldl Reader.read {} =
      ({} : Reader).reading (.initializer ⟨x.lexeme, x.line⟩) .start := by
    simp only [List.foldl_cons, List.foldl_nil, Reader.read, Reader.readDeclaration, hv, hx, hq,
      if_true]
    rfl
  have hparse : Parse.parse tokens = rest tokens {} 0 := rfl
  rw [hparse, hrest, hread, rest_eq_single_iff rfl (fun _ _ => rfl) hdrop ht]
  simp

end Lox.Descent
