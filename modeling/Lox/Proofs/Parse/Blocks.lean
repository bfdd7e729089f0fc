import Lox.Proofs.Parse.Braces
import Lox.Source.Scan

/-!
# Blocks

A block is closed by the partner of the brace that opens it, whatever is wrong inside it, unless
recovery passes over braces.

* `Reader.Inside`, `Reader.Closed`, `Reader.Inside.takes`: a block stays open until its end is read;
* `Reader.Closes`: the block that has just been opened stays open up to a token that closes it;
* `IsPartner`, `exists_partner`: the partner of a brace;
* `missingBraces`: how often a program misses the end of a block;
* the main result: `blocks_follow_braces`, with a block that loses its brace
  (`exists_brace_passed`).
-/

namespace Lox.Parse

open Token (Kind)

namespace Reader

variable {o r r' q : Reader} {t c : Placed} {ts inner : List Placed}

/-- In `q` a block is open that `o` lies right around. -/
structure Inside (o q : Reader) : Prop where
  blocks : ∃ within b, q.blocks = within ++ b :: o.blocks ∧ b.around = o.clauses
  slots : q.slots = o.slots

/-- The block has been read, as a statement. -/
def Closed (o q : Reader) : Prop :=
  ∃ done faults, q = { o with faults := faults }.complete (.block done)

theorem Inside.lt_length (h : Inside o q) : o.blocks.length < q.blocks.length := by
  obtain ⟨within, b, hblocks, -⟩ := h.blocks
  rw [hblocks, List.length_append, List.length_cons]
  omega

theorem Closed.length_eq (h : Closed o q) : q.blocks.length = o.blocks.length := by
  obtain ⟨done, faults, rfl⟩ := h
  exact blocks_completeIn _ _ _

theorem complete_mode (r : Reader) (m : Mode) (s : Stmt) :
    { r with mode := m }.complete s = r.complete s := by
  have hin : ∀ (cs : List Clause) (s : Stmt),
      { r with mode := m }.completeIn s cs = r.completeIn s cs := by
    intro cs
    induction cs with
    | nil =>
      intro s
      simp only [completeIn, deliver]
    | cons c cs ih => cases c <;> intro s <;> simp only [completeIn, ih]
  exact hin r.clauses s

theorem Inside.deliver (h : Inside o q) (s : Stmt) : Inside o (q.deliver s) := by
  obtain ⟨⟨within, b, hblocks, haround⟩, hslots⟩ := h
  cases within with
  | nil =>
    rw [Reader.deliver, hblocks]
    exact ⟨⟨[], { b with done := s :: b.done }, rfl, haround⟩, hslots⟩
  | cons b' within =>
    rw [Reader.deliver, hblocks]
    exact ⟨⟨{ b' with done := s :: b'.done } :: within, b, rfl, haround⟩, hslots⟩

theorem Inside.completeIn (h : Inside o q) (s : Stmt) (cs : List Clause) :
    Inside o (q.completeIn s cs) := by
  induction cs generalizing s with
  | nil => exact h.deliver s
  | cons clause cs ih =>
    cases clause with
    | thenBranch e => exact ⟨h.blocks, h.slots⟩
    | elseBranch e u => exact ih _
    | loopBody e => exact ih _

theorem Inside.completeUse (h : Inside o q) (e : Expr) (use : Use) :
    Inside o (q.completeUse e use) := by
  cases use with
  | value | statement | initializer name => exact h.completeIn _ _
  | ifCondition | loopCondition => exact ⟨h.blocks, h.slots⟩

theorem Inside.fail (h : Inside o q) (t : Placed) (cause : Cause) : Inside o (q.fail t cause) := by
  have hsome : q.blocks.isEmpty = false := by
    obtain ⟨within, b, hblocks, -⟩ := h.blocks
    simp [hblocks]
  refine ⟨h.blocks, ?_⟩
  rw [Reader.fail, hsome]
  exact h.slots

theorem Inside.readExpression (h : Inside o q) (use : Use) (reader : ExprReader) (t : Placed) :
    Inside o (q.readExpression use reader t) := by
  have hfaults : ∀ fs, Inside o { q with faults := fs } := fun fs => ⟨h.blocks, h.slots⟩
  rw [Reader.readExpression]
  cases reader.read t with
  | next next fs => exact ⟨h.blocks, h.slots⟩
  | ended e fs =>
    dsimp only
    split_ifs
    · exact (hfaults _).completeUse e use
    · exact (hfaults _).fail t _
  | failed cause fs => exact (hfaults _).fail t cause

theorem Inside.takesStatement (h : Inside o q) (htakes : TakesStatement t q r') : Inside o r' := by
  cases htakes with
  | print hk | ifHeader hk | loopHeader hk => exact ⟨h.blocks, h.slots⟩
  | openBlock hk =>
    obtain ⟨⟨within, b, hblocks, haround⟩, hslots⟩ := h
    exact ⟨⟨_ :: within, b, congrArg _ hblocks, haround⟩, hslots⟩
  | expression => exact h.readExpression _ _ _

theorem Inside.takesDeclaration (h : Inside o q) (htakes : TakesDeclaration t q r') :
    Inside o r' ∨ Closed o r' := by
  cases htakes with
  | variableName hk => exact .inl ⟨h.blocks, h.slots⟩
  | statement htakes => exact .inl (h.takesStatement htakes)
  | @closeBlock b bs hk hbs =>
    obtain ⟨⟨within, b', hblocks, haround⟩, hslots⟩ := h
    cases within with
    | nil =>
      -- The innermost block is the one in question.
      obtain ⟨rfl, rfl⟩ := List.cons.inj (hbs.symm.trans hblocks)
      refine .inr ⟨b.done.reverse, q.faults, ?_⟩
      rw [haround, ← complete_mode { o with faults := q.faults } q.mode, ← hslots]
    | cons b'' within =>
      obtain ⟨rfl, rfl⟩ := List.cons.inj (hbs.symm.trans hblocks)
      have hinside : Inside o { q with blocks := within ++ b' :: o.blocks, clauses := b.around } :=
        ⟨⟨within, b', rfl, haround⟩, hslots⟩
      exact .inl (hinside.completeIn _ _)

/-- With one more token the block stays open, unless that is its end. -/
theorem Inside.takes (h : Inside o q) (htakes : Takes t q r') : Inside o r' ∨ Closed o r' := by
  have hmode : ∀ m, Inside o { q with mode := m } := fun m => ⟨h.blocks, h.slots⟩
  cases htakes with
  | declaration _ htakes => exact h.takesDeclaration htakes
  | statement _ htakes => exact .inl (h.takesStatement htakes)
  | named | initializer | ifCondition | loopCondition | elseBranch | skips =>
    exact .inl ⟨h.blocks, h.slots⟩
  | nameless | undeclared | ifOpen | loopOpen => exact .inl (h.fail t _)
  | declared => exact .inl (h.completeIn _ _)
  | expression => exact .inl (h.readExpression _ _ t)
  | noElse _ htakes => exact (h.deliver _).takesDeclaration htakes
  | resumes _ _ htakes => exact (hmode _).takesDeclaration htakes

theorem Inside.foldl (h : Inside o q)
    (hstays : ∀ qs, qs <+: ts → o.blocks.length < (qs.foldl Reader.read q).blocks.length) :
    Inside o (ts.foldl Reader.read q) := by
  induction ts generalizing q with
  | nil => exact h
  | cons t ts ih =>
    obtain ⟨-, hrest⟩ := forall_prefix_cons.mp hstays
    -- If the token ended the block, it would not be open right behind the token.
    refine ih ((h.takes (q.takes t)).resolve_right fun hclosed => ?_) hrest
    have hlow := hrest [] List.nil_prefix
    simp only [List.foldl_cons, List.foldl_nil, hclosed.length_eq, Nat.lt_irrefl] at hlow

/-! ## The end of a block -/

/-- The block that has just been opened stays open up to the token `c`, which closes it. -/
structure Closes (r : Reader) (inner : List Placed) (c : Placed) : Prop where
  stays : ∀ qs, qs <+: inner → r.blocks.length ≤ (qs.foldl read r).blocks.length
  closes : ((inner ++ [c]).foldl read r).blocks.length + 1 = r.blocks.length

theorem closes_iff (hc : c.kind = .rightBrace) : r.Closes inner c ↔
    balances 0 (r.kept inner) = true ∧ (inner.foldl read r).passes c = false := by
  have hlast := (inner.foldl read r).braced_read c
  have hsnoc : (inner ++ [c]).foldl read r = (inner.foldl read r).read c := by
    rw [List.foldl_append, List.foldl_cons, List.foldl_nil]
  rw [balances_kept_iff (Nat.add_zero _).symm]
  constructor
  · rintro ⟨hstays, hcloses⟩
    have hopen := hstays inner (List.prefix_refl _)
    rw [hsnoc] at hcloses
    cases hpasses : (inner.foldl read r).passes c with
    | true =>
      have hblocks := (hlast.skipped hpasses).2
      omega
    | false =>
      have hblocks := hlast.read hpasses
      simp only [hc, reduceCtorEq, if_true, if_false] at hblocks
      exact ⟨⟨hstays, by omega⟩, rfl⟩
  · rintro ⟨⟨hstays, hlength⟩, hpasses⟩
    have hblocks := hlast.read hpasses
    simp only [hc, reduceCtorEq, if_true, if_false] at hblocks
    exact ⟨hstays, by rw [hsnoc]; omega⟩

theorem closes_of_recoversLocally (hr : r.mode.isSkipping = false) (hc : c.kind = .rightBrace)
    (hinner : balances 0 inner = true) (h : r.RecoversLocally (inner ++ [c])) :
    r.Closes inner c := by
  have hskipping : ∀ latest, r.mode = .skipping latest →
      StopsBeforeBrace latest (inner ++ [c]) := by
    intro latest hmode
    rw [hmode] at hr
    cases hr
  have hpassed := forall_mem_passed_iff.mpr ⟨hskipping, h⟩
  rw [passed_append, List.forall_mem_append] at hpassed
  rw [closes_iff hc, balances_kept hpassed.1]
  refine ⟨hinner, Bool.eq_false_iff.mpr fun hpasses => ?_⟩
  exact (hpassed.2 c (by simp [passed, hpasses])).2 hc

/-- The statement that the block makes up stands where the block began. -/
theorem Closes.complete (h : r.Closes inner c) : ∃ b outer done faults, r.blocks = b :: outer ∧
    (inner ++ [c]).foldl read r =
      { r with blocks := outer, clauses := b.around, faults := faults }.complete (.block done) := by
  have hcloses := h.closes
  cases hblocks : r.blocks with
  | nil =>
    rw [hblocks, List.length_nil] at hcloses
    cases hcloses
  | cons b outer =>
    have hinside : Inside { r with blocks := outer, clauses := b.around } r :=
      ⟨⟨[], b, hblocks, rfl⟩, rfl⟩
    have hlast := hinside.foldl fun qs hqs => by
      simpa [hblocks, Nat.succ_le_iff] using h.stays qs hqs
    rw [List.foldl_append, List.foldl_cons, List.foldl_nil] at hcloses ⊢
    rcases hlast.takes (Reader.takes _ c) with hopen | ⟨done, faults, hclosed⟩
    · have hlt := hopen.lt_length
      rw [hblocks, List.length_cons] at hcloses
      dsimp only at hlt
      omega
    · exact ⟨b, outer, done, faults, rfl, hclosed⟩

/-! ## The end of the program -/

/-- The number of faults about a missing brace. -/
def unclosed (r : Reader) : Nat := r.faults.countP (·.cause = .braceAfterBlock)

theorem Braced.unclosed (h : Braced t r r') : r'.unclosed = r.unclosed := by
  obtain ⟨-, -, fs, hfs, hne⟩ := h
  have hzero : fs.countP (·.cause = .braceAfterBlock) = 0 :=
    List.countP_eq_zero.mpr fun f hf => by simpa using hne f hf
  rw [Reader.unclosed, hfs, List.countP_append, hzero, Nat.zero_add, Reader.unclosed]

theorem unclosed_foldl (r : Reader) (ts : List Placed) :
    (ts.foldl read r).unclosed = r.unclosed := by
  induction ts generalizing r with
  | nil => rfl
  | cons t ts ih => exact (ih _).trans (r.braced_read t).unclosed

theorem unclosed_closeBlocks (r : Reader) (t : Placed) :
    (r.closeBlocks t).unclosed = r.unclosed + r.blocks.length := by
  rw [unclosed, faults_closeBlocks_eq, List.countP_append, unclosed]
  simp [List.countP_replicate, Nat.add_comm]

/-- At the end every open block misses its brace. -/
theorem unclosed_finish (r : Reader) (ht : t.kind = .eof) :
    (r.finish t).unclosed = r.unclosed + r.blocks.length := by
  cases hmode : r.mode with
  | declaration | skipping latest =>
    simp only [finish, hmode]
    exact r.unclosed_closeBlocks t
  | maybeElse e s =>
    simp only [finish, hmode]
    rw [unclosed_closeBlocks, settle, blocks_deliver, unclosed, faults_deliver, unclosed]
  | _ =>
    have hbraced := r.braced_read t
    have hblocks : (r.read t).blocks.length = r.blocks.length := by
      cases hpasses : r.passes t with
      | true => exact (hbraced.skipped hpasses).2
      | false => simpa [ht] using hbraced.read hpasses
    simp only [finish, hmode]
    rw [unclosed_closeBlocks, hbraced.unclosed, hblocks]

end Reader

/-! ## Programs -/

/-- The token `c` is the partner of a brace with the tokens `rest` behind it, and `inner` stands
between the two. -/
def IsPartner (rest inner : List Placed) (c : Placed) : Prop :=
  inner ++ [c] <+: rest ∧ balances 0 inner = true ∧ c.kind = .rightBrace

theorem exists_partner_of_balances {n m : Nat} {ts : List Placed}
    (h : balances (n + 1 + m) ts = true) :
    ∃ inner c, inner ++ [c] <+: ts ∧ balances n inner = true ∧ c.kind = .rightBrace := by
  induction ts generalizing n with
  | nil => simp [balances] at h
  | cons t ts ih =>
    by_cases hl : t.kind = .leftBrace
    · rw [balances_open hl, Nat.add_right_comm _ m] at h
      obtain ⟨inner, c, hsplit, hinner, hc⟩ := ih h
      exact ⟨t :: inner, c, List.cons_prefix_cons.mpr ⟨rfl, hsplit⟩,
        (balances_open hl).trans hinner, hc⟩
    by_cases hr : t.kind = .rightBrace
    · cases n with
      | zero => exact ⟨[], t, List.cons_prefix_cons.mpr ⟨rfl, List.nil_prefix⟩, rfl, hr⟩
      | succ n =>
        have hrest := ((balances_close hr).mp h).2
        rw [Nat.add_right_comm (n + 1), Nat.add_sub_cancel] at hrest
        obtain ⟨inner, c, hsplit, hinner, hc⟩ := ih hrest
        exact ⟨t :: inner, c, List.cons_prefix_cons.mpr ⟨rfl, hsplit⟩,
          (balances_close hr).mpr ⟨Nat.succ_pos n, hinner⟩, hc⟩
    · obtain ⟨inner, c, hsplit, hinner, hc⟩ := ih (balances_other hl hr ▸ h)
      exact ⟨t :: inner, c, List.cons_prefix_cons.mpr ⟨rfl, hsplit⟩,
        (balances_other hl hr).trans hinner, hc⟩

theorem balances_drop {n : Nat} {ts us : List Placed} (h : balances n (ts ++ us) = true) :
    ∃ m, balances m us = true := by
  induction ts generalizing n with
  | nil => exact ⟨n, h⟩
  | cons t ts ih =>
    rw [List.cons_append] at h
    by_cases hl : t.kind = .leftBrace
    · exact ih (balances_open hl ▸ h)
    by_cases hr : t.kind = .rightBrace
    · exact ih ((balances_close hr).mp h).2
    · exact ih (balances_other hl hr ▸ h)

theorem exists_partner {n : Nat} {before rest : List Placed} {l : Placed}
    (h : balances n (before ++ l :: rest) = true) (hl : l.kind = .leftBrace) :
    ∃ inner c, IsPartner rest inner c := by
  obtain ⟨m, hm⟩ := balances_drop h
  rw [balances_open hl, ← Nat.zero_add m, Nat.add_right_comm] at hm
  exact exists_partner_of_balances hm

/-- The errors about a block without a brace. -/
def missingBraces (tokens : List Token) : Nat :=
  (parse tokens).diagnostics.countP (·.message = "Expect '\x7d' after block.")

theorem missingBraces_eq (tokens : List Token) :
    missingBraces tokens = ((body tokens).foldl Reader.read {}).blocks.length := by
  have hcause : ∀ f : Fault, f.diagnostic.message = "Expect '\x7d' after block." ↔
      f.cause = .braceAfterBlock := by
    rintro ⟨t, cause⟩
    cases cause <;> simp [Fault.diagnostic, Diagnostic.syntactic, Cause.message]
  have hfinish := Reader.unclosed_finish ((body tokens).foldl Reader.read {}) (kind_ending tokens)
  rw [Reader.unclosed_foldl] at hfinish
  simp only [missingBraces, Program.diagnostics, parse, List.countP_map, Function.comp_def, hcause,
    List.countP_reverse]
  exact hfinish.trans (Nat.zero_add _)

/-- In a program the reader `r` has just opened a block, and the tokens `rest` are left. -/
inductive OpensBlock (program : List Placed) : Reader → List Placed → Prop
  | mk {before rest : List Placed} {l : Placed} : program = before ++ l :: rest →
      l.kind = .leftBrace → (before.foldl Reader.read {}).passes l = false →
      OpensBlock program ((before.foldl Reader.read {}).read l) rest

/-- **Blocks follow the braces unless recovery passes over some.** Among balanced braces each that
opens a block has a partner. The block stays open up to that partner and is closed by it exactly
if, inside the block, the braces that are read are balanced and the partner itself is read; it is
so wherever a declaration that fails in the block fails at no brace and comes to a semicolon or a
keyword that begins a statement before the next brace. The block is a statement then. If this is
so throughout the program no block misses its brace. In general one does for every closing brace
that is passed over, but for those that make up for an opening brace passed over. -/
theorem blocks_follow_braces {tokens : List Token} (h : balances 0 (body tokens) = true) :
    (∀ r rest, OpensBlock (body tokens) r rest → (∃ inner c, IsPartner rest inner c) ∧
      ∀ inner c, IsPartner rest inner c →
        (r.Closes inner c ↔
          balances 0 (r.kept inner) = true ∧ (inner.foldl Reader.read r).passes c = false) ∧
        (r.RecoversLocally (inner ++ [c]) → r.Closes inner c) ∧
        (r.Closes inner c → ∃ b outer done faults, r.blocks = b :: outer ∧
          (inner ++ [c]).foldl Reader.read r =
            Reader.complete { r with blocks := outer, clauses := b.around, faults := faults }
              (.block done))) ∧
    (Reader.RecoversLocally {} (body tokens) → missingBraces tokens = 0) ∧
    missingBraces tokens + countKind .leftBrace (Reader.passed {} (body tokens)) =
      countKind .rightBrace (Reader.passed {} (body tokens)) := by
  have hblocks := Reader.blocks_foldl {} (body tokens)
  have hbalanced := countKind_of_balances h
  rw [← missingBraces_eq, List.length_nil] at hblocks
  have hcount : missingBraces tokens + countKind .leftBrace (Reader.passed {} (body tokens)) =
      countKind .rightBrace (Reader.passed {} (body tokens)) := by omega
  refine ⟨?_, fun hlocal => ?_, hcount⟩
  · rintro r rest ⟨hsplit, hl, hreads⟩
    refine ⟨exists_partner (hsplit ▸ h) hl, fun inner c ⟨hrest, hinner, hc⟩ => ?_⟩
    exact ⟨Reader.closes_iff hc, Reader.closes_of_recoversLocally hreads hc hinner,
      Reader.Closes.complete⟩
  · have hskipping : ∀ latest, Reader.mode {} = .skipping latest →
        Reader.StopsBeforeBrace latest (body tokens) := nofun
    have hpassed := Reader.forall_mem_passed_iff.mpr ⟨hskipping, hlocal⟩
    have hnone : countKind .rightBrace (Reader.passed {} (body tokens)) = 0 :=
      List.countP_eq_zero.mpr fun t ht => by simpa using (hpassed t ht).2
    omega

/-- Behind the semicolon of a `print` without a value the first block goes on, and is closed by its
brace, although the second one loses its own. -/
theorem blocks_follow_braces_semicolon : ∃ tokens : List Token,
    tokens = (Source.scan "\x7b print ; print 2; \x7d \x7b + \x7d").1 ∧
    balances 0 (body tokens) = true ∧
    (∃ r rest inner c, OpensBlock (body tokens) r rest ∧ IsPartner rest inner c ∧
      rest.length = 9 ∧ inner.length = 5 ∧ r.Closes inner c) ∧
    missingBraces tokens = 1 := by
  obtain ⟨ts, hts⟩ : ∃ ts, ts = (Source.scan "\x7b print ; print 2; \x7d \x7b + \x7d").1 :=
    ⟨_, rfl⟩
  have h : balances 0 (body ts) = true := by rw [hts]; decide +kernel
  obtain ⟨hblocks, -, hcount⟩ := blocks_follow_braces h
  have hopens : OpensBlock (body ts) _ (body ts).tail :=
    @OpensBlock.mk _ [] _ ((body ts).head?.getD (ending ts)) (by rw [hts]; decide +kernel)
      (by rw [hts]; decide +kernel) (by rw [hts]; decide +kernel)
  have hpartner : IsPartner (body ts).tail ((body ts).tail.take 5)
      ((body ts).tail[5]?.getD (ending ts)) := by
    rw [hts]
    exact ⟨by decide +kernel, by decide +kernel, by decide +kernel⟩
  have hcloses := ((hblocks _ _ hopens).2 _ _ hpartner).1.mpr (by rw [hts]; decide +kernel)
  have hleft : countKind .leftBrace (Reader.passed {} (body ts)) = 0 := by
    rw [hts]; decide +kernel
  have hright : countKind .rightBrace (Reader.passed {} (body ts)) = 1 := by
    rw [hts]; decide +kernel
  refine ⟨ts, hts, h, ⟨_, _, _, _, hopens, hpartner, ?_, ?_, hcloses⟩, by omega⟩
  · rw [hts]; decide +kernel
  · rw [hts]; decide +kernel

/-- Recovery passes over the brace of a block if the fault stands right before it. -/
theorem exists_brace_passed : balances 0 (body (Source.scan "\x7b + \x7d").1) = true ∧
    (parse (Source.scan "\x7b + \x7d").1).diagnostics =
      [⟨.syntactic, 1, .lexeme "+", "Expect expression."⟩,
        ⟨.syntactic, 1, .atEnd, "Expect '\x7d' after block."⟩] := by
  decide +kernel

end Lox.Parse
