import Mathlib.Tactic.SplitIfs
import Lox.Proofs.Parse.Cascade

/-!
# Braces

A block is opened and closed by every brace that is read. Skipping behind a fault stops at
semicolons and keywords, not at braces, and a brace that is passed over is missing later.

* `Reader.passed`, `Reader.kept`: the tokens that are passed over, and the others;
* `Reader.Braced`, `Reader.braced_read`: what one more token does to the open blocks;
* `Reader.blocks_foldl`, `Reader.balances_kept_iff`: the open blocks behind several tokens;
* `Reader.RecoversLocally`, `Reader.forall_mem_passed_iff`: behind every fault skipping stops
  before it comes to a brace;
* `balances`: every brace has its partner.
-/

namespace Lox.Parse

open Token (Kind)

/-- The number of tokens of a kind. -/
def countKind (k : Kind) (ts : List Placed) : Nat := ts.countP (·.kind = k)

theorem countKind_cons (k : Kind) (t : Placed) (ts : List Placed) :
    countKind k (t :: ts) = countKind k ts + if t.kind = k then 1 else 0 := by
  simp [countKind, List.countP_cons]

/-- Every brace has its partner, also those of the given number that are open. -/
def balances (opened : Nat) : List Placed → Bool
  | [] => opened == 0
  | t :: ts =>
    if t.kind = .leftBrace then balances (opened + 1) ts
    else if t.kind = .rightBrace then 0 < opened && balances (opened - 1) ts
    else balances opened ts

section Balances

variable {n : Nat} {t : Placed} {ts : List Placed}

theorem balances_open (ht : t.kind = .leftBrace) : balances n (t :: ts) = balances (n + 1) ts := by
  rw [balances, if_pos ht]

theorem balances_close (ht : t.kind = .rightBrace) :
    balances n (t :: ts) = true ↔ 0 < n ∧ balances (n - 1) ts = true := by
  rw [balances, if_neg (by simp [ht]), if_pos ht, Bool.and_eq_true, decide_eq_true_eq]

theorem balances_other (hl : t.kind ≠ .leftBrace) (hr : t.kind ≠ .rightBrace) :
    balances n (t :: ts) = balances n ts := by
  rw [balances, if_neg hl, if_neg hr]

theorem countKind_of_balances (h : balances n ts = true) :
    n + countKind .leftBrace ts = countKind .rightBrace ts := by
  induction ts generalizing n with
  | nil => simpa [balances, countKind] using h
  | cons t ts ih =>
    rw [countKind_cons, countKind_cons]
    by_cases hl : t.kind = .leftBrace
    · have hrest := ih (balances_open hl ▸ h)
      simp only [hl, reduceCtorEq, if_true, if_false]
      omega
    by_cases hr : t.kind = .rightBrace
    · obtain ⟨hpos, hbalances⟩ := (balances_close hr).mp h
      have hrest := ih hbalances
      simp only [hr, reduceCtorEq, if_true, if_false]
      omega
    · rw [if_neg hl, if_neg hr]
      exact ih (balances_other hl hr ▸ h)

end Balances

theorem ExprReader.brace_ne_of_next {reader next : ExprReader} {t : Placed} {fs : List Fault}
    (h : reader.read t = .next next fs) : t.kind ≠ .leftBrace ∧ t.kind ≠ .rightBrace :=
  ⟨fun hk => read_ne_next (by simp [foreignKinds, hk]) h,
    fun hk => read_ne_next (by simp [foreignKinds, hk]) h⟩

theorem ExprReader.cause_of_failed {reader : ExprReader} {t : Placed} {cause : Cause}
    {fs : List Fault} (h : reader.read t = .failed cause fs) : cause ≠ .braceAfterBlock := by
  have htakes := reader.takes t
  rw [h] at htakes
  cases htakes <;> nofun

theorem Minor.cause_ne {fs : List Fault} (h : Minor fs) : ∀ f ∈ fs, f.cause ≠ .braceAfterBlock := by
  rintro ⟨t, cause⟩ hf rfl
  have hminor := h _ hf
  rw [Fault.isMajor_eq] at hminor
  cases hminor

namespace Reader

variable {r r' q : Reader} {t : Placed}

/-- The token is passed over: the declaration is given up there, or the token is skipped behind one
that was. -/
def passes (r : Reader) (t : Placed) : Bool := (r.read t).mode.isSkipping

/-- The tokens that are passed over. -/
def passed : Reader → List Placed → List Placed
  | _, [] => []
  | r, t :: ts => if r.passes t then t :: passed (r.read t) ts else passed (r.read t) ts

/-- The tokens that are not passed over. -/
def kept : Reader → List Placed → List Placed
  | _, [] => []
  | r, t :: ts => if r.passes t then kept (r.read t) ts else t :: kept (r.read t) ts

/-- From `r` to `r'` a token is read or passed over. A brace that is read opens or closes a block,
and nothing else does; no fault is about a brace. -/
structure Braced (t : Placed) (r r' : Reader) : Prop where
  skipped : r'.mode.isSkipping = true →
    r'.mode = .skipping t.kind ∧ r'.blocks.length = r.blocks.length
  read : r'.mode.isSkipping = false →
    r'.blocks.length + (if t.kind = .rightBrace then 1 else 0) =
      r.blocks.length + if t.kind = .leftBrace then 1 else 0
  faults : ∃ fs, r'.faults = fs ++ r.faults ∧ ∀ f ∈ fs, f.cause ≠ .braceAfterBlock

theorem braced_of_ne (hl : t.kind ≠ .leftBrace) (hr : t.kind ≠ .rightBrace)
    (hmode : r'.mode.isSkipping = false) (hblocks : r'.blocks.length = r.blocks.length)
    (hfaults : ∃ fs, r'.faults = fs ++ r.faults ∧ ∀ f ∈ fs, f.cause ≠ .braceAfterBlock) :
    Braced t r r' := by
  refine ⟨fun hskip => ?_, fun _ => ?_, hfaults⟩
  · rw [hmode] at hskip
    cases hskip
  · rw [if_neg hl, if_neg hr, hblocks]

theorem braced_mode (hl : t.kind ≠ .leftBrace) (hr : t.kind ≠ .rightBrace) {m : Mode}
    (hm : m.isSkipping = false) (cs : List Clause) :
    Braced t r { r with mode := m, clauses := cs } :=
  braced_of_ne hl hr hm rfl ⟨[], rfl, List.forall_mem_nil _⟩

theorem braced_fail {cause : Cause} (h : cause ≠ .braceAfterBlock) : Braced t r (r.fail t cause) :=
  ⟨fun _ => ⟨rfl, rfl⟩, nofun, [⟨t, cause⟩], rfl, by simpa using h⟩

theorem blocks_completeIn (r : Reader) (s : Stmt) (cs : List Clause) :
    (r.completeIn s cs).blocks.length = r.blocks.length := (r.atRest_completeIn s cs).2

theorem blocks_completeUse (r : Reader) (e : Expr) (use : Use) :
    (r.completeUse e use).blocks.length = r.blocks.length := by
  cases use with
  | value | statement | initializer name => exact r.blocks_completeIn _ _
  | ifCondition | loopCondition => rfl

theorem Braced.after {fs : List Fault} (h : Braced t q r') (hfs : Minor fs)
    (hblocks : q.blocks.length = r.blocks.length) (hfaults : q.faults = fs ++ r.faults) :
    Braced t r r' := by
  obtain ⟨hskipped, hread, gs, hgs, hne⟩ := h
  refine ⟨hblocks ▸ hskipped, hblocks ▸ hread, gs ++ fs, ?_, ?_⟩
  · rw [hgs, hfaults, List.append_assoc]
  · intro f hf
    exact (List.mem_append.mp hf).elim (hne f) (hfs.cause_ne f)

theorem braced_readExpression (r : Reader) (use : Use) (reader : ExprReader) (t : Placed) :
    Braced t r (r.readExpression use reader t) := by
  have hsound := reader.sound_read t
  rw [readExpression]
  cases hread : reader.read t with
  | next next fs =>
    rw [hread] at hsound
    obtain ⟨hl, hr⟩ := ExprReader.brace_ne_of_next hread
    exact braced_of_ne hl hr rfl rfl ⟨_, rfl, Minor.cause_ne hsound.reverse⟩
  | ended e fs =>
    rw [hread] at hsound
    dsimp only
    split_ifs with hcloser
    · have hne : t.kind ≠ .leftBrace ∧ t.kind ≠ .rightBrace := by
        rw [hcloser]
        cases use <;> simp [Use.closer]
      exact braced_of_ne hne.1 hne.2 (isSkipping_completeUse _ _ _) (blocks_completeUse _ _ _)
        ⟨fs.reverse, faults_completeUse _ _ _, Minor.cause_ne hsound.reverse⟩
    · have hcause : use.cause ≠ .braceAfterBlock := by cases use <;> simp [Use.cause]
      exact (braced_fail hcause).after hsound.reverse rfl rfl
  | failed cause fs =>
    rw [hread] at hsound
    exact (braced_fail (ExprReader.cause_of_failed hread)).after hsound.2.reverse rfl rfl

theorem TakesStatement.braced (h : TakesStatement t r r') : Braced t r r' := by
  cases h with
  | openBlock hk => exact ⟨nofun, fun _ => by simp [hk], [], rfl, List.forall_mem_nil _⟩
  | print hk | ifHeader hk | loopHeader hk =>
    exact braced_mode (by simp [hk]) (by simp [hk]) rfl _
  | expression => exact r.braced_readExpression _ _ t

theorem TakesDeclaration.braced (h : TakesDeclaration t r r') : Braced t r r' := by
  cases h with
  | variableName hk => exact braced_mode (by simp [hk]) (by simp [hk]) rfl _
  | @closeBlock b bs hk hblocks =>
    refine ⟨fun hskip => ?_, fun _ => ?_, [], faults_complete _ _, List.forall_mem_nil _⟩
    · rw [complete, isSkipping_completeIn] at hskip
      cases hskip
    · rw [complete, blocks_completeIn, hblocks]
      simp [hk]
  | statement h => exact h.braced

theorem Takes.braced (h : Takes t r r') : Braced t r r' := by
  cases h with
  | declaration hmode h => exact h.braced
  | statement hmode h => exact h.braced
  | named hmode hk | initializer hmode hk | ifCondition hmode hk | loopCondition hmode hk
  | elseBranch hmode hk => exact braced_mode (by simp [hk]) (by simp [hk]) rfl _
  | nameless hmode | undeclared hmode | ifOpen hmode | loopOpen hmode => exact braced_fail nofun
  | declared hmode hk =>
    exact braced_of_ne (by simp [hk]) (by simp [hk]) (isSkipping_completeIn _ _ _)
      (blocks_completeIn _ _ _) ⟨[], faults_complete _ _, List.forall_mem_nil _⟩
  | expression hmode => exact r.braced_readExpression _ _ t
  | noElse hmode h => exact h.braced.after .nil (blocks_deliver r _) (faults_settle r _)
  | resumes hmode hk h => exact h.braced.after .nil rfl rfl
  | skips hmode hk => exact ⟨fun _ => ⟨rfl, rfl⟩, nofun, [], rfl, List.forall_mem_nil _⟩

theorem braced_read (r : Reader) (t : Placed) : Braced t r (r.read t) := (r.takes t).braced

/-! ## Several tokens -/

/-- The open blocks are those whose braces are open, but for the braces that are passed over. -/
theorem blocks_foldl (r : Reader) (ts : List Placed) :
    (ts.foldl read r).blocks.length + countKind .rightBrace ts +
        countKind .leftBrace (r.passed ts) =
      r.blocks.length + countKind .leftBrace ts + countKind .rightBrace (r.passed ts) := by
  induction ts generalizing r with
  | nil => rfl
  | cons t ts ih =>
    have hrest := ih (r.read t)
    obtain ⟨hskipped, hread, -⟩ := r.braced_read t
    rw [List.foldl_cons, passed]
    cases hpasses : r.passes t with
    | true =>
      have hblocks := (hskipped hpasses).2
      simp only [if_true, countKind_cons]
      omega
    | false =>
      have hblocks := hread hpasses
      simp only [Bool.false_eq_true, if_false, countKind_cons]
      omega

theorem forall_prefix_cons {α : Type} {p : List α → Prop} {x : α} {xs : List α} :
    (∀ ys, ys <+: x :: xs → p ys) ↔ p [] ∧ ∀ ys, ys <+: xs → p (x :: ys) := by
  simp only [List.prefix_cons_iff, forall_eq_or_imp, forall_exists_index, and_imp]
  refine and_congr_right fun _ => ⟨fun h ys hys => h _ ys rfl hys, ?_⟩
  rintro h _ ys rfl hys
  exact h ys hys

/-- The braces that are read are balanced exactly if a number of blocks stay open at every place
and no others are open in the end. -/
theorem balances_kept_iff {n base : Nat} {ts : List Placed} (h : r.blocks.length = base + n) :
    balances n (r.kept ts) = true ↔
      (∀ qs, qs <+: ts → base ≤ (qs.foldl read r).blocks.length) ∧
        (ts.foldl read r).blocks.length = base := by
  induction ts generalizing r n with
  | nil => simp [kept, balances, h]
  | cons t ts ih =>
    obtain ⟨hskipped, hread, -⟩ := r.braced_read t
    have hbase : base ≤ r.blocks.length := by omega
    rw [forall_prefix_cons, List.foldl_nil, and_iff_right hbase, List.foldl_cons, kept]
    simp only [List.foldl_cons]
    cases hpasses : r.passes t with
    | true =>
      rw [if_pos rfl]
      exact ih ((hskipped hpasses).2.trans h)
    | false =>
      have hblocks := hread hpasses
      rw [if_neg Bool.false_ne_true]
      by_cases hl : t.kind = .leftBrace
      · simp only [hl, reduceCtorEq, if_true, if_false] at hblocks
        rw [balances_open hl]
        exact ih (by omega)
      by_cases hr : t.kind = .rightBrace
      · simp only [hr, reduceCtorEq, if_true, if_false] at hblocks
        rw [balances_close hr]
        cases n with
        | zero =>
          -- The brace closes one of the blocks that ought to stay open.
          refine iff_of_false (fun hpos => absurd hpos.1 (Nat.lt_irrefl 0)) fun hstays => ?_
          have hlow := hstays.1 [] List.nil_prefix
          rw [List.foldl_nil] at hlow
          omega
        | succ n =>
          rw [and_iff_right (Nat.succ_pos n)]
          exact ih (by omega)
      · rw [if_neg hl, if_neg hr] at hblocks
        rw [balances_other hl hr]
        exact ih (by omega)

/-! ## Where recovery stops -/

/-- A declaration is given up at the token, which is not skipped itself. -/
def GivesUp (r : Reader) (t : Placed) : Prop :=
  r.passes t = true ∧ ∀ latest, r.mode = .skipping latest → isBoundary latest t = true

/-- Skipping behind a token of the given kind stops before it comes to a brace. -/
def StopsBeforeBrace : Kind → List Placed → Prop
  | _, [] => True
  | latest, t :: ts => isBoundary latest t = true ∨
    (t.kind ≠ .leftBrace ∧ t.kind ≠ .rightBrace) ∧ StopsBeforeBrace t.kind ts

/-- No declaration is given up at a brace, and behind each that is given up skipping stops before
it comes to one. -/
def RecoversLocally (r : Reader) (ts : List Placed) : Prop :=
  ∀ qs t us, ts = qs ++ t :: us → (qs.foldl read r).GivesUp t →
    (t.kind ≠ .leftBrace ∧ t.kind ≠ .rightBrace) ∧ StopsBeforeBrace t.kind us

theorem recoversLocally_cons {ts : List Placed} : r.RecoversLocally (t :: ts) ↔
    (r.GivesUp t → (t.kind ≠ .leftBrace ∧ t.kind ≠ .rightBrace) ∧ StopsBeforeBrace t.kind ts) ∧
      (r.read t).RecoversLocally ts := by
  constructor
  · exact fun h => ⟨h [] t ts rfl, fun qs u us hts => h (t :: qs) u us (congrArg (t :: ·) hts)⟩
  · rintro ⟨ht, hrest⟩ qs u us hts
    cases qs with
    | nil =>
      obtain ⟨rfl, rfl⟩ := List.cons.inj hts
      exact ht
    | cons q qs =>
      obtain ⟨rfl, htail⟩ := List.cons.inj hts
      exact hrest qs u us htail

theorem isBoundary_of_passes {latest : Kind} (hmode : r.mode = .skipping latest)
    (h : r.passes t = false) : isBoundary latest t = true := by
  by_contra hboundary
  simp [passes, read, hmode, hboundary, Mode.isSkipping] at h

/-- No brace is passed over exactly if recovery is local. -/
theorem forall_mem_passed_iff {ts : List Placed} :
    (∀ t ∈ r.passed ts, t.kind ≠ .leftBrace ∧ t.kind ≠ .rightBrace) ↔
      (∀ latest, r.mode = .skipping latest → StopsBeforeBrace latest ts) ∧
        r.RecoversLocally ts := by
  induction ts generalizing r with
  | nil => simp [passed, RecoversLocally, StopsBeforeBrace]
  | cons t ts ih =>
    rw [recoversLocally_cons, passed]
    cases hpasses : r.passes t with
    | false =>
      have hstops : ∀ latest, r.mode = .skipping latest → StopsBeforeBrace latest (t :: ts) :=
        fun latest hmode => .inl (isBoundary_of_passes hmode hpasses)
      have hread : ∀ latest, (r.read t).mode = .skipping latest → StopsBeforeBrace latest ts := by
        intro latest hmode
        rw [passes, hmode] at hpasses
        cases hpasses
      have hgoes : ¬r.GivesUp t := by simp [GivesUp, hpasses]
      rw [if_neg Bool.false_ne_true, ih]
      tauto
    | true =>
      -- The token is passed over, whether the declaration is given up here or was before.
      have hmode := ((r.braced_read t).skipped hpasses).1
      have hread : (∀ latest, (r.read t).mode = .skipping latest → StopsBeforeBrace latest ts) ↔
          StopsBeforeBrace t.kind ts := by simp [hmode]
      rw [if_pos rfl, List.forall_mem_cons, ih, hread, ← and_assoc]
      by_cases hboundary : ∀ latest, r.mode = .skipping latest → isBoundary latest t = true
      · have hstops : ∀ latest, r.mode = .skipping latest → StopsBeforeBrace latest (t :: ts) :=
          fun latest hlatest => .inl (hboundary latest hlatest)
        have hgives : r.GivesUp t := ⟨hpasses, hboundary⟩
        tauto
      · have hgoes : ¬r.GivesUp t := fun h => hboundary h.2
        push Not at hboundary
        obtain ⟨latest, hlatest, hpast⟩ := hboundary
        have hstops : (∀ k, r.mode = .skipping k → StopsBeforeBrace k (t :: ts)) ↔
            (t.kind ≠ .leftBrace ∧ t.kind ≠ .rightBrace) ∧ StopsBeforeBrace t.kind ts := by
          simp [hlatest, StopsBeforeBrace, hpast]
        rw [hstops]
        tauto

theorem passed_append (r : Reader) (ts us : List Placed) :
    r.passed (ts ++ us) = r.passed ts ++ (ts.foldl read r).passed us := by
  induction ts generalizing r with
  | nil => rfl
  | cons t ts ih =>
    rw [List.cons_append, passed, passed, List.foldl_cons, ih]
    cases r.passes t <;> rfl

/-- Where no brace is passed over, the braces are those that are read. -/
theorem balances_kept {n : Nat} {ts : List Placed}
    (h : ∀ t ∈ r.passed ts, t.kind ≠ .leftBrace ∧ t.kind ≠ .rightBrace) :
    balances n (r.kept ts) = balances n ts := by
  induction ts generalizing r n with
  | nil => rfl
  | cons t ts ih =>
    rw [passed] at h
    rw [kept]
    cases hpasses : r.passes t with
    | true =>
      rw [hpasses, if_pos rfl, List.forall_mem_cons] at h
      rw [if_pos rfl, ih h.2, balances_other h.1.1 h.1.2]
    | false =>
      rw [hpasses, if_neg Bool.false_ne_true] at h
      rw [if_neg Bool.false_ne_true, balances, balances, ih h, ih h, ih h]

end Reader

end Lox.Parse
