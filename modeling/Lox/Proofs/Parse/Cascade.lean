import Mathlib.Data.List.Nodup
import Mathlib.Data.List.TakeWhile
import Lox.Proofs.Parse.Charges

/-!
# Faults do not cascade

* `Reader.finish_charges`: the end gives up the current declaration and closes the blocks;
* `Reader.Settled`, `Reader.settled_finish`: what the tokens of a program pay for at its end;
* `pairwise_precedes`: the tokens stand in order, the end behind them;
* the main result: no token is blamed twice, and there are at most as many faults as tokens.
-/

namespace Lox.Parse

open Token (Kind)

namespace Reader

variable {r : Reader} {t : Placed}

/-! ## The end -/

theorem charges_read_end (hm : r.mode.isInside = true) (ht : t.kind = .eof) :
    (r.read t).faults.length + (r.read t).blocks.length ≤ r.weight := by
  have hweight : ∀ q : Reader, q.weight + r.mode.isInside.toNat ≤ r.weight + 1 →
      q.faults.length + q.blocks.length ≤ r.weight := by
    intro q hq
    rw [weight_eq q, hm, Bool.toNat_true] at hq
    omega
  have hfail : ∀ cause : Cause, cause.isMinor = false →
      (r.fail t cause).faults.length + (r.fail t cause).blocks.length ≤ r.weight :=
    fun cause hcause => hweight _ (charges_fail [] cause hcause .nil (List.nil_sublist _)).2
  have hexpression : ∀ (use : Use) (reader : ExprReader), reader.equals.Sublist r.mode.equals →
      (r.readExpression use reader t).faults.length +
        (r.readExpression use reader t).blocks.length ≤ r.weight := by
    intro use reader hequals
    have hsound := reader.sound_read t
    have hmarks := reader.marks_read t
    have hcloser : t.kind ≠ use.closer := by cases use <;> simp [ht, Use.closer]
    rw [readExpression]
    cases hread : reader.read t with
    | next next fs =>
      exact absurd hread (ExprReader.read_ne_next (by simp [ht, ExprReader.foreignKinds]))
    | ended e fs =>
      rw [hread] at hsound hmarks
      dsimp only
      rw [if_neg hcloser]
      exact hweight _ (charges_fail _ _ (isMinor_cause use) hsound (hmarks.trans hequals)).2
    | failed cause fs =>
      rw [hread] at hsound hmarks
      exact hweight _ (charges_fail _ _ hsound.1 hsound.2 (hmarks.trans hequals)).2
  cases hmode : r.mode with
  | declaration | maybeElse c s | skipping k =>
    rw [hmode] at hm
    cases hm
  | statement =>
    simp only [read, hmode, readStatement, ht]
    exact hexpression _ _ (List.nil_sublist _)
  | variableName | initializer name | ifHeader | loopHeader =>
    simp only [read, hmode, ht, reduceCtorEq, if_false]
    exact hfail _ rfl
  | expression use reader =>
    simp only [read, hmode]
    exact hexpression use reader (by rw [hmode]; exact List.Sublist.refl _)

/-- At the end the current declaration is settled or given up, and then the blocks are closed. -/
theorem finish_charges (r : Reader) (ht : t.kind = .eof) : ∃ q : Reader,
    r.finish t = q.closeBlocks t ∧ Charges t r q ∧
      q.faults.length + q.blocks.length ≤ r.weight := by
  cases hm : r.mode with
  | declaration | skipping k =>
    refine ⟨r, by simp only [finish, hm], r.charges_mode t (by rw [hm]; rfl), ?_⟩
    rw [weight_eq]
    omega
  | maybeElse c s =>
    have hequals : r.mode.equals = [] := by
      rw [hm]
      rfl
    refine ⟨r.settle (.ifThen c s), by simp only [finish, hm], ?_, ?_⟩
    · exact (charges_complete { r with clauses := [] } t _ []).mono rfl hequals rfl (Nat.le_refl _)
    · rw [faults_settle, settle, blocks_deliver, weight_eq]
      omega
  | _ =>
    refine ⟨r.read t, by simp only [finish, hm], r.charges_read t, charges_read_end ?_ ht⟩
    rw [hm]
    rfl

theorem faults_closeBlocks_eq (r : Reader) (t : Placed) : (r.closeBlocks t).faults =
    List.replicate r.blocks.length ⟨t, .braceAfterBlock⟩ ++ r.faults := by
  rw [closeBlocks]
  cases r.blocks <;> simp [List.replicate_succ]

theorem gaps_closeBlocks (r : Reader) (t : Placed) :
    (r.closeBlocks t).gaps ≤ r.gaps + r.blocks.length := by
  rw [closeBlocks]
  cases hb : r.blocks with
  | nil => exact Nat.le_add_right _ _
  | cons b bs =>
    simp only [gaps, List.countP_cons, Option.isNone_none, if_true, List.length_cons]
    omega

/-- What is found at the end `t` of a program, besides what its tokens `ps` pay for. -/
structure Settled (t : Placed) (ps : List Placed) (r : Reader) : Prop where
  marked : ∃ k, (tokensOf r.faults).Subperm (List.replicate k t ++ ps)
  majors : ∃ k, (tokensOf r.majors).Sublist (List.replicate k t ++ ps)
  gaps : r.gaps ≤ r.majors.length
  length : r.faults.length ≤ ps.length

theorem settled_finish {ps : List Placed} (h : r.Accounted ps) (ht : t.kind = .eof) :
    (r.finish t).Settled t ps := by
  obtain ⟨q, hfinish, hcharges, hlength⟩ := r.finish_charges ht
  obtain ⟨hmarked, hmajors, hgaps, -⟩ := h.charge hcharges
  have hbrace : Fault.isMajor ⟨t, .braceAfterBlock⟩ = true := by
    rw [Fault.isMajor_eq]
    rfl
  have hfaults := q.faults_closeBlocks_eq t
  have hmore : (q.closeBlocks t).majors =
      List.replicate q.blocks.length ⟨t, .braceAfterBlock⟩ ++ q.majors := by
    rw [Reader.majors, hfaults, List.filter_append, List.filter_replicate_of_pos hbrace,
      Reader.majors]
  have htokens : ∀ (k : Nat) (fs : List Fault), tokensOf (List.replicate k
      ⟨t, .braceAfterBlock⟩ ++ fs) = List.replicate k t ++ tokensOf fs := by
    intro k fs
    rw [tokensOf_append, tokensOf, List.map_replicate]
  have hsucc : ∀ k, List.replicate k t ++ t :: ps = List.replicate (k + 1) t ++ ps := by
    intro k
    rw [List.replicate_succ', List.append_assoc, List.singleton_append]
  rw [hfinish]
  refine ⟨⟨q.blocks.length + 1, ?_⟩, ⟨q.blocks.length + 1, ?_⟩, ?_, ?_⟩
  · rw [hfaults, htokens, ← hsucc, List.subperm_append_left]
    exact (List.sublist_append_left _ _).subperm.trans hmarked
  · rw [hmore, htokens, ← hsucc]
    exact hmajors.append_left _
  · have hle := q.gaps_closeBlocks t
    rw [hmore, List.length_append, List.length_replicate]
    omega
  · have hle := h.weight
    rw [hfaults, List.length_append, List.length_replicate]
    omega

end Reader

/-! ## Programs -/

section

variable (tokens : List Token)

theorem map_place_body : (body tokens).map (·.place) = List.range (before tokens).length := by
  rw [body, List.map_map]
  exact (List.zipIdx_map_snd 0 (before tokens)).trans List.range_eq_range'.symm

theorem isEnd_ending : (ending tokens).isEnd = true := by
  rw [Token.isEnd, kind_ending]
  rfl

variable {tokens}

theorem isEnd_of_mem_body {t : Placed} (h : t ∈ body tokens) : t.isEnd = false := by
  have hmem : t.toToken ∈ before tokens := by
    rw [← map_toToken_body]
    exact List.mem_map_of_mem h
  simpa using List.mem_takeWhile_imp hmem

theorem place_lt_of_mem_body {t : Placed} (h : t ∈ body tokens) :
    t.place < (ending tokens).place := by
  have hmem := List.mem_map_of_mem (f := Placed.place) h
  rw [map_place_body, List.mem_range] at hmem
  exact hmem

/-- The second token stands behind the first, or both are the end. -/
def Placed.Precedes (s t : Placed) : Prop :=
  s.place ≤ t.place ∧ (s.isEnd = false → s.place < t.place)

/-- The tokens stand in order, and however often the end is repeated behind them. -/
theorem pairwise_precedes (k : Nat) :
    (body tokens ++ List.replicate k (ending tokens)).Pairwise Placed.Precedes := by
  have hbody : (body tokens).Pairwise Placed.Precedes := by
    have hrange := List.pairwise_lt_range (n := (before tokens).length)
    rw [← map_place_body, List.pairwise_map] at hrange
    exact hrange.imp fun h => ⟨Nat.le_of_lt h, fun _ => h⟩
  have hend : (List.replicate k (ending tokens)).Pairwise Placed.Precedes := by
    rw [List.pairwise_replicate]
    exact .inr ⟨Nat.le_refl _, fun h => by simp [isEnd_ending] at h⟩
  refine List.pairwise_append.mpr ⟨hbody, hend, fun s hs t ht => ?_⟩
  rw [List.eq_of_mem_replicate ht]
  have hlt := place_lt_of_mem_body hs
  exact ⟨Nat.le_of_lt hlt, fun _ => hlt⟩

theorem settled_parse (tokens : List Token) : ∃ r : Reader, r.Settled (ending tokens)
    (body tokens).reverse ∧ parse tokens = ⟨r.slots.reverse, r.faults.reverse⟩ := by
  have hstart : Reader.Accounted [] {} :=
    ⟨List.nil_subperm, List.nil_sublist _, Nat.le_refl _, Nat.le_refl _⟩
  have hrun := Reader.accounted_foldl hstart (body tokens)
  rw [List.append_nil] at hrun
  exact ⟨_, Reader.settled_finish hrun (kind_ending tokens), rfl⟩

end

/-- **Cascades are bounded.** No token but the end is blamed twice, and there are at most as many
faults as tokens before the end. Those that spoil a declaration are found from left to right, each
at a token of its own unless it is the end, and there is one for every empty slot. -/
theorem cascades_bounded (tokens : List Token) :
    (∀ f ∈ (parse tokens).faults, f.token ∈ body tokens ++ [ending tokens]) ∧
    ((((parse tokens).faults.map (·.token)).filter (!·.isEnd)).map (·.place)).Nodup ∧
    (parse tokens).diagnostics.length ≤ (before tokens).length ∧
    ((parse tokens).faults.filter Fault.isMajor).Pairwise (fun f g =>
      f.token.place ≤ g.token.place ∧ (f.token.isEnd = false → f.token.place < g.token.place)) ∧
    (parse tokens).slots.countP (·.isNone) ≤
      ((parse tokens).faults.filter Fault.isMajor).length := by
  obtain ⟨r, ⟨⟨k, hmarked⟩, ⟨m, hmajors⟩, hgaps, hlength⟩, hparse⟩ := settled_parse tokens
  rw [hparse]
  refine ⟨?_, ?_, ?_, ?_, ?_⟩
  · intro f hf
    have hmem := hmarked.subset (List.mem_map_of_mem (List.mem_reverse.mp hf))
    rw [List.mem_append, List.mem_reverse] at hmem
    rcases hmem with hmem | hmem
    · rw [List.eq_of_mem_replicate hmem]
      exact List.mem_append_right _ (List.mem_singleton_self _)
    · exact List.mem_append_left _ hmem
  · have hplain : (List.replicate k (ending tokens) ++ (body tokens).reverse).filter (!·.isEnd) =
        (body tokens).reverse := by
      rw [List.filter_append, List.filter_replicate_of_neg (by simp [isEnd_ending]),
        List.nil_append, List.filter_eq_self]
      intro t ht
      rw [isEnd_of_mem_body (List.mem_reverse.mp ht)]
      rfl
    have hnodup : ((body tokens).reverse.map (·.place)).Nodup := by
      rw [List.map_reverse, List.nodup_reverse, map_place_body]
      exact List.nodup_range
    obtain ⟨ts, hperm, hsub⟩ := hmarked.filter (!·.isEnd)
    rw [hplain] at hsub
    dsimp only
    rw [List.map_reverse, List.filter_reverse, List.map_reverse, List.nodup_reverse]
    exact ((hperm.map _).nodup_iff).mp (hnodup.sublist (hsub.map _))
  · simpa [Program.diagnostics, length_body] using hlength
  · have hordered : ((tokensOf r.majors).reverse).Sublist
        (body tokens ++ List.replicate m (ending tokens)) := by
      have h := hmajors.reverse
      rwa [List.reverse_append, List.reverse_reverse, List.reverse_replicate] at h
    have hpairs := (pairwise_precedes m).sublist hordered
    rw [tokensOf, ← List.map_reverse, List.pairwise_map] at hpairs
    rw [List.filter_reverse]
    exact hpairs
  · rw [List.filter_reverse, List.length_reverse, List.countP_reverse]
    exact hgaps

end Lox.Parse
