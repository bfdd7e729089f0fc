import Mathlib.Data.List.TakeWhile
import Lox.Proofs.Parse.Completion

/-!
# The earliest token is blamed

* `Program.blamed?`: the first fault that spoils a declaration;
* `Reader.token_of_finish`, `Reader.blamed_of_foldl`: it is found at the token being read;
* `blame_earliest`: the tokens before it can be completed, and those up to it cannot.
-/

namespace Lox.Parse

/-- The first fault that spoils a declaration. -/
def Program.blamed? (p : Program) : Option Fault := p.faults.find? Fault.isMajor

theorem blamed?_parse (tokens : List Token) :
    (parse tokens).blamed? =
      (((body tokens).foldl Reader.read {}).finish (ending tokens)).blamed? := rfl

/-! ## Places -/

theorem place_take (n k : Nat) (ts : List Token) : (place n ts).take k = place n (ts.take k) := by
  induction ts generalizing n k with
  | nil => simp [place]
  | cons t ts ih =>
    cases k with
    | zero => rfl
    | succ k => rw [place_cons, List.take_succ_cons, ih, List.take_succ_cons, place_cons]

theorem place_getElem? (n i : Nat) (ts : List Token) :
    (place n ts)[i]? = ts[i]?.map (⟨·, n + i⟩) := by
  simp [place, Function.comp_def]

section

variable {tokens : List Token} {k : Nat}

theorem take_before (h : k ≤ (before tokens).length) :
    (before tokens).take k = tokens.take k := by
  have hsplit := List.takeWhile_append_dropWhile (p := (!·.isEnd)) (l := tokens)
  rw [← before] at hsplit
  rw [← List.take_append_of_le_length h, hsplit]

theorem body_take_append (h : k ≤ (before tokens).length) (us : List Token) :
    body (tokens.take k ++ us) = place 0 (tokens.take k) ++ place k (before us) := by
  have hcount : ∀ t ∈ tokens.take k, (!t.isEnd) = true := by
    intro t ht
    rw [← take_before h] at ht
    have hmem : t ∈ before tokens := List.mem_of_mem_take ht
    exact List.mem_takeWhile_imp (p := fun u : Token => !u.isEnd) hmem
  have hlen : (tokens.take k).length = k := by
    rw [← take_before h, List.length_take_of_le h]
  rw [body_eq, before, List.takeWhile_append_of_pos hcount, place_append, hlen, Nat.zero_add]
  rfl

/-- What stands before a token that counts, or before the end, are the tokens up to its place. -/
theorem split_at_place {qs rs : List Placed} {t : Placed}
    (h : body tokens ++ [ending tokens] = qs ++ t :: rs) :
    t.place = qs.length ∧ qs.length + rs.length = (before tokens).length ∧
      qs = place 0 (tokens.take qs.length) := by
  have hlen : qs.length + rs.length = (before tokens).length := by
    have heq := congrArg List.length h
    simp [length_body] at heq
    omega
  have hplaced : place 0 (before tokens ++ [(ending tokens).toToken]) = qs ++ t :: rs := by
    rw [← h, place_append, body_eq, Nat.zero_add]
    rfl
  have hget : (place 0 (before tokens ++ [(ending tokens).toToken]))[qs.length]? = some t := by
    simp [hplaced]
  rw [place_getElem?, Option.map_eq_some_iff] at hget
  obtain ⟨u, -, rfl⟩ := hget
  have hle : qs.length ≤ (before tokens).length := by omega
  refine ⟨Nat.zero_add _, hlen, ?_⟩
  rw [← take_before hle, ← List.take_append_of_le_length hle, ← place_take, hplaced,
    List.take_left]

end

namespace Reader

variable {r : Reader} {f : Fault} {t : Placed}

/-! ## Where a fault is found -/

theorem token_of_read (hm : r.mode.isSkipping = false) (hr : r.blamed? = none)
    (hf : (r.read t).blamed? = some f) : f.token = t := by
  rcases read_step hm t with h | h
  · rw [h.blamed?, hr] at hf
    cases hf
  · obtain ⟨cause, hcause⟩ := h.blamed? hr
    rw [hcause] at hf
    cases hf
    rfl

theorem token_of_closeBlocks (hf : (r.closeBlocks t).blamed? = some f) (hr : r.blamed? = none) :
    f.token = t := by
  unfold closeBlocks at hf
  split at hf
  · rw [hr] at hf
    cases hf
  · rw [blamed?_append rfl, hr, Option.none_or] at hf
    have hmem := List.mem_of_find?_eq_some hf
    rw [List.mem_reverse, List.mem_map] at hmem
    obtain ⟨_, _, rfl⟩ := hmem
    rfl

theorem token_of_finish (hm : r.mode.isSkipping = false) (hr : r.blamed? = none)
    (hf : (r.finish t).blamed? = some f) : f.token = t := by
  unfold finish at hf
  split at hf
  · exact token_of_closeBlocks hf hr
  · exact token_of_closeBlocks hf hr
  · refine token_of_closeBlocks hf ?_
    rw [blamed?, faults_settle]
    exact hr
  · cases hread : (r.read t).blamed? with
    | none => exact token_of_closeBlocks hf hread
    | some g =>
      rw [blamed?_of_suffix (faults_closeBlocks _ t) hread] at hf
      cases hf
      exact token_of_read hm hr hread

/-- The first fault that spoils a declaration is found at the token being read: none was found
before it, and it is known once the token has been read, or at the end. -/
theorem blamed_of_foldl {ps : List Placed} (hm : r.mode.isSkipping = false) (hr : r.blamed? = none)
    (hf : ((ps.foldl read r).finish t).blamed? = some f) : ∃ qs rs,
      ps ++ [t] = qs ++ f.token :: rs ∧
      (qs.foldl read r).mode.isSkipping = false ∧ (qs.foldl read r).blamed? = none ∧
      (rs ≠ [] → ((qs.foldl read r).read f.token).blamed? = some f) := by
  induction ps generalizing r with
  | nil => exact ⟨[], [], by rw [← token_of_finish hm hr hf], hm, hr, fun h => absurd rfl h⟩
  | cons p ps ih =>
    rw [List.foldl_cons] at hf
    rcases read_step hm p with h | h
    · obtain ⟨qs, rs, heq, hmode, hnone, hsome⟩ := ih h.1 (h.blamed?.trans hr) hf
      exact ⟨p :: qs, rs, by rw [List.cons_append, heq, List.cons_append], hmode, hnone, hsome⟩
    · obtain ⟨cause, hcause⟩ := h.blamed? hr
      have hsuffix := ((r.read p).faults_foldl ps).trans (faults_finish _ t)
      rw [blamed?_of_suffix hsuffix hcause] at hf
      cases hf
      exact ⟨[], ps ++ [t], rfl, hm, hr, fun _ => hcause⟩

end Reader

/-- **Valid prefixes**: the first fault that spoils a declaration is found at the earliest token
possible. The tokens before it can be completed to a program in which nothing but targets of
assignments is at fault; and unless it is found at the end, every token sequence that begins with
the tokens up to it has the same fault at the same place. -/
theorem blame_earliest {tokens : List Token} {f : Fault} (h : (parse tokens).blamed? = some f) :
    (body tokens ++ [ending tokens])[f.token.place]? = some f.token ∧
      (∃ cs, (parse (tokens.take f.token.place ++ cs)).blamed? = none) ∧
      (f.token.isEnd = false → ∀ tokens', tokens'.take (f.token.place + 1) =
        tokens.take (f.token.place + 1) → (parse tokens').blamed? = some f) := by
  obtain ⟨qs, rs, hsplit, hmode, hnone, hsome⟩ := Reader.blamed_of_foldl rfl rfl h
  obtain ⟨hplace, hlen, hqs⟩ := split_at_place hsplit
  rw [hplace]
  refine ⟨?_, ?_, ?_⟩
  · rw [hsplit]
    simp
  · obtain ⟨cs, hcs, hend⟩ := Reader.completable (n := qs.length) hmode hnone
    have hbefore : before cs = cs := List.takeWhile_eq_self_iff.mpr (by simpa using hcs)
    have hbody := @body_take_append tokens qs.length (by omega) cs
    refine ⟨cs, ?_⟩
    rw [blamed?_parse, hbody, hbefore, ← hqs, List.foldl_append]
    exact hend _
  · intro hkind tokens' htokens'
    -- behind a blamed token that is not the end there is the end at least
    have hrs : rs ≠ [] := by
      rintro rfl
      have hlast := List.append_inj_right' hsplit rfl
      rw [← List.singleton_inj.mp hlast] at hkind
      simp [Token.isEnd, kind_ending] at hkind
    have hrs' := List.length_pos_iff.mpr hrs
    have hqst : qs ++ [f.token] = place 0 (tokens.take (qs.length + 1)) := by
      obtain ⟨u, us, rfl⟩ := List.exists_cons_of_ne_nil hrs
      have hnext : body tokens ++ [ending tokens] = (qs ++ [f.token]) ++ u :: us := by
        rw [hsplit, List.append_assoc, List.singleton_append]
      simpa using (split_at_place hnext).2.2
    have hbody : body tokens' = qs ++ [f.token] ++
        place (qs.length + 1) (before (tokens'.drop (qs.length + 1))) := by
      rw [hqst, ← body_take_append (by omega), ← htokens', List.take_append_drop]
    have hsuffix := (Reader.faults_foldl ((qs.foldl Reader.read {}).read f.token)
      (place (qs.length + 1) (before (tokens'.drop (qs.length + 1))))).trans
        (Reader.faults_finish _ (ending tokens'))
    rw [blamed?_parse, hbody, List.foldl_append, List.foldl_append]
    exact Reader.blamed?_of_suffix hsuffix (hsome hrs)

/-- The semicolon of a `print` without a value is blamed: with a value before it the program is
complete, and whatever follows it the value is missing. -/
theorem blame_earliest_print : ∃ f, (parse [bare .printKw, bare .semicolon]).blamed? = some f ∧
    f.cause = .expression ∧ f.token.place = 1 ∧
    (∃ cs, (parse ([bare .printKw] ++ cs)).blamed? = none) ∧
    ∀ ts, (parse ([bare .printKw, bare .semicolon] ++ ts)).blamed? = some f := by
  have h : (parse [bare .printKw, bare .semicolon]).blamed? =
      some ⟨⟨bare .semicolon, 1⟩, .expression⟩ := by decide +kernel
  obtain ⟨-, hcomplete, hblame⟩ := blame_earliest h
  exact ⟨_, h, rfl, rfl, hcomplete, fun ts => hblame rfl _ rfl⟩

end Lox.Parse
