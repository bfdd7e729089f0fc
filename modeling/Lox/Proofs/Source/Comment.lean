import Lox.Source.Piece

/-!
# Nested comments

* `CommentBody`: the texts of a block comment behind its opener, with its closer;
* `commentEnd_append`: such a text is read as far as it goes, whatever follows;
* `CommentBody.eq_of_isPrefix`: so a text begins with one of them at most;
* `bodies_of_commentEnd`: what is read is such a text;
* `commentEnd_eq_some_iff`: the two together, for the outermost comment.
-/

namespace Lox.Source

/-- A text that stands between the opener of a comment and what follows the comment: comments and
characters at which neither an opener nor a closer stands, and a closer. -/
inductive CommentBody : List Char → Prop
  | close : CommentBody ['*', '/']
  | nest {t u : List Char} : CommentBody t → CommentBody u → CommentBody ('/' :: '*' :: (t ++ u))
  | char {c : Char} {t : List Char} : ¬ ['*', '/'] <+: c :: t → ¬ ['/', '*'] <+: c :: t →
      CommentBody t → CommentBody (c :: t)

theorem CommentBody.two_le {t : List Char} (h : CommentBody t) : 2 ≤ t.length := by
  induction h with
  | close => decide
  | nest _ _ _ _ => simp
  | char _ _ _ ih => exact Nat.le_succ_of_le ih

theorem CommentBody.pair_isPrefix_iff {t : List Char} (h : CommentBody t) (a b c : Char)
    (rest : List Char) : [a, b] <+: c :: (t ++ rest) ↔ [a, b] <+: c :: t := by
  have hlen := h.two_le
  match t with
  | [] => simp at hlen
  | d :: t => simp [List.cons_prefix_cons]

theorem commentEnd_char {c : Char} {cs : List Char} (hclose : ¬ ['*', '/'] <+: c :: cs)
    (hopen : ¬ ['/', '*'] <+: c :: cs) (depth read : Nat) :
    commentEnd depth read (c :: cs) = commentEnd depth (read + 1) cs := by
  rw [commentEnd]
  · rintro cs' rfl rfl
    exact hopen ⟨cs', rfl⟩
  · rintro cs' rfl rfl
    exact hclose ⟨cs', rfl⟩

theorem commentEnd_append {t : List Char} (h : CommentBody t) (depth read : Nat)
    (rest : List Char) : commentEnd depth read (t ++ rest) = match depth with
      | 0 => some (read + t.length)
      | outer + 1 => commentEnd outer (read + t.length) rest := by
  induction h generalizing depth read rest with
  | close => cases depth <;> rfl
  | @nest t u _ _ iht ihu =>
    have hopen : commentEnd depth read ('/' :: '*' :: (t ++ u) ++ rest) =
        commentEnd (depth + 1) (read + 2) (t ++ (u ++ rest)) := by
      rw [List.cons_append, List.cons_append, commentEnd, List.append_assoc]
    have hlen : read + 2 + t.length + u.length = read + ('/' :: '*' :: (t ++ u)).length := by
      simp only [List.length_cons, List.length_append]
      omega
    rw [hopen, iht]
    dsimp only
    rw [ihu, hlen]
  | @char c t hclose hnest hbody ih =>
    have hlen : read + 1 + t.length = read + (c :: t).length := by
      rw [List.length_cons]
      omega
    rw [List.cons_append, commentEnd_char, ih, hlen]
    · rwa [hbody.pair_isPrefix_iff]
    · rwa [hbody.pair_isPrefix_iff]

theorem CommentBody.eq_of_isPrefix {t u cs : List Char} (ht : CommentBody t) (hu : CommentBody u)
    (htcs : t <+: cs) (hucs : u <+: cs) : t = u := by
  obtain ⟨r, hr⟩ := htcs
  obtain ⟨r', hr'⟩ := hucs
  have hend := (commentEnd_append ht 0 0 r).symm.trans
    ((congrArg _ (hr.trans hr'.symm)).trans (commentEnd_append hu 0 0 r'))
  have hlen : t.length = u.length := by simpa using hend
  exact (List.append_inj (hr.trans hr'.symm) hlen).1

/-- What is read are bodies, one for each comment that is open. -/
theorem bodies_of_commentEnd {depth read n : Nat} {cs : List Char}
    (h : commentEnd depth read cs = some n) : ∃ (ts : List (List Char)) (rest : List Char),
      ts.length = depth + 1 ∧ (∀ t ∈ ts, CommentBody t) ∧
        cs = ts.flatten ++ rest ∧ n = read + ts.flatten.length := by
  fun_induction commentEnd depth read cs with
  | case1 => cases h
  | case2 depth read cs ih =>
    obtain ⟨ts, rest, hlen, hts, rfl, rfl⟩ := ih h
    -- An opener: the body behind it and the body that goes on there are one.
    match ts, hlen with
    | t :: u :: ts, hlen =>
      obtain ⟨ht, hts⟩ := List.forall_mem_cons.mp hts
      obtain ⟨hu, hts⟩ := List.forall_mem_cons.mp hts
      refine ⟨('/' :: '*' :: (t ++ u)) :: ts, rest, by simpa using hlen, ?_, by simp, ?_⟩
      · exact List.forall_mem_cons.mpr ⟨.nest ht hu, hts⟩
      · simp only [List.flatten_cons, List.length_append, List.length_cons]
        omega
  | case3 read cs =>
    refine ⟨[['*', '/']], cs, rfl, by simpa using CommentBody.close, rfl, ?_⟩
    simpa using h.symm
  | case4 read cs outer ih =>
    obtain ⟨ts, rest, hlen, hts, rfl, rfl⟩ := ih h
    refine ⟨['*', '/'] :: ts, rest, by simpa using hlen, ?_, by simp, ?_⟩
    · exact List.forall_mem_cons.mpr ⟨.close, hts⟩
    · simp only [List.flatten_cons, List.length_append, List.length_cons, List.length_nil]
      omega
  | case5 depth read c cs hopen hclose ih =>
    obtain ⟨ts, rest, hlen, hts, rfl, rfl⟩ := ih h
    match ts, hlen with
    | t :: ts, hlen =>
      obtain ⟨ht, hts⟩ := List.forall_mem_cons.mp hts
      have hpair : ∀ a b, [a, b] <+: c :: t →
          ∃ cs', (t :: ts).flatten ++ rest = b :: cs' ∧ c = a := by
        rintro a b ⟨cs', hcs⟩
        obtain ⟨rfl, rfl⟩ := List.cons_eq_cons.mp hcs
        exact ⟨cs' ++ ts.flatten ++ rest, by simp, rfl⟩
      refine ⟨(c :: t) :: ts, rest, by simpa using hlen, ?_, by simp, ?_⟩
      · refine List.forall_mem_cons.mpr ⟨.char ?_ ?_ ht, hts⟩
        · intro hp
          obtain ⟨cs', heq, rfl⟩ := hpair _ _ hp
          exact hclose cs' rfl heq
        · intro hp
          obtain ⟨cs', heq, rfl⟩ := hpair _ _ hp
          exact hopen cs' rfl heq
      · simp only [List.flatten_cons, List.length_append, List.length_cons]
        omega

/-- A comment ends where its body ends. -/
theorem commentEnd_eq_some_iff {read n : Nat} {cs : List Char} :
    commentEnd 0 read cs = some n ↔
      ∃ t rest, cs = t ++ rest ∧ CommentBody t ∧ n = read + t.length := by
  constructor
  · intro h
    obtain ⟨ts, rest, hlen, hts, rfl, rfl⟩ := bodies_of_commentEnd h
    obtain ⟨t, rfl⟩ := List.length_eq_one_iff.mp hlen
    exact ⟨t, rest, by simp, hts t (by simp), by simp⟩
  · rintro ⟨t, rest, rfl, ht, rfl⟩
    exact commentEnd_append ht 0 read rest

end Lox.Source
