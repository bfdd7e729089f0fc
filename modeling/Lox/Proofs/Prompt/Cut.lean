import Mathlib.Data.List.TakeWhile
import Lox.Text

/-!
# Lines and words of a conversation

* `Text.Cuts`: bytes and the lines that they are cut into (`cuts_iff`);
* `Text.Trims`: a text and what is left of it without white space at its ends (`trims_iff`).
-/

namespace Lox.Text

/-! ## Lines -/

/-- The bytes are cut into the lines. A newline ends a line, and one carriage return before it does
not belong to the line; the last line may lack the newline. -/
inductive Cuts : List UInt8 → List (List UInt8) → Prop
  | nil : Cuts [] []
  | last {line : List UInt8} : line ≠ [] → newline ∉ line → Cuts line [line]
  | line {line rest : List UInt8} {lines : List (List UInt8)} : newline ∉ line →
      line.getLast? ≠ some carriageReturn → Cuts rest lines →
      Cuts (line ++ newline :: rest) (line :: lines)
  | lineReturn {line rest : List UInt8} {lines : List (List UInt8)} : newline ∉ line →
      Cuts rest lines → Cuts (line ++ carriageReturn :: newline :: rest) (line :: lines)

variable {bytes line rest : List UInt8} {lines : List (List UInt8)}

theorem takeWhile_line (h : newline ∉ line) (rest : List UInt8) :
    (line ++ newline :: rest).takeWhile (· != newline) = line := by
  rw [List.takeWhile_append_of_pos fun b hb => by simpa using ne_of_mem_of_not_mem hb h]
  simp

theorem dropWhile_line (h : newline ∉ line) (rest : List UInt8) :
    (line ++ newline :: rest).dropWhile (· != newline) = newline :: rest := by
  rw [List.dropWhile_append_of_pos fun b hb => by simpa using ne_of_mem_of_not_mem hb h]
  simp

theorem cutLines_line (h : newline ∉ line) (rest : List UInt8) :
    cutLines (line ++ newline :: rest) = dropReturn line :: cutLines rest := by
  obtain ⟨b, bytes, hbytes⟩ := List.exists_cons_of_ne_nil
    (List.append_ne_nil_of_right_ne_nil line (List.cons_ne_nil newline rest))
  have htake := takeWhile_line h rest
  have hdrop := dropWhile_line h rest
  rw [hbytes] at htake hdrop ⊢
  rw [cutLines_of_cons hdrop, htake]

theorem cutLines_last (hne : line ≠ []) (h : newline ∉ line) : cutLines line = [line] := by
  obtain ⟨b, bytes, rfl⟩ := List.exists_cons_of_ne_nil hne
  have hnil : (b :: bytes).dropWhile (· != newline) = [] := by
    rw [List.dropWhile_eq_nil_iff]
    intro c hc
    simpa using ne_of_mem_of_not_mem hc h
  exact cutLines_of_nil hnil

theorem dropReturn_concat (line : List UInt8) :
    dropReturn (line ++ [carriageReturn]) = line := by
  rw [dropReturn, List.getLast?_concat, if_pos rfl, List.dropLast_concat]

theorem dropReturn_of_ne (h : line.getLast? ≠ some carriageReturn) : dropReturn line = line :=
  if_neg h

theorem notMem_concat_return (h : newline ∉ line) : newline ∉ line ++ [carriageReturn] := by
  rw [List.mem_append, List.mem_singleton, not_or]
  exact ⟨h, by decide⟩

theorem cutLines_of_cuts (h : Cuts bytes lines) : cutLines bytes = lines := by
  induction h with
  | nil => rw [cutLines]
  | last hne h => exact cutLines_last hne h
  | line h hreturn _ ih => rw [cutLines_line h, dropReturn_of_ne hreturn, ih]
  | lineReturn h _ ih =>
    rw [List.append_cons, cutLines_line (notMem_concat_return h), dropReturn_concat, ih]

/-- The next line is cut off whether a carriage return stands at its end or not. -/
theorem Cuts.cons (h : newline ∉ line) (hrest : Cuts rest lines) :
    Cuts (line ++ newline :: rest) (dropReturn line :: lines) := by
  by_cases hreturn : line.getLast? = some carriageReturn
  · obtain ⟨init, rfl⟩ := List.getLast?_eq_some_iff.mp hreturn
    rw [dropReturn_concat, List.append_assoc]
    exact .lineReturn (fun hmem => h (List.mem_append_left _ hmem)) hrest
  · rw [dropReturn_of_ne hreturn]
    exact .line h hreturn hrest

theorem cuts_cutLines (bytes : List UInt8) : Cuts bytes (cutLines bytes) := by
  fun_induction cutLines bytes with
  | case1 => exact .nil
  | case2 b bytes hnil =>
    refine .last (List.cons_ne_nil b bytes) fun hmem => ?_
    have hne := List.dropWhile_eq_nil_iff.mp hnil newline hmem
    simp at hne
  | case3 b bytes c rest hcons ih =>
    have hsplit := List.takeWhile_append_dropWhile (p := (· != newline)) (l := b :: bytes)
    have hc : c = newline := by
      have hhead := List.head?_dropWhile_not (· != newline) (b :: bytes)
      rw [hcons] at hhead
      simpa using hhead
    rw [hcons, hc] at hsplit
    have hline : newline ∉ (b :: bytes).takeWhile (· != newline) := by
      intro hmem
      have hne := List.mem_takeWhile_imp hmem
      simp at hne
    have hcuts := Cuts.cons hline ih
    rwa [hsplit] at hcuts

/-- Bytes are cut into lines in one way. -/
theorem cuts_iff : Cuts bytes lines ↔ cutLines bytes = lines := by
  refine ⟨cutLines_of_cuts, ?_⟩
  rintro rfl
  exact cuts_cutLines bytes

/-! ## Words -/

/-- The word is what is left of the text without the white space at its ends. -/
structure Trims (text word : List Char) : Prop where
  split : ∃ before behind, text = before ++ word ++ behind ∧
    (∀ c ∈ before, isWhiteSpace c = true) ∧ ∀ c ∈ behind, isWhiteSpace c = true
  first : ∀ c, word.head? = some c → isWhiteSpace c = false
  last : ∀ c, word.getLast? = some c → isWhiteSpace c = false

variable {text word : List Char}

theorem dropWhile_of_head? {p : Char → Bool} {cs : List Char}
    (h : ∀ c, cs.head? = some c → p c = false) : cs.dropWhile p = cs := by
  cases cs with
  | nil => rfl
  | cons c cs => rw [List.dropWhile_cons_of_neg (Bool.eq_false_iff.mp (h c rfl))]

theorem head?_append_of_ne (h : word ≠ []) (behind : List Char) :
    (word ++ behind).head? = word.head? := by
  obtain ⟨c, cs, rfl⟩ := List.exists_cons_of_ne_nil h
  rfl

theorem of_head?_dropWhile {p : Char → Bool} {cs : List Char} {c : Char}
    (h : (cs.dropWhile p).head? = some c) : p c = false := by
  have hhead := List.head?_dropWhile_not p cs
  rwa [h] at hhead

theorem trim_of_trims (h : Trims text word) : trim text = word := by
  obtain ⟨before, behind, rfl, hbefore, hbehind⟩ := h.split
  by_cases hword : word = []
  · subst hword
    have hall : (before ++ [] ++ behind).dropWhile isWhiteSpace = [] := by
      rw [List.dropWhile_eq_nil_iff]
      intro c hc
      rcases List.mem_append.mp hc with hc | hc
      · exact hbefore c (by simpa using hc)
      · exact hbehind c hc
    rw [trim, hall]
    rfl
  · have hfront : (word ++ behind).dropWhile isWhiteSpace = word ++ behind :=
      dropWhile_of_head? fun c hc => h.first c (by rwa [head?_append_of_ne hword] at hc)
    have hback : word.reverse.dropWhile isWhiteSpace = word.reverse :=
      dropWhile_of_head? fun c hc => h.last c (by rwa [List.head?_reverse] at hc)
    rw [trim, List.append_assoc, List.dropWhile_append_of_pos hbefore, hfront,
      List.reverse_append, List.dropWhile_append_of_pos (by simpa using hbehind), hback,
      List.reverse_reverse]

theorem trims_trim (text : List Char) : Trims text (trim text) := by
  have hfront := List.takeWhile_append_dropWhile (p := isWhiteSpace) (l := text)
  generalize htail : (text.dropWhile isWhiteSpace).reverse.takeWhile isWhiteSpace = tail
  have hback : trim text ++ tail.reverse = text.dropWhile isWhiteSpace := by
    rw [trim, ← htail, ← List.reverse_append, List.takeWhile_append_dropWhile,
      List.reverse_reverse]
  have htailWhite : ∀ c ∈ tail, isWhiteSpace c = true := by
    rw [← htail]
    exact fun c hc => List.mem_takeWhile_imp hc
  refine ⟨⟨text.takeWhile isWhiteSpace, tail.reverse, ?_, fun c hc => List.mem_takeWhile_imp hc,
    fun c hc => htailWhite c (List.mem_reverse.mp hc)⟩, fun c hc => ?_, fun c hc => ?_⟩
  · rw [List.append_assoc, hback, hfront]
  · have hne : trim text ≠ [] := List.ne_nil_of_mem (List.mem_of_head? hc)
    rw [← head?_append_of_ne hne, hback] at hc
    exact of_head?_dropWhile hc
  · rw [trim, List.getLast?_reverse] at hc
    exact of_head?_dropWhile hc

theorem trims_iff : Trims text word ↔ trim text = word := by
  refine ⟨trim_of_trims, ?_⟩
  rintro rfl
  exact trims_trim text

end Lox.Text
