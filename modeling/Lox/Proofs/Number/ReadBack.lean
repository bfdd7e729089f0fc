import Lox.Number.Numeral
import Lox.Proofs.Number.Bits
import Lox.Proofs.Number.Nearest

/-!
# Numerals read back

* `Interval.exists_search`: the decimal that is found lies in the interval of its double;
* `reaches_of_contains`: what lies in the interval rounds to the double;
* `IsNumeral`, `Decimal.isNumeral_toChars`: a decimal is written with digits and at most one point;
* `numeral_reads_back`: the text of a finite double stands for that double.
-/

namespace Lox.Number

open Double (hiddenBit infinityBits magnitudeBits)

/-! ## The decimal lies in the interval -/

namespace Interval

theorem exists_search {i : Interval} (hvalue : i.contains i.value = true) (k : Nat) :
    ∃ c j : Nat, i.search k = ⟨c, j - i.places⟩ ∧ i.contains (c * 10 ^ j) = true := by
  induction k with
  | zero => exact ⟨i.value, 0, by simp [search], by simpa using hvalue⟩
  | succ k ih =>
    rw [search]
    cases hc : i.onGrid? (Nat.pow 10 (k + 1)) with
    | some c => exact ⟨c, k + 1, rfl, contains_of_onGrid? hc⟩
    | none => exact ih

/-- A unit of the significand, in units of `10 ^ -places`. -/
def ulp (t : Nat) : Nat := 5 ^ (1074 - t) * 2 ^ (t - 1074)

theorem ulp_pos (t : Nat) : 0 < ulp t :=
  Nat.mul_pos (Nat.pow_pos (by decide)) (Nat.two_pow_pos _)

theorem ofMagnitude_eq (m t : Nat) : ofMagnitude m t =
    { places := 1074 - t
      value := m * ulp t
      low := 4 * (m * ulp t) - if m = hiddenBit ∧ 0 < t then ulp t else 2 * ulp t
      high := 4 * (m * ulp t) + 2 * ulp t
      closed := m % 2 = 0 } := by
  simp only [ofMagnitude, Nat.pow_eq, Nat.shiftLeft_eq, ulp]

theorem contains_iff {m t v : Nat} : (ofMagnitude m t).contains v = true ↔
    4 * (m * ulp t) ≤ 4 * v + (if m = hiddenBit ∧ 0 < t then ulp t else 2 * ulp t) ∧
    4 * v ≤ 4 * (m * ulp t) + 2 * ulp t ∧
    (m % 2 = 1 → 4 * (m * ulp t) < 4 * v + 2 * ulp t ∧ 4 * v < 4 * (m * ulp t) + 2 * ulp t) := by
  rw [ofMagnitude_eq, contains]
  rcases Nat.mod_two_eq_zero_or_one m with heven | hodd
  · simp [heven]
  · have hne : ¬ (m = hiddenBit ∧ 0 < t) := by
      rintro ⟨rfl, -⟩
      exact absurd hodd (by decide)
    have hmul : ulp t ≤ m * ulp t := Nat.le_mul_of_pos_left _ (by omega)
    have hpos := ulp_pos t
    simp only [hodd, hne]
    simp
    omega

theorem contains_value (m t : Nat) :
    (ofMagnitude m t).contains (ofMagnitude m t).value = true := by
  have hpos := ulp_pos t
  have hvalue : (ofMagnitude m t).value = m * ulp t := by rw [ofMagnitude_eq]
  rw [hvalue]
  refine contains_iff.mpr ⟨Nat.le_add_right _ _, Nat.le_add_right _ _, fun _ => ?_⟩
  omega

end Interval

/-- The decimal that is found for a double lies in its interval. -/
theorem exists_shortest (m t : Nat) : ∃ c j : Nat, shortest m t = ⟨c, j - (1074 - t : Nat)⟩ ∧
    (Interval.ofMagnitude m t).contains (c * 10 ^ j) = true := by
  have hplaces : (Interval.ofMagnitude m t).places = 1074 - t := by
    rw [Interval.ofMagnitude_eq]
  rw [shortest, ← hplaces]
  exact Interval.exists_search (Interval.contains_value m t) _

/-! ## What lies in the interval rounds to the double -/

/-- Binary and decimal units: `n` binary places and what stands for them in tens. -/
theorem two_pow_mul (n t : Nat) :
    2 ^ n * (5 ^ (n - t) * 2 ^ (t - n)) = 2 ^ t * 10 ^ (n - t) := by
  have hexp : n + (t - n) = t + (n - t) := by omega
  calc 2 ^ n * (5 ^ (n - t) * 2 ^ (t - n))
      = 2 ^ (n + (t - n)) * 5 ^ (n - t) := by rw [Nat.pow_add]; ring
    _ = 2 ^ (t + (n - t)) * 5 ^ (n - t) := by rw [hexp]
    _ = 2 ^ t * (2 ^ (n - t) * 5 ^ (n - t)) := by rw [Nat.pow_add, Nat.mul_assoc]
    _ = 2 ^ t * 10 ^ (n - t) := by rw [← Nat.mul_pow]

theorem Reaches.of_scaled {steps den m t v u p w : Nat} (hp : 0 < p) (hw : 0 < w)
    (hsteps : steps * p = v * w) (hden : den * 2 ^ t * p = u * w)
    (hlow : 4 * (m * u) ≤ 4 * v + if m = hiddenBit ∧ 0 < t then u else 2 * u)
    (hhigh : 4 * v ≤ 4 * (m * u) + 2 * u)
    (hodd : m % 2 = 1 → 4 * (m * u) < 4 * v + 2 * u ∧ 4 * v < 4 * (m * u) + 2 * u) :
    Reaches steps den m t := by
  generalize hunit : den * 2 ^ t = unit at hden
  have hmid : 4 * (m * unit) * p = 4 * (m * u) * w := by
    rw [Nat.mul_assoc, Nat.mul_assoc, hden]
    ring
  have hup : (4 * (m * unit) + 2 * unit) * p = (4 * (m * u) + 2 * u) * w := by
    rw [Nat.add_mul, hmid, Nat.mul_assoc 2, hden]
    ring
  have hout : ∀ k, (4 * steps + k * unit) * p = (4 * v + k * u) * w := fun k => by
    rw [Nat.add_mul, Nat.mul_assoc, hsteps, Nat.mul_assoc, hden]
    ring
  have hzero : 4 * steps * p = 4 * v * w := by
    rw [Nat.mul_assoc, hsteps, Nat.mul_assoc]
  have hle : ∀ {x y a b : Nat}, x * p = a * w → y * p = b * w → a ≤ b → x ≤ y := by
    intro x y a b hx hy hab
    refine Nat.le_of_mul_le_mul_right ?_ hp
    rw [hx, hy]
    exact Nat.mul_le_mul_right w hab
  have hlt : ∀ {x y a b : Nat}, x * p = a * w → y * p = b * w → a < b → x < y := by
    intro x y a b hx hy hab
    refine Nat.lt_of_mul_lt_mul_right (a := p) ?_
    rw [hx, hy]
    exact Nat.mul_lt_mul_of_pos_right hab hw
  refine ⟨?_, ?_, fun hm => ?_⟩ <;> rw [hunit]
  · split_ifs at hlow ⊢ with hmin
    · rw [← Nat.one_mul unit]
      exact hle (by rw [Nat.one_mul, hmid]) (hout 1) (by rwa [Nat.one_mul])
    · exact hle hmid (hout 2) hlow
  · exact hle hzero hup hhigh
  · exact ⟨hlt hmid (hout 2) (hodd hm).1, hlt hzero hup (hodd hm).2⟩

/-- A decimal in the interval of a double, as a quotient in units of `2 ^ -1074`. -/
theorem reaches_of_contains {m t v num den : Nat} (hden : 0 < den)
    (h : (Interval.ofMagnitude m t).contains v = true)
    (hv : num * 10 ^ (1074 - t) = v * den) : Reaches (num <<< 1074) den m t := by
  obtain ⟨hlow, hhigh, hodd⟩ := Interval.contains_iff.mp h
  have hulp : 2 ^ 1074 * Interval.ulp t = 2 ^ t * 10 ^ (1074 - t) := by
    rw [Interval.ulp, two_pow_mul]
  refine .of_scaled (p := 10 ^ (1074 - t)) (w := den * 2 ^ 1074) (Nat.pow_pos (by decide))
    (Nat.mul_pos hden (Nat.two_pow_pos _)) ?_ ?_ hlow hhigh hodd
  · rw [Nat.shiftLeft_eq, Nat.mul_right_comm, hv, Nat.mul_assoc]
  · rw [Nat.mul_assoc, ← hulp, ← Nat.mul_assoc, Nat.mul_comm]

/-! ## Decimals are numerals -/

/-- The text is a numeral: digits, and perhaps a point and more digits. -/
inductive IsNumeral : List Char → List Char → List Char → Prop
  | whole {ds : List Char} : ds ≠ [] → (∀ d ∈ ds, d.isDigit = true) → IsNumeral ds ds []
  | fraction {ds es : List Char} : ds ≠ [] → (∀ d ∈ ds, d.isDigit = true) → es ≠ [] →
      (∀ e ∈ es, e.isDigit = true) → IsNumeral (ds ++ '.' :: es) ds es

theorem ofDigits_eq (ds : List Char) : ofDigits ds = Nat.ofDigitChars 10 ds 0 := rfl

theorem ofDigits_replicate_append (n : Nat) (ds : List Char) :
    ofDigits (List.replicate n '0' ++ ds) = ofDigits ds := by
  rw [ofDigits_eq, Nat.ofDigitChars_append, Nat.ofDigitChars_replicate_zero, Nat.mul_zero,
    ofDigits_eq]

theorem ofDigits_append_replicate (n : Nat) (ds : List Char) :
    ofDigits (ds ++ List.replicate n '0') = ofDigits ds * 10 ^ n := by
  rw [ofDigits_eq, Nat.ofDigitChars_append, Nat.ofDigitChars_replicate_zero, Nat.mul_comm,
    ofDigits_eq]

theorem ofDigits_toDigits (n : Nat) : ofDigits (Nat.toDigits 10 n) = n :=
  Nat.ofDigitChars_ten_toDigits

theorem isDigit_of_mem_replicate {n : Nat} {d : Char} (h : d ∈ List.replicate n '0') :
    d.isDigit = true := by
  obtain ⟨-, rfl⟩ := List.mem_replicate.mp h
  rfl

theorem isDigit_of_mem_toDigits {n : Nat} {d : Char} (h : d ∈ Nat.toDigits 10 n) :
    d.isDigit = true :=
  Nat.isDigit_of_mem_toDigits (by decide) (by decide) h

/-- A decimal with `j - places` as its exponent is written as a numeral, whose digits stand for it
with as many places as there are digits behind the point. -/
theorem Decimal.isNumeral_toChars (c j places : Nat) :
    ∃ ds es, IsNumeral (Decimal.toChars ⟨c, j - places⟩) ds es ∧
      ofDigits (ds ++ es) * 10 ^ places = c * 10 ^ j * 10 ^ es.length := by
  rw [toChars]
  dsimp only
  cases hexp : (j : Int) - places with
  | ofNat zeros =>
    have hj : j = zeros + places := by
      simp only [Int.ofNat_eq_natCast] at hexp
      omega
    refine ⟨Nat.toDigits 10 c ++ List.replicate zeros '0', [], .whole ?_ fun d hd => ?_, ?_⟩
    · simp [Nat.toDigits_ne_nil]
    · exact (List.mem_append.mp hd).elim isDigit_of_mem_toDigits isDigit_of_mem_replicate
    · rw [List.append_nil, ofDigits_append_replicate, ofDigits_toDigits, hj, List.length_nil,
        Nat.pow_zero, Nat.mul_one, Nat.pow_add, Nat.mul_assoc]
  | negSucc n =>
    have hplaces : places = j + (n + 1) := by
      simp only [Int.negSucc_eq] at hexp
      omega
    -- zeros before the digits leave at least one digit before the point
    generalize hds : List.replicate (n + 2 - (Nat.toDigits 10 c).length) '0' ++
      Nat.toDigits 10 c = ds
    have hlen : n + 2 ≤ ds.length := by
      rw [← hds, List.length_append, List.length_replicate]
      omega
    have hdigit : ∀ d ∈ ds, d.isDigit = true := fun d hd => by
      rw [← hds] at hd
      exact (List.mem_append.mp hd).elim isDigit_of_mem_replicate isDigit_of_mem_toDigits
    have hvalue : ofDigits ds = c := by
      rw [← hds, ofDigits_replicate_append, ofDigits_toDigits]
    dsimp only
    rw [hds]
    refine ⟨_, _, .fraction ?_ (fun d hd => hdigit d (List.mem_of_mem_take hd)) ?_
      (fun d hd => hdigit d (List.mem_of_mem_drop hd)), ?_⟩
    · rw [← List.length_pos_iff, List.length_take]
      omega
    · rw [← List.length_pos_iff, List.length_drop]
      omega
    · have hdrop : ds.length - (ds.length - (n + 1)) = n + 1 := by omega
      rw [List.take_append_drop, hvalue, List.length_drop, hdrop, hplaces, Nat.pow_add,
        Nat.mul_assoc]

/-! ## Doubles -/

/-- **Numerals read back**: the text of a finite double that is not negative is a numeral, and
stands for that double. -/
theorem numeral_reads_back {x : Float} {m t : Nat} (h : Double.ofFloat x = .finite false m t) :
    ∃ ds es, IsNumeral (numeral x).toList ds es ∧ ofNumeral ds es = x := by
  obtain ⟨hbits, hm, hnormal, hsize⟩ := Double.bits_of_finite h
  have hround : ∀ {ds es}, Reaches (ofDigits (ds ++ es) <<< 1074) (10 ^ es.length) m t →
      ofNumeral ds es = x := by
    intro ds es hreaches
    have hpos : 0 < 10 ^ es.length := Nat.pow_pos (by decide)
    rw [ofNumeral, nearest, Nat.pow_eq, nearestBits_of_reaches hreaches hpos hm hnormal hsize,
      ← hbits]
    exact Float.ofBits_toBits x
  have htext : (numeral x).toList = (Double.finite false m t).numeral := by
    rw [numeral, h, String.toList_ofList]
  rw [htext]
  cases m with
  | zero =>
    have hzero : t = 0 := by
      by_contra ht
      exact absurd (hnormal (Nat.pos_of_ne_zero ht)) (by decide)
    subst hzero
    have hdigit : ∀ d ∈ ['0'], d.isDigit = true := List.forall_mem_singleton.mpr rfl
    have hreaches : Reaches 0 1 0 0 := ⟨by simp, by simp, by simp⟩
    have hnone : ofDigits ['0'] <<< 1074 = 0 := Nat.zero_shiftLeft 1074
    refine ⟨['0'], [], IsNumeral.whole (List.cons_ne_nil _ _) hdigit, hround ?_⟩
    rw [List.append_nil, hnone]
    exact hreaches
  | succ m =>
    obtain ⟨c, j, hshort, hcontains⟩ := exists_shortest (m + 1) t
    obtain ⟨ds, es, hnumeral, hvalue⟩ := Decimal.isNumeral_toChars c j (1074 - t)
    rw [← hshort] at hnumeral
    exact ⟨ds, es, hnumeral,
      hround (reaches_of_contains (Nat.pow_pos (by decide)) hcontains hvalue)⟩

end Lox.Number
