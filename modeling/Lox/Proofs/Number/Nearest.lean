import Lox.Number.Nearest
import Mathlib.Tactic.Ring

/-!
# What rounds to a double

* `roundDiv_eq`: a quotient rounds to the integer that is at most half a unit away;
* `binade_spec`, `binade_le`: the scale that is chosen leaves 53 bits and is the least to do so;
* `Reaches`: a quotient lies between the points half way to the neighbours of a double;
* `nearestBits_of_reaches`: such a quotient rounds to the double.
-/

namespace Lox.Number

open Double (hiddenBit infinityBits magnitudeBits)

/-! ## Rounding to an integer -/

/-- A quotient rounds to an integer at most half a unit away, if the integer is even or strictly
nearer. -/
theorem roundDiv_eq {num den m : Nat} (hden : 0 < den) (hlow : 2 * (m * den) ≤ 2 * num + den)
    (hhigh : 2 * num ≤ 2 * (m * den) + den)
    (hodd : m % 2 = 1 → 2 * (m * den) < 2 * num + den ∧ 2 * num < 2 * (m * den) + den) :
    roundDiv num den = m := by
  have hdiv := Nat.div_add_mod' num den
  have hlt := Nat.mod_lt num hden
  have hle : num / den ≤ m := by
    by_contra hcon
    have hmul := Nat.mul_le_mul_right den (Nat.lt_of_not_le hcon)
    rw [Nat.succ_mul] at hmul
    omega
  have hge : m ≤ num / den + 1 := by
    by_contra hcon
    have hmul := Nat.mul_le_mul_right den (Nat.lt_of_not_le hcon)
    rw [Nat.succ_mul, Nat.succ_mul] at hmul
    omega
  unfold roundDiv
  dsimp only
  generalize num / den = q at hdiv hle hge ⊢
  generalize num % den = rest at hdiv hlt ⊢
  rcases Nat.lt_or_eq_of_le hle with hless | rfl
  · obtain rfl : m = q + 1 := by omega
    rw [Nat.add_mul, Nat.one_mul] at hlow hhigh hodd
    split
    · omega
    · split <;> omega
  · split
    · rfl
    · split <;> omega

/-! ## The scale -/

theorem binade_spec {den : Nat} (num : Nat) (hden : 0 < den) :
    num < den * 2 ^ (binade num den + 53) ∧
      (binade num den = 0 ∨ den * 2 ^ (binade num den + 52) ≤ num) := by
  have hnum := Nat.lt_log2_self (n := num)
  have hlow := Nat.log2_self_le (Nat.pos_iff_ne_zero.mp hden)
  have hhigh := Nat.lt_log2_self (n := den)
  have hself : num.log2 ≠ 0 → 2 ^ num.log2 ≤ num := by
    intro hlog
    refine Nat.log2_self_le ?_
    rintro rfl
    exact hlog Nat.log2_zero
  unfold binade
  dsimp only
  rw [Nat.shiftLeft_eq]
  generalize num.log2 = a at *
  generalize den.log2 = b at *
  split_ifs with hlt
  · refine ⟨hlt, ?_⟩
    by_cases hzero : a - b - 53 = 0
    · exact .inl hzero
    · refine .inr (Nat.le_of_lt ?_)
      calc den * 2 ^ (a - b - 53 + 52)
          < 2 ^ (b + 1) * 2 ^ (a - b - 53 + 52) :=
            Nat.mul_lt_mul_of_pos_right hhigh (Nat.two_pow_pos _)
        _ = 2 ^ (b + 1 + (a - b - 53 + 52)) := (Nat.pow_add ..).symm
        _ = 2 ^ a := by congr 1; omega
        _ ≤ num := hself (by omega)
  · refine ⟨?_, .inr (Nat.le_of_not_lt hlt)⟩
    calc num < 2 ^ (a + 1) := hnum
      _ ≤ 2 ^ (b + (a - b - 53 + 1 + 53)) := Nat.pow_le_pow_right (by decide) (by omega)
      _ = 2 ^ b * 2 ^ (a - b - 53 + 1 + 53) := Nat.pow_add ..
      _ ≤ den * 2 ^ (a - b - 53 + 1 + 53) := Nat.mul_le_mul_right _ hlow

theorem binade_le {num den t : Nat} (hden : 0 < den) (h : num < den * 2 ^ (t + 53)) :
    binade num den ≤ t := by
  rcases (binade_spec num hden).2 with hzero | hle
  · omega
  · have hpow := Nat.lt_of_mul_lt_mul_left (Nat.lt_of_le_of_lt hle h)
    have hexp := (Nat.pow_lt_pow_iff_right (by decide)).mp hpow
    omega

/-! ## Rounding to a double -/

/-- The number `steps / den`, in units of `2 ^ -1074`, lies in the interval around `m * 2 ^ t` that
rounds to it: half a unit up, and down as much, or half of that where the gap below is half as
wide; without the ends if the significand is odd. -/
structure Reaches (steps den m t : Nat) : Prop where
  low : 4 * (m * (den * 2 ^ t)) ≤ 4 * steps +
    if m = hiddenBit ∧ 0 < t then den * 2 ^ t else 2 * (den * 2 ^ t)
  high : 4 * steps ≤ 4 * (m * (den * 2 ^ t)) + 2 * (den * 2 ^ t)
  odd : m % 2 = 1 → 4 * (m * (den * 2 ^ t)) < 4 * steps + 2 * (den * 2 ^ t) ∧
    4 * steps < 4 * (m * (den * 2 ^ t)) + 2 * (den * 2 ^ t)

namespace Reaches

variable {steps den m t : Nat}

theorem half (h : Reaches steps den m t) :
    4 * (m * (den * 2 ^ t)) ≤ 4 * steps + 2 * (den * 2 ^ t) := by
  have hlow := h.low
  split at hlow <;> omega

theorem roundDiv_eq (h : Reaches steps den m t) (hden : 0 < den) :
    roundDiv steps (den * 2 ^ t) = m := by
  have hlow := h.half
  have hhigh := h.high
  have hodd := h.odd
  refine Number.roundDiv_eq (Nat.mul_pos hden (Nat.two_pow_pos t)) ?_ ?_ fun hm => ?_ <;> omega

theorem binade_le (h : Reaches steps den m t) (hden : 0 < den) (hm : m < 2 * hiddenBit) :
    binade steps den ≤ t := by
  refine Number.binade_le hden ?_
  have hpos := Nat.mul_pos hden (Nat.two_pow_pos t)
  have hmul : m * (den * 2 ^ t) ≤ (2 * hiddenBit - 1) * (den * 2 ^ t) :=
    Nat.mul_le_mul_right _ (by omega)
  have hhigh := h.high
  rw [Nat.pow_add, ← Nat.mul_assoc]
  simp only [hiddenBit] at hmul
  omega

/-- Below the least significand of a binade the quotient may lie on the next smaller scale, and
rounds up to twice that significand there. -/
theorem roundDiv_below (h : Reaches steps den m t) (hden : 0 < den) (hnormal : hiddenBit ≤ m)
    (hlt : binade steps den < t) : m = hiddenBit ∧ binade steps den + 1 = t ∧
      roundDiv steps (den * 2 ^ binade steps den) = 2 * hiddenBit := by
  have hspec := (binade_spec steps hden).1
  have hlow := h.low
  have hhalf := h.half
  generalize binade steps den = b at *
  have hscale : ∀ k, b + k ≤ t → den * 2 ^ b * 2 ^ k ≤ den * 2 ^ t := fun k hk => by
    rw [Nat.mul_assoc, ← Nat.pow_add]
    exact Nat.mul_le_mul_left den (Nat.pow_le_pow_right (by decide) hk)
  have hpos := Nat.mul_pos hden (Nat.two_pow_pos t)
  have hone := hscale 1 hlt
  rw [Nat.pow_add, ← Nat.mul_assoc] at hspec
  have hbit : hiddenBit = 0x10000000000000 := rfl
  -- from a larger significand the quotient would not be reached on a smaller scale, and from the
  -- least one not two scales down
  have hm : m = hiddenBit := by
    by_contra hne
    have hmul : (hiddenBit + 1) * (den * 2 ^ t) ≤ m * (den * 2 ^ t) :=
      Nat.mul_le_mul_right _ (by omega)
    rw [hbit] at hmul
    omega
  subst hm
  rw [if_pos ⟨rfl, by omega⟩, hbit] at hlow
  have hnext : b + 1 = t := by
    by_contra hne
    have htwo := hscale 2 (by omega)
    omega
  subst hnext
  have hdouble : den * 2 ^ (b + 1) = 2 * (den * 2 ^ b) := by ring
  rw [hdouble] at hlow
  refine ⟨rfl, rfl, Number.roundDiv_eq (Nat.mul_pos hden (Nat.two_pow_pos b)) ?_ ?_ nofun⟩ <;>
    rw [hbit] <;> omega

end Reaches

/-- What lies in the interval of a finite double rounds to it. -/
theorem nearestBits_of_reaches {num den m t : Nat} (h : Reaches (num <<< 1074) den m t)
    (hden : 0 < den) (hm : m < 2 * hiddenBit) (hnormal : 0 < t → hiddenBit ≤ m)
    (hsize : magnitudeBits m t ≤ infinityBits) :
    nearestBits num den = UInt64.ofNat (magnitudeBits m t) := by
  unfold nearestBits
  generalize num <<< 1074 = steps at h ⊢
  dsimp only
  rw [Nat.shiftLeft_eq]
  rcases Nat.lt_or_eq_of_le (h.binade_le hden hm) with hlt | heq
  · have hpos : 0 < t := Nat.lt_of_le_of_lt (Nat.zero_le _) hlt
    obtain ⟨hmin, hnext, hround⟩ := h.roundDiv_below hden (hnormal hpos) hlt
    rw [hround, Double.magnitudeBits_carry, hnext, ← hmin, Nat.min_eq_right hsize]
  · rw [heq, h.roundDiv_eq hden, Nat.min_eq_right hsize]

end Lox.Number
