import Lox.Number.Binary64

/-!
# The nearest double to a quotient

* `roundDiv`: a quotient rounded to an integer, a tie to the even one (`roundDiv_lower`,
  `roundDiv_upper`: it is at most half a unit away);
* `binade`: the least scale at which the significand has at most 53 bits;
* `nearestBits`: the bits of the double nearest to `num / den`, infinity beyond the largest.
-/

namespace Lox.Number

/-- The integer nearest to `num / den`; of two equally near ones, the even one. -/
def roundDiv (num den : Nat) : Nat :=
  let quotient := num / den
  let rest := num % den
  if 2 * rest < den then quotient
  else if den < 2 * rest then quotient + 1
  else quotient + quotient % 2

theorem roundDiv_upper (num den : Nat) : 2 * (roundDiv num den * den) ≤ 2 * num + den := by
  have h := Nat.div_add_mod num den
  rw [Nat.mul_comm] at h
  unfold roundDiv
  dsimp only
  have hpar : num / den % 2 = 0 ∨ num / den % 2 = 1 := by omega
  split
  · omega
  · split
    · rw [Nat.add_mul]; omega
    · rcases hpar with h0 | h0 <;> rw [h0, Nat.add_mul] <;> omega

theorem roundDiv_lower (num : Nat) {den : Nat} (hden : 0 < den) :
    2 * num ≤ 2 * (roundDiv num den * den) + den := by
  have h := Nat.div_add_mod num den
  have hlt := Nat.mod_lt num hden
  rw [Nat.mul_comm] at h
  unfold roundDiv
  dsimp only
  split
  · omega
  · split <;> rw [Nat.add_mul] <;> omega

/-- The least `t` with `num < den * 2 ^ (t + 53)`: found from the two bit lengths, which leave
two neighbours to choose from. -/
def binade (num den : Nat) : Nat :=
  let t := num.log2 - den.log2 - 53
  if num < den <<< (t + 53) then t else t + 1

/-- The bits of the double nearest to `num / den`, a tie going to the even significand. -/
def nearestBits (num den : Nat) : UInt64 :=
  let steps := num <<< 1074
  let t := binade steps den
  let m := roundDiv steps (den <<< t)
  UInt64.ofNat (min Double.infinityBits (Double.magnitudeBits m t))

/-- The double nearest to `num / den`. -/
def nearest (num den : Nat) : Float := Float.ofBits (nearestBits num den)

end Lox.Number
