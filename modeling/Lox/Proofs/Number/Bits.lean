import Mathlib
import Lox.Number.Nearest

/-!
# The bits of a float

* `Double.bits_of_finite`: a finite double that is not negative is its magnitude;
* `toBits_ofBits`: bits up to those of infinity are those of the float made of them;
* `infinity`, `exists_ofFloat_nearest`: what a numeral rounds to is finite and not negative, unless
  it is infinity.
-/

namespace Lox.Number

open Float.Model (Format)
open Float.Model.UnpackedFloat (unpackExponent unpackMantissa)

namespace Double

/-- The bits of a finite double that is not negative are those of its magnitude. -/
theorem bits_of_finite {bits : UInt64} {m t : Nat} (h : ofBits bits = .finite false m t) :
    bits = UInt64.ofNat (magnitudeBits m t) ∧ m < 2 * hiddenBit ∧ (0 < t → hiddenBit ≤ m) ∧
      magnitudeBits m t ≤ infinityBits := by
  have hself : bits = UInt64.ofNat bits.toNat := (UInt64.ofNat_toNat ..).symm
  have hlt := bits.toNat_lt
  generalize hn : bits.toNat = n at *
  unfold ofBits at h
  rw [hn] at h
  dsimp only at h
  -- The exponent 0 has no hidden bit, and any other one less than all ones has one.
  split_ifs at h with hinf hfraction hzero
  · simp only [finite.injEq, decide_eq_false_iff_not] at h
    obtain ⟨hsign, rfl, rfl⟩ := h
    simp only [hiddenBit, infinityBits, magnitudeBits] at *
    refine ⟨?_, ?_, ?_, ?_⟩
    · rw [hself]
      congr 1
      omega
    · omega
    · omega
    · omega
  · simp only [finite.injEq, decide_eq_false_iff_not] at h
    obtain ⟨hsign, rfl, rfl⟩ := h
    have hpos := Nat.pos_of_ne_zero hzero
    rw [magnitudeBits_hidden _ _ hpos]
    simp only [hiddenBit, infinityBits] at *
    refine ⟨?_, ?_, ?_, ?_⟩
    · rw [hself]
      congr 1
      omega
    · omega
    · omega
    · omega

end Double

theorem toBits_ofBits {bits : UInt64} (h : bits.toNat ≤ Double.infinityBits) :
    (Float.ofBits bits).toBits = bits := by
  have hvalid : Format.binary64.Valid bits.toBitVec := by
    refine ⟨fun hexponent hmantissa => absurd ?_ hmantissa⟩
    have hexp : bits.toNat / 4503599627370496 % 2048 = 2047 := by
      simpa [unpackExponent, BitVec.extractLsb, Nat.shiftRight_eq_div_pow] using
        congrArg BitVec.toNat hexponent
    have hmant : bits.toNat % 4503599627370496 = 0 := by
      simp only [Double.infinityBits] at h
      omega
    refine BitVec.eq_of_toNat_eq ?_
    simpa [unpackMantissa, BitVec.extractLsb] using hmant
  have hback := Float.ofBits_toBits ⟨⟨bits, hvalid⟩⟩
  rw [Float.toBits] at hback
  rw [hback]
  rfl

/-- The float beyond all finite ones. -/
def infinity : Float := Float.ofBits (UInt64.ofNat Double.infinityBits)

theorem toNat_nearestBits_le (num den : Nat) :
    (nearestBits num den).toNat ≤ Double.infinityBits := by
  unfold nearestBits
  dsimp only
  rw [UInt64.toNat_ofNat_of_lt']
  · exact Nat.min_le_left _ _
  · refine Nat.lt_of_le_of_lt (Nat.min_le_left _ _) ?_
    decide

/-- What a numeral rounds to is finite and not negative, unless it is infinity. -/
theorem exists_ofFloat_nearest {num den : Nat} (h : nearest num den ≠ infinity) :
    ∃ m t, Double.ofFloat (nearest num den) = .finite false m t := by
  have hle := toNat_nearestBits_le num den
  have hne : (nearestBits num den).toNat ≠ Double.infinityBits := by
    intro heq
    exact h (by rw [nearest, infinity, ← heq, UInt64.ofNat_toNat])
  rw [Double.ofFloat, nearest, toBits_ofBits hle]
  generalize nearestBits num den = bits at *
  generalize hn : bits.toNat = n at *
  simp only [Double.infinityBits] at hle hne
  have hsign : decide (0x8000000000000000 ≤ n) = false := by
    rw [decide_eq_false_iff_not]
    omega
  unfold Double.ofBits
  rw [hn, hsign]
  dsimp only
  rw [if_neg (by simp only [Double.hiddenBit]; omega)]
  split
  · exact ⟨_, _, rfl⟩
  · exact ⟨_, _, rfl⟩

end Lox.Number
