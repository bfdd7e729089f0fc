/-!
# Doubles as scaled integers

The magnitude of a finite double is `m * 2 ^ t` steps of `2 ^ -1074`, the least positive double.

* `Double`, `Double.ofBits`: what the 64 bits of a double say;
* `Double.magnitudeBits`: the bits of a magnitude from `m` and `t`, which undoes the decoding
  (`magnitudeBits_fraction`, `magnitudeBits_hidden`).
-/

namespace Lox.Number

/-- The value that 64 bits stand for. -/
inductive Double where
  | nan
  | infinite (negative : Bool)
  /-- The number `m * 2 ^ t * 2 ^ -1074`, negated when `negative`. -/
  | finite (negative : Bool) (m t : Nat)
  deriving DecidableEq, Repr

namespace Double

/-- The bits of positive infinity, which follow those of the largest finite double. -/
def infinityBits : Nat := 0x7FF0000000000000

/-- The hidden bit of a normal significand and the lowest bit of the exponent: `2 ^ 52`. -/
def hiddenBit : Nat := 0x10000000000000

/-- Splits a word into sign, exponent and fraction; a normal number gets its hidden bit. -/
def ofBits (bits : UInt64) : Double :=
  let negative := decide (0x8000000000000000 ≤ bits.toNat)
  let exponent := bits.toNat / hiddenBit % 0x800
  let fraction := bits.toNat % hiddenBit
  if exponent = 0x7FF then
    if fraction = 0 then infinite negative else nan
  else if exponent = 0 then finite negative fraction 0
  else finite negative (hiddenBit + fraction) (exponent - 1)

/-- What a float is. -/
def ofFloat (x : Float) : Double := ofBits x.toBits

/-- The bits of the magnitude `m * 2 ^ t`. A significand of `2 ^ 53` carries into the exponent. -/
def magnitudeBits (m t : Nat) : Nat := t * hiddenBit + m

theorem magnitudeBits_fraction (m : Nat) : magnitudeBits m 0 = m := by simp [magnitudeBits]

theorem magnitudeBits_hidden (fraction exponent : Nat) (h : 0 < exponent) :
    magnitudeBits (hiddenBit + fraction) (exponent - 1) = exponent * hiddenBit + fraction := by
  simp only [magnitudeBits, hiddenBit]
  omega

theorem magnitudeBits_carry (t : Nat) :
    magnitudeBits (2 * hiddenBit) t = magnitudeBits hiddenBit (t + 1) := by
  simp only [magnitudeBits, hiddenBit]
  omega

end Double

end Lox.Number
