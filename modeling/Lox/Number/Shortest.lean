import Lox.Number.Binary64

/-!
# The shortest decimal of a double

All reals nearer to a double than to its neighbours read back as that double. They form an
interval, and the decimal written for the double is the one in the interval with the fewest
digits, of several the nearest to the double, of two equally near the larger.

* `Decimal`: a coefficient and a power of ten;
* `Interval`: a double and its interval in exact integers;
* `Interval.onGrid?`: the best multiple of a power of ten in the interval, if there is one;
* `shortest`: the coarsest grid with such a multiple. The search ends because the double itself
  lies on the finest grid.
-/

namespace Lox.Number

/-- The number `coefficient * 10 ^ exponent`. -/
structure Decimal where
  coefficient : Nat
  exponent : Int
  deriving DecidableEq, Repr

/-- A double in units of `10 ^ -places`, with the ends of its interval in quarters of a unit. -/
structure Interval where
  places : Nat
  /-- The double itself. -/
  value : Nat
  /-- Four times the lower end. -/
  low : Nat
  /-- Four times the upper end. -/
  high : Nat
  /-- The ends round to the double as well. -/
  closed : Bool

namespace Interval

/-- The interval of `m * 2 ^ t * 2 ^ -1074`. A unit of the significand is `5 ^ places` units of
`10 ^ -places` below one and a power of two above. The gap below the least significand of a
binade is half as wide as the others. Ends belong to the even significand. -/
def ofMagnitude (m t : Nat) : Interval :=
  let places := 1074 - t
  let ulp := Nat.pow 5 places <<< (t - 1074)
  let below := if m = Double.hiddenBit ∧ 0 < t then ulp else 2 * ulp
  { places, value := m * ulp, low := 4 * (m * ulp) - below, high := 4 * (m * ulp) + 2 * ulp
    closed := m % 2 = 0 }

/-- The number `x` lies in the interval. -/
def contains (i : Interval) (x : Nat) : Bool :=
  if i.closed then i.low ≤ 4 * x && 4 * x ≤ i.high else i.low < 4 * x && 4 * x < i.high

/-- The multiple of `step` in the interval that is nearest to the double, divided by `step`. Only
the two multiples around the double can be it. -/
def onGrid? (i : Interval) (step : Nat) : Option Nat :=
  let c := i.value / step
  match i.contains (c * step), i.contains ((c + 1) * step) with
  | true, true => some (if 2 * (i.value - c * step) < step then c else c + 1)
  | true, false => some c
  | false, true => some (c + 1)
  | false, false => none

theorem contains_of_onGrid? {i : Interval} {step c : Nat} (h : i.onGrid? step = some c) :
    i.contains (c * step) = true := by
  unfold onGrid? at h
  dsimp only at h
  split at h
  · cases h
    split <;> assumption
  · cases h
    assumption
  · cases h
    assumption
  · simp at h

/-- The first grid with a hit among `10 ^ k`, `10 ^ (k - 1)`, …, `1`. -/
def search (i : Interval) : Nat → Decimal
  | 0 => ⟨i.value, -i.places⟩
  | k + 1 =>
    match i.onGrid? (Nat.pow 10 (k + 1)) with
    | some c => ⟨c, (k + 1 : Nat) - i.places⟩
    | none => i.search k

end Interval

/-- The shortest decimal of the positive double `m * 2 ^ t * 2 ^ -1074`. The search starts above
the double: ten is more than eight, so `10 ^ (log2 v / 3 + 1)` exceeds `v`. -/
def shortest (m t : Nat) : Decimal :=
  let i := Interval.ofMagnitude m t
  i.search (i.value.log2 / 3 + 1)

end Lox.Number
