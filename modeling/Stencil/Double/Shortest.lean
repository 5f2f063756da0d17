import Stencil.Double

namespace Stencil.Double

inductive Tie where
  | up
  | even
  deriving DecidableEq, Repr

/-- The numbers that round to one magnitude, as counts of 2 ^ -1076: the magnitude itself and the
ends, which belong to the interval if `closed`. -/
structure Interval where
  low : Nat
  value : Nat
  high : Nat
  closed : Bool

namespace Interval

/-- Below a power of two the numbers lie twice as dense as above it. -/
def ofMagnitude (magnitude : Nat) : Interval :=
  let gap := 2 ^ shift magnitude
  let value := 4 * units magnitude
  let below := if magnitude % 2 ^ 52 = 0 ∧ 0 < shift magnitude then gap else 2 * gap
  ⟨value - below, value, value + 2 * gap, magnitude % 2 = 0⟩

/-- The decimal fraction `n * 10 ^ scale` against a count of 2 ^ -1076. -/
def compare (n : Nat) (scale : Int) (count : Nat) : Ordering :=
  let (a, b) := Decimal.ratio ⟨n, scale⟩
  Ord.compare (2 ^ 1076 * a) (count * b)

def contains (i : Interval) (n : Nat) (scale : Int) : Bool :=
  let low := compare n scale i.low
  let high := compare n scale i.high
  (low == .gt || (i.closed && low == .eq)) && (high == .lt || (i.closed && high == .eq))

def exponent (i : Interval) : Int :=
  let one := 2 ^ 1076
  if one ≤ i.value then (Text.decimal (i.value / one)).length - 1
  else -(Text.decimal ((one - 1) / i.value)).length

def scaled (i : Interval) : Int → Nat × Nat
  | .ofNat n => (i.value, 2 ^ 1076 * 10 ^ n)
  | .negSucc n => (i.value * 10 ^ (n + 1), 2 ^ 1076)

/-- The multiple of `10 ^ scale` in the interval that is nearest to the value. -/
def pick (i : Interval) (tie : Tie) (scale : Int) : Option Nat :=
  let (a, b) := i.scaled scale
  let n := a / b
  match i.contains n scale, i.contains (n + 1) scale with
  | true, false => some n
  | false, true => some (n + 1)
  | false, false => none
  | true, true =>
    match Ord.compare (2 * (a % b)) b, tie with
    | .lt, _ => some n
    | .gt, _ => some (n + 1)
    | .eq, .up => some (n + 1)
    | .eq, .even => some (n + n % 2)

def search (i : Interval) (tie : Tie) : Nat → Int → Decimal
  | 0, scale => ⟨(i.scaled scale).1 / (i.scaled scale).2, scale⟩
  | tries + 1, scale =>
    match i.pick tie scale with
    | some n => ⟨n, scale⟩
    | none => search i tie tries (scale - 1)

end Interval

/-- The decimal fraction with the fewest digits that is nearer to the magnitude than to any other,
the nearest of those to it. A multiple of `10 ^ -1076` meets every magnitude exactly. -/
def shortest (tie : Tie) (magnitude : Nat) : Decimal :=
  if magnitude = 0 then ⟨0, 0⟩
  else
    let i := Interval.ofMagnitude magnitude
    let start := i.exponent + 1
    i.search tie (start + 1076).toNat start

def render (x : Double) : Text :=
  if x.isNaN then "NaN".toList
  else
    let text :=
      if x.isFinite then (shortest .up x.magnitude).positional else "inf".toList
    if x.isNegative then '-' :: text else text

end Stencil.Double
