import Stencil.Decimal

/-!
Floating-point numbers of the format binary64, by their bits. A finite magnitude is a count of the
least positive number, 2 ^ -1074, so that exact arithmetic on natural numbers is all it takes to
round a quotient.
-/

namespace Stencil

/-- A binary64 number: a sign bit, eleven bits of exponent and 52 of fraction. -/
structure Double where
  bits : UInt64
  deriving DecidableEq, Repr

namespace Double

def isNegative (x : Double) : Bool := 2 ^ 63 ≤ x.bits.toNat

def magnitude (x : Double) : Nat := x.bits.toNat % 2 ^ 63

/-- The magnitude of the infinities; those above it are no numbers. -/
def infinite : Nat := 2047 * 2 ^ 52

def isFinite (x : Double) : Bool := x.magnitude < infinite

def isNaN (x : Double) : Bool := infinite < x.magnitude

/-- Equality of the numbers: both zeros are equal, and what is no number is not equal to itself. -/
def numEq (x y : Double) : Bool :=
  !x.isNaN && !y.isNaN && (x.bits == y.bits || (x.magnitude == 0 && y.magnitude == 0))

def shift (magnitude : Nat) : Nat := magnitude / 2 ^ 52 - 1

def significand (magnitude : Nat) : Nat := magnitude - shift magnitude * 2 ^ 52

/-- A finite magnitude as a count of 2 ^ -1074. -/
def units (magnitude : Nat) : Nat := significand magnitude * 2 ^ shift magnitude

def ofMagnitude (negative : Bool) (magnitude : Nat) : Double :=
  ⟨.ofNat (if negative then magnitude + 2 ^ 63 else magnitude)⟩

def roundQuotient (n d : Nat) : Nat :=
  let q := n / d
  let r := n % d
  if d < 2 * r ∨ (2 * r = d ∧ q % 2 = 1) then q + 1 else q

/-- The magnitude nearest to `n / d`, the even one of two; beyond the finite ones it is
`infinite`. -/
def nearest (n d : Nat) : Nat :=
  let n := n * 2 ^ 1074
  let s := Nat.log2 (n / d) - 52
  min (s * 2 ^ 52 + roundQuotient n (d * 2 ^ s)) infinite

def ofDecimal (negative : Bool) (d : Decimal) : Double :=
  let (n, m) := d.ratio
  ofMagnitude negative (nearest n m)

end Double
end Stencil
