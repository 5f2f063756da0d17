import Stencil.Text.Numeral

namespace Stencil

/-- The number `digits * 10 ^ scale`. -/
structure Decimal where
  digits : Nat
  scale : Int
  deriving DecidableEq, Repr

namespace Decimal
open Text

def ratio (d : Decimal) : Nat × Nat :=
  match d.scale with
  | .ofNat n => (d.digits * 10 ^ n, 1)
  | .negSucc n => (d.digits, 10 ^ (n + 1))

/-- The power of ten that the first digit counts. -/
def exponent (d : Decimal) : Int := d.scale + ((decimal d.digits).length - 1)

def parts (d : Decimal) : Text × Text :=
  let ds := decimal d.digits
  match d.scale with
  | .ofNat n => (ds ++ List.replicate n '0', [])
  | .negSucc n =>
    let ds := ds.leftpad (n + 2) '0'
    ds.splitAt (ds.length - (n + 1))

/-- Positional notation with at least one digit on each side of the point. -/
def positional (d : Decimal) : Text :=
  let (whole, fraction) := d.parts
  whole ++ '.' :: (if fraction.isEmpty then ['0'] else fraction)

def scientific (d : Decimal) : Text :=
  let e := d.exponent
  let power := 'e' :: (if e < 0 then '-' else '+') :: decimal e.natAbs
  match decimal d.digits with
  | c :: [] => c :: power
  | c :: ds => c :: '.' :: ds ++ power
  | [] => power

def ofPositional? (s : Text) : Option Decimal := do
  let (whole, fraction) := s.span (· != '.')
  let fraction ← fraction.tail?
  let w ← numeral? 10 whole
  let f ← numeral? 10 fraction
  return ⟨w * 10 ^ fraction.length + f, -fraction.length⟩

end Decimal
end Stencil
