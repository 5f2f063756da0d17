import Stencil.Double.Shortest
import Stencil.Json

/-!
Numbers in JSON. A floating-point number is written with the fewest digits and read with one
rounding of its first digits, as many as fit 64 bits, and one of their product or quotient with a
power of ten.
-/

namespace Stencil

/-- The shortest decimal, the even one halfway between two; positional from 10 ^ -5 up to 10 ^ 16,
scientific beyond. What is not finite is null. -/
def Double.toJson (x : Double) : Json :=
  if x.isFinite then
    let d := Double.shortest .even x.magnitude
    let text := if -5 ≤ d.exponent ∧ d.exponent < 16 then d.positional else d.scientific
    .number (if x.isNegative then '-' :: text else text)
  else .null

namespace Json
open Text

def ofNat (n : Nat) : Json := number (decimal n)

def ofInt (n : Int) : Json := number (signedDecimal n)

/-- A number that is spelled with digits only, after a minus sign perhaps. Minus zero is not one. -/
def int? : Json → Option Int
  | number ('-' :: ds) => do
    let n ← numeral? 10 ds
    if n = 0 then none else return -n
  | number ds => (numeral? 10 ds).map Int.ofNat
  | _ => none

def int64? (j : Json) : Option Int64 := do
  let n ← j.int?
  if -2 ^ 63 ≤ n ∧ n < 2 ^ 63 then return Int64.ofInt n else none

def nat64? (j : Json) : Option Nat := do
  let n ← j.int?
  if 0 ≤ n ∧ n < 2 ^ 64 then return n.toNat else none

/-- The first digits that fit 64 bits, as a number, and those after them. -/
def takeSignificand (value : Nat) : Text → Nat × Text
  | [] => (value, [])
  | c :: ds =>
    let next := value * 10 + (digitValue? 10 c).getD 0
    if next < 2 ^ 64 then takeSignificand next ds else (value, c :: ds)

def numberParts (s : Text) : Text × Text × Int :=
  let isDigit c := '0' ≤ c && c ≤ '9'
  let (whole, s) := s.span isDigit
  let (fraction, s) := match s with
    | '.' :: s => s.span isDigit
    | s => ([], s)
  let exponent : Int := match s with
    | _ :: '-' :: ds => -((numeral? 10 ds).getD 0)
    | _ :: '+' :: ds => (numeral? 10 ds).getD 0
    | _ :: ds => (numeral? 10 ds).getD 0
    | [] => 0
  (whole, fraction, exponent)

/-- The magnitude `m` times `10 ^ exponent`, if it is finite. The greatest power of ten is 308; what
is to be divided by more is divided by that first. -/
def scale? (m : Nat) (exponent : Int) : Option Nat :=
  let power (n : Nat) : Nat := Double.nearest (10 ^ n) 1
  if m = 0 then some 0
  else if 308 < exponent then none
  else if 0 ≤ exponent then
    let n := Double.nearest (Double.units m * Double.units (power exponent.toNat)) (2 ^ 2148)
    if n < Double.infinite then some n else none
  else if -308 ≤ exponent then
    some (Double.nearest (Double.units m) (Double.units (power exponent.natAbs)))
  else scale? (Double.nearest (Double.units m) (Double.units (power 308))) (exponent + 308)
termination_by exponent.natAbs
decreasing_by omega

def double? : Json → Option Double
  | number s => do
    let (negative, s) := match s with
      | '-' :: s => (true, s)
      | s => (false, s)
    let (whole, fraction, exponent) := numberParts s
    let (value, above) := takeSignificand 0 whole
    let (value, ignored) := takeSignificand value fraction
    let exponent := exponent + above.length - (fraction.length - ignored.length : Nat)
    let m ← scale? (Double.nearest value 1) exponent
    return Double.ofMagnitude negative m
  | _ => none

end Json
end Stencil
