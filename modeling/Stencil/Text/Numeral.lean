import Stencil.Text

namespace Stencil

/-- Powers of numbers are those of the core library, whatever else a module imports. -/
@[default_instance 20000]
instance (priority := 2000) corePower {α : Type} [NatPow α] : Pow α Nat := instPowNat

namespace Text

def digitValue? (base : Nat) (c : Char) : Option Nat :=
  let value :=
    if '0' ≤ c ∧ c ≤ '9' then c.toNat - '0'.toNat
    else if 'a' ≤ c ∧ c ≤ 'f' then c.toNat - 'a'.toNat + 10
    else if 'A' ≤ c ∧ c ≤ 'F' then c.toNat - 'A'.toNat + 10
    else base
  if value < base then some value else none

/-- Reads exactly `count` digits at the start of a text: their value, and what follows. -/
def readDigits (base : Nat) : Nat → Text → Option (Nat × Text)
  | 0, s => some (0, s)
  | _ + 1, [] => none
  | n + 1, c :: s => do
    let d ← digitValue? base c
    let (v, rest) ← readDigits base n s
    return (d * base ^ n + v, rest)

def numeral? (base : Nat) (s : Text) : Option Nat :=
  match s with
  | [] => none
  | _ => s.foldlM (fun n c => (digitValue? base c).map (n * base + ·)) 0

def decimal (n : Nat) : Text := Nat.toDigits 10 n

def signedDecimal : Int → Text
  | .ofNat n => decimal n
  | .negSucc n => '-' :: decimal (n + 1)

def hex (n : Nat) : Text := Nat.toDigits 16 n

/-- Hexadecimal digits, filled up with zeros to the given width. -/
def paddedHex (width n : Nat) : Text := (hex n).leftpad width '0'

theorem length_of_readDigits {base n v : Nat} {s rest : Text}
    (h : readDigits base n s = some (v, rest)) : rest.length + n = s.length := by
  induction n generalizing s v with
  | zero => simp_all [readDigits]
  | succ n ih =>
    cases s with
    | nil => simp [readDigits] at h
    | cons c s =>
      simp only [readDigits, Option.bind_eq_bind, Option.bind_eq_some_iff] at h
      obtain ⟨d, -, ⟨w, rest'⟩, hw, hv⟩ := h
      simp only [Option.pure_def, Option.some.injEq, Prod.mk.injEq] at hv
      obtain ⟨-, rfl⟩ := hv
      have := ih hw
      simp only [List.length_cons]
      omega

end Text
end Stencil
