import Stencil.Text.Numeral

namespace Stencil

inductive LiteralFault where
  | missingQuotes (quote : Char)
  | newline
  | trailingBackslash
  | unknownEscape (c : Char)
  | missingDigits (count base : Nat)
  /-- A byte escape of 0x80 or more: one byte is not a character there. -/
  | notAscii (value : Nat)
  /-- The number of no character: a surrogate or above 0x10ffff. -/
  | invalidCodePoint (value : Nat)
  | emptyRune
  | longRune
  | malformedNumber
  | integerTooLarge
  | floatTooLarge
  deriving DecidableEq, Repr

namespace LiteralFault
open Text

def message : LiteralFault → Text
  | missingQuotes q => "missing ".toList ++ q :: " quotes".toList
  | newline => "newline in quoted literal".toList
  | trailingBackslash => "trailing backslash".toList
  | unknownEscape c => "unknown escape sequence '\\".toList ++ [c, '\'']
  | missingDigits count base =>
    "expected ".toList ++ decimal count ++ " base-".toList ++ decimal base
      ++ " digits in escape".toList
  | notAscii value => "byte escape 0x".toList ++ paddedHex 2 value ++ " is not ASCII".toList
  | invalidCodePoint value => "invalid code point 0x".toList ++ hex value
  | emptyRune => "empty rune".toList
  | longRune => "more than one character in rune".toList
  | malformedNumber => "malformed number".toList
  | integerTooLarge => "number too large to fit in target type".toList
  | floatTooLarge => "number out of range".toList

end LiteralFault

namespace Literal
open Text

def letterEscapes : List (Char × Char) :=
  [('\x07', 'a'), ('\x08', 'b'), ('\x0c', 'f'), ('\n', 'n'), ('\r', 'r'), ('\t', 't'),
    ('\x0b', 'v'), ('\\', '\\')]

/-- The control characters of Unicode: those below the space, DEL, and the ones from 0x80 to
0x9f. -/
def isControl (c : Char) : Bool := c.toNat < 0x20 || (0x7f ≤ c.toNat && c.toNat ≤ 0x9f)

/-- The canonical spelling of one character between quotes `q`: verbatim unless it is a control
character, a backslash or the quote itself. -/
def escape (q c : Char) : Text :=
  match letterEscapes.lookup c with
  | some letter => ['\\', letter]
  | none =>
    if c = q then ['\\', q]
    else if isControl c then
      if c.toNat < 0x80 then '\\' :: 'x' :: paddedHex 2 c.toNat
      else '\\' :: 'u' :: paddedHex 4 c.toNat
    else [c]

def spell (q : Char) (s : Text) : Text := q :: s.flatMap (escape q) ++ [q]

def spellString (s : Text) : Text := spell '"' s

def spellRune (c : Char) : Text := spell '\'' [c]

def character (value : Nat) : Except LiteralFault Char :=
  if h : value.isValidChar then .ok (Char.ofNatAux value h) else .error (.invalidCodePoint value)

def asciiCharacter (value : Nat) : Except LiteralFault Char :=
  if value < 0x80 then character value else .error (.notAscii value)

/-- Reads `count` digits and makes a character of their value added to `base`-fold `high`. -/
def numericEscape (base count high : Nat) (toChar : Nat → Except LiteralFault Char) (s : Text) :
    Except LiteralFault (Char × Text) :=
  match readDigits base count s with
  | none => .error (.missingDigits count base)
  | some (value, rest) => (toChar (high * base ^ count + value)).map (·, rest)

/-- What the escape of a backslash and `c` stands for, with `s` after it, and the rest of `s`. -/
def readEscape (q c : Char) (s : Text) : Except LiteralFault (Char × Text) :=
  match letterEscapes.find? (·.2 == c) with
  | some (value, _) => .ok (value, s)
  | none =>
    if c = q then .ok (q, s)
    else if c = 'x' then numericEscape 16 2 0 asciiCharacter s
    else if c = 'u' then numericEscape 16 4 0 character s
    else if c = 'U' then numericEscape 16 8 0 character s
    else match digitValue? 8 c with
      | some high => numericEscape 8 2 high asciiCharacter s
      | none => .error (.unknownEscape c)

theorem length_of_numericEscape {base count high : Nat} {toChar : Nat → Except LiteralFault Char}
    {s rest : Text} {v : Char} (h : numericEscape base count high toChar s = .ok (v, rest)) :
    rest.length ≤ s.length := by
  unfold numericEscape at h
  split at h
  · cases h
  next value rest' hr =>
    have := length_of_readDigits hr
    cases hc : toChar (high * base ^ count + value) with
    | error e => simp [hc, Except.map] at h
    | ok w =>
      simp only [hc, Except.map, Except.ok.injEq, Prod.mk.injEq] at h
      obtain ⟨-, rfl⟩ := h
      omega

theorem length_of_readEscape {q c v : Char} {s rest : Text} (h : readEscape q c s = .ok (v, rest)) :
    rest.length ≤ s.length := by
  unfold readEscape at h
  split at h
  · cases h; exact Nat.le_refl _
  · repeat' split at h
    all_goals first
      | exact length_of_numericEscape h
      | (cases h; exact Nat.le_refl _)
      | cases h

def decode (q : Char) (s : Text) : Except LiteralFault Text :=
  match s with
  | [] => .ok []
  | c :: rest =>
    if c = '\n' then .error .newline
    else if c = '\\' then
      match rest with
      | [] => .error .trailingBackslash
      | e :: rest =>
        match _h : readEscape q e rest with
        | .error fault => .error fault
        | .ok (v, rest') => (decode q rest').map (v :: ·)
    else (decode q rest).map (c :: ·)
termination_by s.length
decreasing_by
  all_goals simp only [List.length_cons]
  · have := length_of_readEscape _h
    omega
  · omega

def inside (q : Char) (s : Text) : Except LiteralFault Text :=
  match s with
  | [] => .error (.missingQuotes q)
  | c :: rest =>
    if c = q ∧ rest.getLast? = some q then .ok rest.dropLast else .error (.missingQuotes q)

def stringValue (s : Text) : Except LiteralFault Text := do
  decode '"' (← inside '"' s)

def runeValue (s : Text) : Except LiteralFault Char := do
  match ← decode '\'' (← inside '\'' s) with
  | [] => .error .emptyRune
  | [c] => .ok c
  | _ => .error .longRune

def rawValue (s : Text) : Except LiteralFault Text := inside '`' s

end Literal
end Stencil
