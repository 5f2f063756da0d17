import Stencil.Text.Numeral

/-!
JSON values. Numbers and strings are as they are spelled, because what is not looked at need not
have a value: a number may be out of range, and an escape in a string may stand for no character.
-/

namespace Stencil

inductive Json where
  | null
  | bool (value : Bool)
  | number (spelling : Text)
  /-- The spelling is what the quotes enclose. -/
  | string (spelling : Text)
  | array (items : List Json)
  | object (fields : List (Text × Json))

namespace Json
open Text

def letterEscapes : List (Char × Char) :=
  [('"', '"'), ('\\', '\\'), ('\x08', 'b'), ('\x0c', 'f'), ('\n', 'n'), ('\r', 'r'), ('\t', 't')]

def escape (c : Char) : Text :=
  match letterEscapes.lookup c with
  | some letter => ['\\', letter]
  | none => if c.toNat < 0x20 then '\\' :: 'u' :: paddedHex 4 c.toNat else [c]

def ofText (s : Text) : Json := string (s.flatMap escape)

/-- The character that the number of a UTF-16 unit stands for, alone or with the escaped unit after
it. -/
def readUnit (s : Text) : Option (Char × Text) := do
  let (high, rest) ← readDigits 16 4 s
  if 0xd800 ≤ high ∧ high < 0xdc00 then
    match rest with
    | '\\' :: 'u' :: rest =>
      let (low, rest) ← readDigits 16 4 rest
      if 0xdc00 ≤ low ∧ low < 0xe000 then
        return (Char.ofNat (0x10000 + (high - 0xd800) * 0x400 + (low - 0xdc00)), rest)
      else none
    | _ => none
  else if high.isValidChar then return (Char.ofNat high, rest)
  else none

def readEscape (s : Text) : Option (Char × Text) :=
  match s with
  | [] => none
  | 'u' :: s => readUnit s
  | '/' :: s => some ('/', s)
  | letter :: s => (letterEscapes.find? (·.2 == letter)).map fun (c, _) => (c, s)

theorem length_of_readUnit {s rest : Text} {c : Char} (h : readUnit s = some (c, rest)) :
    rest.length ≤ s.length := by
  simp only [readUnit, Option.bind_eq_bind, Option.bind_eq_some_iff] at h
  obtain ⟨⟨high, s'⟩, hd, h⟩ := h
  have hs := length_of_readDigits hd
  simp only at h
  split at h
  · split at h
    · obtain ⟨⟨low, s''⟩, hd', h⟩ := Option.bind_eq_some_iff.1 h
      have hs' := length_of_readDigits hd'
      simp only [List.length_cons] at hs
      split at h
      · simp only [Option.pure_def, Option.some.injEq, Prod.mk.injEq] at h
        obtain ⟨-, rfl⟩ := h
        omega
      · simp at h
    · simp at h
  · split at h
    · simp only [Option.pure_def, Option.some.injEq, Prod.mk.injEq] at h
      obtain ⟨-, rfl⟩ := h
      omega
    · simp at h

theorem length_of_readEscape {s rest : Text} {c : Char} (h : readEscape s = some (c, rest)) :
    rest.length ≤ s.length := by
  unfold readEscape at h
  split at h
  · cases h
  · exact Nat.le_succ_of_le (length_of_readUnit h)
  · cases h
    simp
  · obtain ⟨_, -, h⟩ := Option.map_eq_some_iff.1 h
    cases h
    simp

def decode? (s : Text) : Option Text :=
  match s with
  | [] => some []
  | c :: rest =>
    if c = '\\' then
      match _h : readEscape rest with
      | none => none
      | some (v, rest') => (decode? rest').map (v :: ·)
    else (decode? rest).map (c :: ·)
termination_by s.length
decreasing_by
  · have := length_of_readEscape _h
    simp only [List.length_cons]
    omega
  · simp

def text? : Json → Option Text
  | string s => decode? s
  | _ => none

def char? (j : Json) : Option Char :=
  match j.text? with
  | some [c] => some c
  | _ => none

/-- The values of the named fields of a record. A record is an object, with its fields in any order,
none of them twice, and other fields that do not count; or an array of the values in order, of which
the last may be missing. -/
def record? (names : List Text) : Json → Option (List (Option Json))
  | array items =>
    if items.length ≤ names.length then some ((items.map some).rightpad names.length none) else none
  | object fields => do
    let fields ← fields.mapM fun (key, v) => (decode? key).map (·, v)
    names.mapM fun name =>
      match fields.filter (·.1 == name) with
      | [] => some none
      | [(_, v)] => some (some v)
      | _ => none
  | _ => none

/-- The name of a variant and what it holds: a lone name, or an object with one field. -/
def variant? : Json → Option (Text × Option Json)
  | string s => (decode? s).map (·, none)
  | object [(key, v)] => (decode? key).map (·, some v)
  | _ => none

end Json
end Stencil
