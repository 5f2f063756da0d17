namespace Stencil

abbrev Text := List Char

namespace Text

def utf8Length : Text → Nat
  | [] => 0
  | c :: s => c.utf8Size + utf8Length s

@[simp] theorem utf8Length_nil : utf8Length [] = 0 := rfl

theorem utf8Length_append (s t : Text) : utf8Length (s ++ t) = utf8Length s + utf8Length t := by
  induction s with
  | nil => simp
  | cons c s ih =>
    rw [List.cons_append, utf8Length, utf8Length, ih, Nat.add_assoc]

end Text

/-- A place in a text, both counts from 1; the column counts characters. -/
structure Position where
  line : Nat := 1
  column : Nat := 1
  deriving DecidableEq, Repr

namespace Position

def next (p : Position) (c : Char) : Position :=
  if c = '\n' then ⟨p.line + 1, 1⟩ else ⟨p.line, p.column + 1⟩

def after (p : Position) (s : Text) : Position :=
  s.foldl next p

theorem after_append (p : Position) (s t : Text) : p.after (s ++ t) = (p.after s).after t := by
  simp [after]

end Position
end Stencil
