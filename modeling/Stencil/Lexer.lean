import Stencil.Pattern

namespace Stencil

structure Lexeme (κ : Type) where
  kind : κ
  text : Text
  deriving DecidableEq, Repr

namespace Lexer

inductive Reach where
  | longest
  | shortest

structure Rule (κ : Type) where
  kind : κ
  pattern : Pattern
  reach : Reach := .longest

variable {κ : Type}

def Rule.split (r : Rule κ) (s : Text) : Option (Text × Text) :=
  match r.reach with
  | .longest => r.pattern.longest s
  | .shortest => r.pattern.shortest s

/-- The lexeme at the start of the text and what comes after it; empty matches do not count. -/
def first (rules : List (Rule κ)) (s : Text) : Option (Lexeme κ × Text) :=
  rules.findSome? fun r =>
    match r.split s with
    | some (c :: m, rest) => some (⟨r.kind, c :: m⟩, rest)
    | _ => none

theorem Rule.append_of_split {r : Rule κ} {s m rest : Text} (h : r.split s = some (m, rest)) :
    m ++ rest = s := by
  unfold Rule.split at h
  split at h
  · exact Pattern.append_of_longest h
  · exact Pattern.append_of_shortest h

theorem first_eq_some {rules : List (Rule κ)} {s rest : Text} {l : Lexeme κ}
    (h : first rules s = some (l, rest)) : l.text ≠ [] ∧ l.text ++ rest = s := by
  obtain ⟨r, -, hr⟩ := List.exists_of_findSome?_eq_some h
  split at hr
  next c m rest' hs =>
    simp only [Option.some.injEq, Prod.mk.injEq] at hr
    obtain ⟨rfl, rfl⟩ := hr
    exact ⟨by simp, Rule.append_of_split hs⟩
  next => simp at hr

theorem length_of_first {rules : List (Rule κ)} {s rest : Text} {l : Lexeme κ}
    (h : first rules s = some (l, rest)) : rest.length < s.length := by
  obtain ⟨hne, rfl⟩ := first_eq_some h
  have := List.length_pos_iff.2 hne
  simp only [List.length_append]
  omega

def scan (rules : List (Rule κ)) (s : Text) : List (Lexeme κ) × Text :=
  match _h : first rules s with
  | none => ([], s)
  | some (l, rest) => (scan rules rest).map (l :: ·) id
termination_by s.length
decreasing_by exact length_of_first _h

end Lexer
end Stencil
