import Stencil.Text

/-!
A template as literal text with actions in it. An action begins with the first two opening braces
and ends with the first two closing braces after them that no backslash escapes; actions do not
nest.
-/

namespace Stencil

/-- Splits the text around the first two `d` in a row that no backslash escapes. A backslash
escapes the character after it, whichever that is. -/
def splitUnescaped (d : Char) : Text → Option (Text × Text)
  | [] => none
  | [_] => none
  | a :: b :: s =>
    if a = '\\' then (splitUnescaped d s).map (·.map (a :: b :: ·) id)
    else if a = d ∧ b = d then some ([], s)
    else (splitUnescaped d (b :: s)).map (·.map (a :: ·) id)

/-- An action and the literal text before it. The inner text is without the braces. -/
structure Segment where
  before : Text
  inner : Text
  deriving DecidableEq, Repr

def Segment.source (g : Segment) : Text := '{' :: '{' :: g.inner ++ ['}', '}']

inductive NextAction where
  | found (segment : Segment) (after : Text)
  | unclosed (before : Text)
  | absent
  deriving DecidableEq, Repr

def nextAction (s : Text) : NextAction :=
  match splitUnescaped '{' s with
  | none => .absent
  | some (before, rest) =>
    match splitUnescaped '}' rest with
    | none => .unclosed before
    | some (inner, after) => .found ⟨before, inner⟩ after

theorem length_of_splitUnescaped {d : Char} {s before after : Text}
    (h : splitUnescaped d s = some (before, after)) :
    before.length + 2 + after.length = s.length := by
  fun_induction splitUnescaped d s generalizing before after with
  | case1 => simp at h
  | case2 => simp at h
  | case3 b s ih =>
    obtain ⟨⟨x, y⟩, hxy, heq⟩ := Option.map_eq_some_iff.1 h
    simp only [Prod.map, id_eq, Prod.mk.injEq] at heq
    obtain ⟨rfl, rfl⟩ := heq
    have := ih hxy
    simp only [List.length_cons]
    omega
  | case4 a b s _ hd =>
    cases h
    simp
    omega
  | case5 a b s _ _ ih =>
    obtain ⟨⟨x, y⟩, hxy, heq⟩ := Option.map_eq_some_iff.1 h
    simp only [Prod.map, id_eq, Prod.mk.injEq] at heq
    obtain ⟨rfl, rfl⟩ := heq
    have := ih hxy
    simp only [List.length_cons] at this ⊢
    omega

theorem length_of_nextAction {s after : Text} {g : Segment} (h : nextAction s = .found g after) :
    after.length + 4 ≤ s.length := by
  unfold nextAction at h
  split at h
  · cases h
  next before rest hs =>
    split at h
    · cases h
    next inner after' hr =>
      cases h
      have := length_of_splitUnescaped hs
      have := length_of_splitUnescaped hr
      omega

/-- The actions of a text in order, each with the text before it, and the text after the last. -/
def segments (s : Text) : List Segment × Text :=
  match _h : nextAction s with
  | .found g rest => (segments rest).map (g :: ·) id
  | _ => ([], s)
termination_by s.length
decreasing_by
  have := length_of_nextAction _h
  omega

end Stencil
