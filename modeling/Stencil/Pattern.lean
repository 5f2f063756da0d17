import Stencil.Text

namespace Stencil

inductive Pattern where
  | nothing
  | empty
  | one (accepts : Char → Bool)
  | seq (first second : Pattern)
  | alt (left right : Pattern)
  | many (body : Pattern)

namespace Pattern

/-- `Matches p s`: the whole of `s` is in the language of `p`. -/
inductive Matches : Pattern → Text → Prop
  | empty : Matches .empty []
  | one {accepts : Char → Bool} {c : Char} (h : accepts c = true) : Matches (.one accepts) [c]
  | seq {p q : Pattern} {s t : Text} (hp : Matches p s) (hq : Matches q t) :
      Matches (.seq p q) (s ++ t)
  | altLeft {p q : Pattern} {s : Text} (h : Matches p s) : Matches (.alt p q) s
  | altRight {p q : Pattern} {s : Text} (h : Matches q s) : Matches (.alt p q) s
  | manyNil {p : Pattern} : Matches (.many p) []
  | manyCons {p : Pattern} {s t : Text} (hp : Matches p s) (hq : Matches (.many p) t) :
      Matches (.many p) (s ++ t)

def any : Pattern := .one fun _ => true

def char (c : Char) : Pattern := .one (· == c)

def anyBut (c : Char) : Pattern := .one (· != c)

def oneOrMore (p : Pattern) : Pattern := .seq p (.many p)

def optional (p : Pattern) : Pattern := .alt p .empty

def chain : List Pattern → Pattern
  | [] => .empty
  | [p] => p
  | p :: ps => .seq p (chain ps)

def word (s : Text) : Pattern := chain (s.map char)

def nullable : Pattern → Bool
  | nothing => false
  | empty => true
  | one _ => false
  | seq p q => p.nullable && q.nullable
  | alt p q => p.nullable || q.nullable
  | many _ => true

def isNothing : Pattern → Bool
  | nothing => true
  | _ => false

/-- A sequence; with a part that matches nothing it is `nothing` itself, so that a search can stop
there. -/
def andThen : Pattern → Pattern → Pattern
  | nothing, _ => nothing
  | empty, q => q
  | p, q => if q.isNothing then nothing else .seq p q

def orElse : Pattern → Pattern → Pattern
  | nothing, q => q
  | p, q => if q.isNothing then p else .alt p q

def deriv (c : Char) : Pattern → Pattern
  | nothing => nothing
  | empty => nothing
  | one accepts => if accepts c then empty else nothing
  | seq p q =>
    if p.nullable then orElse (andThen (deriv c p) q) (deriv c q) else andThen (deriv c p) q
  | alt p q => orElse (deriv c p) (deriv c q)
  | many p => andThen (deriv c p) (.many p)

def longest (p : Pattern) : Text → Option (Text × Text)
  | [] => if p.nullable then some ([], []) else none
  | c :: s =>
    if p.isNothing then none
    else match longest (p.deriv c) s with
      | some (m, rest) => some (c :: m, rest)
      | none => if p.nullable then some ([], c :: s) else none

def shortest (p : Pattern) : Text → Option (Text × Text)
  | [] => if p.nullable then some ([], []) else none
  | c :: s =>
    if p.isNothing then none
    else if p.nullable then some ([], c :: s)
    else match shortest (p.deriv c) s with
      | some (m, rest) => some (c :: m, rest)
      | none => none

theorem append_of_longest {p : Pattern} {s m rest : Text} (h : p.longest s = some (m, rest)) :
    m ++ rest = s := by
  induction s generalizing p m with
  | nil => simp only [longest] at h; split at h <;> simp_all
  | cons c s ih =>
    simp only [longest] at h
    split at h
    · simp at h
    · split at h
      next m' rest' hm =>
        simp only [Option.some.injEq, Prod.mk.injEq] at h
        obtain ⟨rfl, rfl⟩ := h
        simp [ih hm]
      next => split at h <;> simp_all

theorem append_of_shortest {p : Pattern} {s m rest : Text} (h : p.shortest s = some (m, rest)) :
    m ++ rest = s := by
  induction s generalizing p m with
  | nil => simp only [shortest] at h; split at h <;> simp_all
  | cons c s ih =>
    simp only [shortest] at h
    split at h
    · simp at h
    · split at h
      · simp_all
      · split at h
        next m' rest' hm =>
          simp only [Option.some.injEq, Prod.mk.injEq] at h
          obtain ⟨rfl, rfl⟩ := h
          simp [ih hm]
        next => simp at h

end Pattern
end Stencil
