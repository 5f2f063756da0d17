import Stencil.Proofs.Lossless
import Stencil.Proofs.TokenEdges

namespace Stencil

def Variable.kind : Variable → TokenKind
  | .assign _ => .assignment
  | .range _ => .range
  | .ident _ => .ident
  | .keyword _ => .keyword
  | .literal _ => .literal
  | .string _ => .string
  | .rune _ => .rune
  | .float _ => .float
  | .int _ => .int
  | .space _ => .space
  | .comment _ => .comment
  | .grouping _ _ _ => .groupOpen

mutual

def Variable.tokens : Variable → List Token
  | .grouping opener body closer =>
    ⟨.groupOpen, opener⟩ :: (body.tokens ++ [⟨.groupClose, closer⟩])
  | v => [⟨v.kind, v.render⟩]

def Group.tokens : List Variable → List Token
  | [] => []
  | v :: g => v.tokens ++ Group.tokens g

def Pipeline.tokens : Pipeline → List Token
  | .stage g => Group.tokens g
  | .piped g p => Group.tokens g ++ ⟨.pipe, ['|']⟩ :: p.tokens

end

theorem Variable.tokens_of_kind {v : Variable} (hv : v.kind ≠ .groupOpen) :
    v.tokens = [⟨v.kind, v.render⟩] := by
  cases v <;> first | exact (hv rfl).elim | rfl

theorem Group.tokens_append (g h : Group) :
    Group.tokens (g ++ h) = Group.tokens g ++ Group.tokens h := by
  induction g with
  | nil => rfl
  | cons v g ih => rw [List.cons_append, tokens, tokens, ih, List.append_assoc]

namespace Phrase

def tokens : Phrase → List Token
  | .variable v => v.tokens
  | .group g => Group.tokens g
  | .pipeline p => p.tokens

/-- What holds of all variables that are no groupings, and goes up from the parts of a phrase to the
whole, holds of all phrases. -/
@[elab_as_elim]
theorem induction {P : Phrase → Prop} (leaf : ∀ v, v.kind ≠ .groupOpen → P (.variable v))
    (grouping : ∀ o p c, P (.pipeline p) → P (.variable (.grouping o p c)))
    (nil : P (.group []))
    (cons : ∀ v g, P (.variable v) → P (.group g) → P (.group (v :: g)))
    (stage : ∀ g, P (.group g) → P (.pipeline (.stage g)))
    (piped : ∀ g p, P (.group g) → P (.pipeline p) → P (.pipeline (.piped g p)))
    (x : Phrase) : P x := by
  have hleaf (v : Variable) (hv : ∀ o p c, v = .grouping o p c → False) : P (.variable v) :=
    leaf v fun hk => by cases v <;> first | exact hv _ _ _ rfl | cases hk
  obtain ⟨hvariable, hpipeline, hgroup⟩ := Variable.tokens.mutual_induct (P <| .variable ·)
    (P <| .pipeline ·) (P <| .group ·) grouping hleaf stage piped nil cons
  match x with
  | .variable v => exact hvariable v
  | .group g => exact hgroup g
  | .pipeline p => exact hpipeline p

theorem spelling_tokens (x : Phrase) : Token.spelling x.tokens = x.render := by
  induction x using Phrase.induction with
  | leaf v hv =>
    rw [tokens, Variable.tokens_of_kind hv]
    exact List.append_nil v.render
  | grouping o p c ih =>
    have ih : Token.spelling p.tokens = p.render := ih
    have hclose : Token.spelling [⟨.groupClose, c⟩] = c := List.append_nil c
    simp only [tokens, render, Variable.tokens, Variable.render, Token.spelling_cons,
      Token.spelling_append, ih, hclose, List.append_assoc]
  | nil => rfl
  | cons v g ihv ihg =>
    have ihv : Token.spelling v.tokens = v.render := ihv
    have ihg : Token.spelling (Group.tokens g) = Group.render g := ihg
    simp only [tokens, render, Group.tokens, Group.render, Token.spelling_append, ihv, ihg]
  | stage g ih => exact ih
  | piped g p ihg ihp =>
    have ihg : Token.spelling (Group.tokens g) = Group.render g := ihg
    have ihp : Token.spelling p.tokens = p.render := ihp
    simp only [tokens, render, Pipeline.tokens, Pipeline.render, Token.spelling_append,
      Token.spelling_cons, ihg, ihp, List.singleton_append]

end Phrase

end Stencil
