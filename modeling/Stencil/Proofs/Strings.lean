import Stencil.Proofs.Acceptance
import Stencil.Proofs.Respelling
import Stencil.Tree.Groups
import Stencil.Tree.Same

namespace Stencil

def Variable.string? : Variable → Option Text
  | .string value => some value
  | _ => none

def Tree.strings (t : Tree) : List Text := t.groups.flatMap (·.filterMap Variable.string?)

def Phrase.groups : Phrase → List Group
  | .variable v => Group.groups [v]
  | .group g => Group.groups g
  | .pipeline p => p.groups

/-- Whether some variable of the groups is the string of the given value. -/
def HasString (gs : List Group) (value : Text) : Prop := ∃ g ∈ gs, Variable.string value ∈ g

theorem mem_strings_iff {t : Tree} {value : Text} : value ∈ t.strings ↔ HasString t.groups value := by
  simp only [Tree.strings, HasString, List.mem_flatMap, List.mem_filterMap]
  refine exists_congr fun g => and_congr_right fun _ => ?_
  constructor
  · rintro ⟨v, hv, hvalue⟩
    cases v with
    | string => cases hvalue; exact hv
    | _ => cases hvalue
  · exact fun h => ⟨_, h, rfl⟩

def SpellsString (ts : List Token) (value : Text) : Prop :=
  ∃ t ∈ ts, t.toVariable? = some (.ok (.string value))

section Members

variable {value : Text}

@[simp] theorem hasString_nil : ¬ HasString [] value := by
  simp [HasString]

@[simp] theorem hasString_cons {g : Group} {gs : List Group} :
    HasString (g :: gs) value ↔ .string value ∈ g ∨ HasString gs value := by
  simp [HasString]

@[simp] theorem hasString_append {gs hs : List Group} :
    HasString (gs ++ hs) value ↔ HasString gs value ∨ HasString hs value := by
  simp [HasString, or_and_right, exists_or]

@[simp] theorem spellsString_nil : ¬ SpellsString [] value := by
  simp [SpellsString]

@[simp] theorem spellsString_cons {t : Token} {ts : List Token} :
    SpellsString (t :: ts) value ↔
      t.toVariable? = some (.ok (.string value)) ∨ SpellsString ts value := by
  simp [SpellsString]

@[simp] theorem spellsString_append {ts us : List Token} :
    SpellsString (ts ++ us) value ↔ SpellsString ts value ∨ SpellsString us value := by
  simp [SpellsString, or_and_right, exists_or]

end Members

theorem Double.numEq_self {x : Double} (h : x.isFinite = true) : x.numEq x = true := by
  have hm : x.magnitude < infinite := of_decide_eq_true h
  have hnumber : x.isNaN = false := decide_eq_false (Nat.lt_asymm hm)
  simp [numEq, hnumber]

namespace Token

theorem leaf_of_toVariable? {t : Token} {v : Variable} (h : t.toVariable? = some (.ok v)) :
    v.groups = [] ∧ v.same v = true := by
  cases denotes_of_toVariable? h with
  | float _ hfinite => exact ⟨rfl, Double.numEq_self hfinite⟩
  | _ => exact ⟨rfl, beq_self_eq_true _⟩

end Token

theorem Spells.hasString_iff {n : Nat} {ts : List Token} {x : Phrase} (h : Spells n ts x)
    {value : Text} : HasString x.groups value ↔ SpellsString ts value := by
  induction h with
  | @token n t v h =>
    simp [Phrase.groups, Group.groups, Group.inner, (Token.leaf_of_toVariable? h).1, h, eq_comm]
  | @space n ts hne h =>
    have hnone : ¬ SpellsString ts value := by
      rintro ⟨t, ht, hvalue⟩
      rw [Token.toVariable?_of_kind (.inr (.inl (h t ht)))] at hvalue
      cases hvalue
    simp [Phrase.groups, Group.groups, Group.inner, Variable.groups, hnone]
  | @grouping n o c ts p ho hc h ih =>
    have hopen : o.toVariable? = none := Token.toVariable?_of_kind (.inr (.inr ho))
    have hclose : c.toVariable? = none := Token.toVariable?_of_kind (.inl (by rw [hc]; rfl))
    simp only [Phrase.groups] at ih
    simp [Phrase.groups, Group.groups, Group.inner, Variable.groups, hopen, hclose, ih]
  | nil => simp [Phrase.groups, Group.groups, Group.inner]
  | cons hv hg hs ihv ihg =>
    simp only [Phrase.groups, Group.groups, Group.inner, List.append_nil, hasString_cons,
      List.mem_singleton] at ihv ihg
    simp only [Phrase.groups, Group.groups, Group.inner, hasString_cons, hasString_append,
      List.mem_cons, spellsString_append, ← ihv, ← ihg]
    exact or_or_or_comm
  | stage hg hne ih => exact ih
  | @piped n t ts us g p hg hne ht hp ihg ihp =>
    have hpipe : t.toVariable? = none := Token.toVariable?_of_kind (.inl (by rw [ht]; rfl))
    simp only [Phrase.groups, Group.groups] at ihg ihp
    simp [Phrase.groups, Pipeline.groups, hpipe, ← ihg, ← ihp, or_assoc]

/-- Whether the phrase is the same as itself, as one with a number that is none would not be. -/
def Phrase.SameAsSelf : Phrase → Prop
  | .variable v => v.same v = true
  | .group g => Group.same g g = true
  | .pipeline p => p.same p = true

theorem Spells.sameAsSelf {n : Nat} {ts : List Token} {x : Phrase} (h : Spells n ts x) :
    x.SameAsSelf := by
  induction h with
  | token h => exact (Token.leaf_of_toVariable? h).2
  | space hne h => exact beq_self_eq_true _
  | grouping ho hc h ih =>
    simp only [Phrase.SameAsSelf] at ih
    simp [Phrase.SameAsSelf, Variable.same, ih]
  | nil => rfl
  | cons hv hg hs ihv ihg =>
    simp only [Phrase.SameAsSelf] at ihv ihg
    simp [Phrase.SameAsSelf, Group.same, ihv, ihg]
  | stage hg hne ih => exact ih
  | piped hg hne ht hp ihg ihp =>
    simp only [Phrase.SameAsSelf] at ihg ihp
    simp [Phrase.SameAsSelf, Pipeline.same, ihg, ihp]

section Actions

variable {limit : Nat} {ts : List Token} {a : Action} (h : SpellsAction limit ts a)

include h

theorem SpellsAction.hasString_iff {value : Text} :
    HasString a.groups value ↔ SpellsString ts value := by
  obtain ⟨o, c, us, p, ho, hc, hp, rfl, rfl⟩ := h
  have hopen : o.toVariable? = none := Token.toVariable?_of_kind (.inl (by rw [ho]; rfl))
  have hclose : c.toVariable? = none := Token.toVariable?_of_kind (.inl (by rw [hc]; rfl))
  have hpipeline : HasString p.groups value ↔ SpellsString us value := hp.hasString_iff
  simp [Action.groups, Pipelines.groups, hopen, hclose, hpipeline]

theorem SpellsAction.same_self : a.same a = true := by
  obtain ⟨o, c, us, p, ho, hc, hp, rfl, rfl⟩ := h
  have hpipeline : p.same p = true := hp.sameAsSelf
  simp [Action.same, hpipeline]

end Actions

theorem same_append {t u : Tree} (ht : t.same t = true) (hu : u.same u = true) :
    Tree.same (t ++ u) (t ++ u) = true := by
  simp only [Tree.same, Bool.and_eq_true, beq_self_eq_true, true_and] at ht hu ⊢
  rw [List.zip_append rfl, List.all_append, ht, hu]
  rfl

section Trees

variable {limit : Nat} {gs : List Segment} {as : List Action} (h : SpellsActions limit gs as)
  (tail : Text)

include h

/-- The strings of the tree of a template are those of the tokens of its actions. -/
theorem mem_strings_assemble {value : Text} :
    value ∈ (assemble gs as tail).strings ↔ ∃ g ∈ gs, SpellsString (tokenize g.source) value := by
  have htext : ∀ s, (Parse.textBranch s).flatMap Branch.groups = [] := by
    intro s
    unfold Parse.textBranch
    split <;> rfl
  rw [mem_strings_iff]
  induction h with
  | nil => simp [assemble, weave, Tree.groups, htext]
  | @cons g a gs as ha has ih =>
    have hgroups : Tree.groups (assemble (g :: gs) (a :: as) tail) =
        a.groups ++ Tree.groups (assemble gs as tail) := by
      rw [assemble_cons, Tree.groups, List.flatMap_append, htext]
      rfl
    simp [hgroups, ih, ha.hasString_iff]

theorem same_assemble : (assemble gs as tail).same (assemble gs as tail) = true := by
  have htext : ∀ s, Tree.same (Parse.textBranch s) (Parse.textBranch s) = true := by
    intro s
    unfold Parse.textBranch
    split
    · rfl
    · simp [Tree.same, Branch.same]
  induction h with
  | nil => exact htext tail
  | @cons g a gs as ha has ih =>
    have haction : Tree.same [.action a] [.action a] = true := by
      simp [Tree.same, Branch.same, ha.same_self]
    rw [assemble_cons, ← List.singleton_append]
    exact same_append (htext _) (same_append haction ih)

end Trees

end Stencil
