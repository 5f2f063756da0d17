import Mathlib.Data.List.Forall2
import Stencil.Parse
import Stencil.Proofs.Carving
import Stencil.Proofs.Grammar
import Stencil.Proofs.Lexing

namespace Stencil

def weave : List Segment → List Action → Tree
  | g :: gs, a :: as => Parse.textBranch g.before ++ .action a :: weave gs as
  | _, _ => []

/-- The tree of a template with the given actions and the text `tail` after the last. -/
def assemble (gs : List Segment) (as : List Action) (tail : Text) : Tree :=
  weave gs as ++ Parse.textBranch tail

theorem assemble_cons (g : Segment) (gs : List Segment) (a : Action) (as : List Action)
    (tail : Text) : assemble (g :: gs) (a :: as) tail =
      Parse.textBranch g.before ++ .action a :: assemble gs as tail := by
  simp [assemble, weave]

/-- The actions are those that the segments spell, one each. -/
abbrev SpellsActions (limit : Nat) : List Segment → List Action → Prop :=
  List.Forall₂ fun g a => SpellsAction limit (tokenize g.source) a

theorem SpellsActions.exists_of_mem {limit : Nat} {gs : List Segment} {as : List Action}
    (h : SpellsActions limit gs as) {g : Segment} (hg : g ∈ gs) :
    ∃ a, SpellsAction limit (tokenize g.source) a := by
  induction h with
  | nil => cases hg
  | @cons g' a gs as ha _ ih =>
    obtain rfl | hg := List.mem_cons.1 hg
    · exact ⟨a, ha⟩
    · exact ih hg

theorem SpellsActions.exists_source {limit : Nat} {gs : List Segment} {as : List Action}
    (h : SpellsActions limit gs as) {a : Action} (ha : a ∈ as) :
    ∃ g : Segment, SpellsAction limit (tokenize g.source) a := by
  induction h with
  | nil => cases ha
  | @cons g b gs as hb _ ih =>
    obtain rfl | ha := List.mem_cons.1 ha
    · exact ⟨g, hb⟩
    · exact ih ha

theorem SpellsActions.append {limit : Nat} {gs hs : List Segment} {as bs : List Action}
    (h₁ : SpellsActions limit gs as) (h₂ : SpellsActions limit hs bs) :
    SpellsActions limit (gs ++ hs) (as ++ bs) :=
  List.rel_append h₁ h₂

theorem actions_assemble {limit : Nat} {gs : List Segment} {as : List Action} {tail : Text}
    (h : SpellsActions limit gs as) : (assemble gs as tail).actions = as := by
  have htext : ∀ s, Tree.actions (Parse.textBranch s) = [] := by
    intro s
    unfold Parse.textBranch
    cases s <;> rfl
  induction h with
  | nil => exact htext tail
  | @cons g a gs as ha has ih =>
    have hbefore := htext g.before
    simp only [Tree.actions] at hbefore ih ⊢
    rw [assemble_cons, List.filterMap_append, hbefore, List.nil_append,
      List.filterMap_cons_some (by rfl), ih]

theorem Except.exists_of_isOk {ε α : Type} {x : Except ε α} (h : x.isOk = true) :
    ∃ a, x = .ok a := by
  cases x with
  | error e => cases h
  | ok a => exact ⟨a, rfl⟩

theorem Parse.action_eq_ok {limit : Nat} {file source : Text} {start : Position} {a : Action} :
    Parse.action limit file start source = .ok a ↔ SpellsAction limit (tokenize source) a := by
  rw [← Action.ofTokens_eq_ok, Parse.action]
  cases h : Action.ofTokens limit (tokenize source) with
  | error f => simp
  | ok b => simp

theorem Parse.branches_eq_ok {limit : Nat} {file : Text} {start : Position} {gs : List Segment}
    {t : Tree} :
    (∃ finish, Parse.branches limit file start gs = .ok (t, finish)) ↔
      ∃ as, SpellsActions limit gs as ∧ t = weave gs as := by
  induction gs generalizing start t with
  | nil =>
    constructor
    · rintro ⟨finish, h⟩
      cases h
      exact ⟨[], .nil, rfl⟩
    · rintro ⟨as, h, rfl⟩
      cases h
      exact ⟨start, rfl⟩
  | cons g gs ih =>
    constructor
    · rintro ⟨finish, h⟩
      rw [Parse.branches] at h
      obtain ⟨a, ha, hrest⟩ := Reader.bind_eq_ok.1 h
      obtain ⟨⟨bs, end'⟩, hbs, heq⟩ := Reader.bind_eq_ok.1 hrest
      cases heq
      obtain ⟨as, has, rfl⟩ := ih.1 ⟨finish, hbs⟩
      exact ⟨a :: as, .cons (Parse.action_eq_ok.1 ha) has, rfl⟩
    · rintro ⟨as, h, rfl⟩
      cases h with
      | @cons _ a _ as ha has =>
        have hrest : ∃ finish, Parse.branches limit file ((start.after g.before).after g.source) gs =
            .ok (weave gs as, finish) := ih.2 ⟨as, has, rfl⟩
        obtain ⟨finish, hbs⟩ := hrest
        refine ⟨finish, ?_⟩
        simp only [Parse.branches, Parse.action_eq_ok.2 ha, bind, Except.bind, hbs]
        rfl

/-- A template is accepted exactly if its actions spell something and no braces open after the last
of them. -/
theorem parse_eq_ok {file s : Text} {options : Options} {t : Tree} :
    parse file s options = .ok t ↔
      splitUnescaped '{' (segments s).2 = none ∧
        ∃ as, SpellsActions options.maxDepth (segments s).1 as ∧
          t = assemble (segments s).1 as (segments s).2 := by
  have hclosed : splitUnescaped '{' (segments s).2 = none ↔
      ∀ before, nextAction (segments s).2 ≠ .unclosed before := by
    have hnf := nextAction_ne_found_of_segments s
    unfold nextAction at hnf ⊢
    split
    next h => simp [h]
    next before rest h =>
      rw [h] at hnf ⊢
      simp only at hnf
      split
      · simp
      next inner after h' =>
        rw [h'] at hnf
        exact (hnf _ _ rfl).elim
  rw [hclosed, parse]
  constructor
  · intro h
    obtain ⟨⟨bs, finish⟩, hbs, hend⟩ := Reader.bind_eq_ok.1 h
    obtain ⟨as, has, rfl⟩ := Parse.branches_eq_ok.1 ⟨finish, hbs⟩
    simp only at hend
    split at hend
    · cases hend
    next hu =>
      cases hend
      exact ⟨hu, as, has, rfl⟩
  · rintro ⟨hu, as, has, rfl⟩
    obtain ⟨finish, hbs⟩ := Parse.branches_eq_ok.2 ⟨as, has, rfl⟩
    refine Reader.bind_eq_ok.2 ⟨_, hbs, ?_⟩
    cases htail : nextAction (segments s).2 with
    | found g rest => rfl
    | unclosed before => exact (hu before htail).elim
    | absent => rfl

theorem exists_spellsActions_iff {limit : Nat} {gs : List Segment} :
    (∃ as, SpellsActions limit gs as) ↔
      ∀ g ∈ gs, ∃ a, SpellsAction limit (tokenize g.source) a := by
  constructor
  · rintro ⟨as, has⟩ g hg
    exact has.exists_of_mem hg
  · intro h
    induction gs with
    | nil => exact ⟨[], .nil⟩
    | cons g gs ih =>
      rw [List.forall_mem_cons] at h
      obtain ⟨a, ha⟩ := h.1
      obtain ⟨as, has⟩ := ih h.2
      exact ⟨a :: as, .cons ha has⟩

/-- Whether a template is accepted hangs on each of its actions alone, and on what is after them. -/
theorem exists_parse_iff {file s : Text} {options : Options} :
    (∃ t, parse file s options = .ok t) ↔ splitUnescaped '{' (segments s).2 = none ∧
      ∀ g ∈ (segments s).1, ∃ a, SpellsAction options.maxDepth (tokenize g.source) a := by
  rw [← exists_spellsActions_iff]
  simp only [parse_eq_ok]
  constructor
  · rintro ⟨t, hclosed, as, has, -⟩
    exact ⟨hclosed, as, has⟩
  · rintro ⟨hclosed, as, has⟩
    exact ⟨_, hclosed, as, has, rfl⟩

end Stencil
