import Stencil.Proofs.Acceptance
import Stencil.Proofs.TokenEdges

namespace Stencil

namespace Token

def opening (left : Bool) : Token := ⟨.statementOpen, '{' :: '{' :: if left then ['-'] else []⟩

def closing (right : Bool) : Token := ⟨.statementClose, (if right then ['-'] else []) ++ ['}', '}']⟩

theorem eq_opening {t : Token} (hw : t.WellFormed) (hk : t.kind = .statementOpen) :
    ∃ left, t = opening left := by
  obtain ⟨kind, s⟩ := t
  cases hk
  obtain rfl | rfl := matches_statementOpen_iff.1 hw.matches'
  · exact ⟨false, rfl⟩
  · exact ⟨true, rfl⟩

theorem eq_closing {t : Token} (hw : t.WellFormed) (hk : t.kind = .statementClose) :
    ∃ right, t = closing right := by
  obtain ⟨kind, s⟩ := t
  cases hk
  obtain rfl | rfl := matches_statementClose_iff.1 hw.matches'
  · exact ⟨false, rfl⟩
  · exact ⟨true, rfl⟩

end Token

theorem spellsAction_delimited_iff {limit : Nat} {left right : Bool} {us : List Token}
    {a : Action} :
    SpellsAction limit (Token.opening left :: (us ++ [Token.closing right])) a ↔
      ∃ p, Spells (limit + 1) us (.pipeline p) ∧
        a = ⟨(Token.opening left).text, [p], (Token.closing right).text⟩ := by
  constructor
  · rintro ⟨o, c, us', p, -, -, hp, hts, rfl⟩
    obtain ⟨rfl, hrest⟩ := List.cons.inj hts
    obtain ⟨rfl, hlast⟩ := List.append_inj' hrest rfl
    obtain rfl := List.singleton_inj.1 hlast
    exact ⟨p, hp, rfl⟩
  · rintro ⟨p, hp, rfl⟩
    exact ⟨Token.opening left, Token.closing right, us, p, rfl, rfl, hp, rfl, rfl⟩

/-- `Holds limit g left us right p`: the segment has the given trim markers, and the tokens between
them spell the pipeline. -/
structure Segment.Holds (limit : Nat) (g : Segment) (left : Bool) (us : List Token) (right : Bool)
    (p : Pipeline) : Prop where
  tokens : tokenize g.source = Token.opening left :: (us ++ [Token.closing right])
  spells : Spells (limit + 1) us (.pipeline p)

theorem spellsAction_iff {limit : Nat} {g : Segment} {a : Action} :
    SpellsAction limit (tokenize g.source) a ↔ ∃ left us right p, g.Holds limit left us right p ∧
      a = ⟨(Token.opening left).text, [p], (Token.closing right).text⟩ := by
  constructor
  · rintro ⟨o, c, us, p, ho, hc, hp, hts, rfl⟩
    have hw := wellFormed_of_lexed (lexed_tokenize g.source)
    rw [hts, List.forall_mem_cons, List.forall_mem_append, List.forall_mem_singleton] at hw
    obtain ⟨left, rfl⟩ := Token.eq_opening hw.1 ho
    obtain ⟨right, rfl⟩ := Token.eq_closing hw.2.2 hc
    exact ⟨left, us, right, p, ⟨hts, hp⟩, rfl⟩
  · rintro ⟨left, us, right, p, ⟨hts, hp⟩, rfl⟩
    exact ⟨Token.opening left, Token.closing right, us, p, rfl, rfl, hp, hts, rfl⟩

theorem SpellsActions.exists_holds {limit : Nat} {gs : List Segment} {as : List Action}
    (h : SpellsActions limit gs as) {g : Segment} (hg : g ∈ gs) :
    ∃ left us right p, g.Holds limit left us right p := by
  obtain ⟨a, ha⟩ := h.exists_of_mem hg
  obtain ⟨left, us, right, p, hholds, -⟩ := spellsAction_iff.1 ha
  exact ⟨left, us, right, p, hholds⟩

theorem skips_marker (marked : Bool) (y : Option Char) :
    Skips '}' y (if marked then ['-'] else []) :=
  .of_notMem (by cases marked <;> decide) (by cases marked <;> decide)

namespace Segment.Holds

variable {limit : Nat} {g : Segment} {left right : Bool} {us : List Token} {p : Pipeline}
  (h : g.Holds limit left us right p)

include h

theorem wellFormed : ∀ t ∈ us, t.WellFormed := by
  have hw := wellFormed_of_lexed (lexed_tokenize g.source)
  rw [h.tokens, List.forall_mem_cons, List.forall_mem_append] at hw
  exact hw.2.1

theorem inner_kind : ∀ t ∈ us, t.kind ∉ [.statementOpen, .statementClose, .text] :=
  h.spells.inner_kind

theorem inner_eq :
    g.inner = (if left then ['-'] else []) ++ Token.spelling us ++ (if right then ['-'] else []) := by
  have hsource := spelling_tokenize g.source
  rw [h.tokens] at hsource
  refine (List.append_left_inj ['}', '}']).1 ?_
  simpa [Token.spelling, Token.opening, Token.closing, Segment.source] using hsource.symm

/-- In a segment that a search has found, no token has two closing braces that it would find. -/
theorem skips (hg : g.Carved) : ∀ t ∈ us, ∀ z, Skips '}' z t.text := by
  have hinner := hg.inner
  rw [h.inner_eq] at hinner
  rw [List.append_assoc] at hinner
  obtain ⟨-, hrest⟩ := hinner.of_append (by cases left <;> decide)
  obtain ⟨hus, -⟩ := hrest.of_append
    (Token.getLast?_spelling_ne h.wellFormed h.inner_kind (by decide))
  exact Token.skips_of_spelling h.wellFormed h.inner_kind hus

end Segment.Holds

end Stencil
