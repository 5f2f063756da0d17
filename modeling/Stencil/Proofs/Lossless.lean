import Stencil.Proofs.Acceptance
import Stencil.Proofs.Quoting
import Stencil.Proofs.Rewriting
import Stencil.Tree.Render

namespace Stencil

/-- The text of a token, in the canonical spelling of its value if it is a string, a rune or a
number that has one. -/
def Token.canonical (t : Token) : Text :=
  match t.kind with
  | .string => (Literal.stringValue t.text).toOption.elim t.text Literal.spellString
  | .rune => (Literal.runeValue t.text).toOption.elim t.text Literal.spellRune
  | .float => (Decimal.ofPositional? t.text).elim t.text fun d => (Double.ofDecimal false d).render
  | .int => (Text.numeral? 10 t.text).elim t.text Text.decimal
  | _ => t.text

/-- Whether the value of the token exists, if the token stands for one. -/
def Token.HasValue (t : Token) : Prop := ∀ r, t.toVariable? = some r → ∃ v, r = .ok v

namespace Token

theorem canonical_of_toVariable? {t : Token} {v : Variable} (h : t.toVariable? = some (.ok v)) :
    v.render = t.canonical := by
  cases denotes_of_toVariable? h with
  | string hdecode =>
    rw [canonical, Literal.stringValue_eq_ok.2 ⟨_, rfl, hdecode⟩]
    rfl
  | rune hdecode =>
    rw [canonical, Literal.runeValue_eq_ok.2 ⟨_, rfl, hdecode⟩]
    rfl
  | float hd => simp only [canonical, hd, Option.elim, Variable.render]
  | int hn hlt =>
    rw [canonical, hn, Variable.render, Int64.toInt_ofNat_of_lt hlt]
    rfl
  | _ => rfl

theorem canonical_of_kind {t : Token} (h : t.kind ∉ [.string, .rune, .float, .int]) :
    t.canonical = t.text := by
  unfold canonical
  split <;> simp_all

theorem hasValue_of_not_begins {t : Token}
    (h : t.kind.beginsVariable = false ∨ t.kind = .space ∨ t.kind = .groupOpen) : t.HasValue := by
  intro r hr
  rw [toVariable?_of_kind h] at hr
  cases hr

theorem text_of_pipe {t : Token} (hw : t.WellFormed) (hk : t.kind = .pipe) : t.text = ['|'] := by
  have h := hw.matches'
  rw [hk] at h
  exact Pattern.matches_char_iff.1 h

theorem canonical_of_pipe {t : Token} (hw : t.WellFormed) (hk : t.kind = .pipe) :
    t.canonical = ['|'] := by
  rw [canonical_of_kind (by simp [hk]), text_of_pipe hw hk]

theorem flatMap_canonical_enclosed {o c : Token} (ho : o.kind ∉ [.string, .rune, .float, .int])
    (hc : c.kind ∉ [.string, .rune, .float, .int]) (ts : List Token) :
    (o :: (ts ++ [c])).flatMap canonical = o.text ++ ts.flatMap canonical ++ c.text := by
  simp [canonical_of_kind ho, canonical_of_kind hc]

end Token

def Phrase.render : Phrase → Text
  | .variable v => v.render
  | .group g => Group.render g
  | .pipeline p => p.render

/-- What tokens spell is rendered as their canonical spellings one after the other. -/
theorem Spells.render_eq {n : Nat} {ts : List Token} {x : Phrase} (h : Spells n ts x)
    (hw : ∀ t ∈ ts, t.WellFormed) : x.render = ts.flatMap Token.canonical := by
  induction h with
  | token h => simpa [Phrase.render] using Token.canonical_of_toVariable? h
  | @space n ts hne h =>
    simp only [Phrase.render, Variable.render, Token.spelling]
    refine List.flatMap_congr fun t ht => ?_
    rw [Token.canonical_of_kind (by simp [h t ht])]
  | @grouping n o c ts p ho hc h ih =>
    rw [List.forall_mem_cons, List.forall_mem_append] at hw
    have ih := ih hw.2.1
    simp only [Phrase.render] at ih
    rw [Token.flatMap_canonical_enclosed (by simp [ho]) (by simp [hc]), ← ih]
    rfl
  | nil => rfl
  | cons hv hg hs ihv ihg =>
    rw [List.forall_mem_append] at hw
    have ihv := ihv hw.1
    have ihg := ihg hw.2
    simp only [Phrase.render] at ihv ihg
    simp [Phrase.render, Group.render, ihv, ihg]
  | stage hg hne ih =>
    have ih := ih hw
    simp only [Phrase.render] at ih
    simp [Phrase.render, Pipeline.render, ih]
  | @piped n t ts us g p hg hne ht hp ihg ihp =>
    rw [List.forall_mem_append, List.forall_mem_cons] at hw
    have ihg := ihg hw.1
    have ihp := ihp hw.2.2
    have htext := Token.canonical_of_pipe hw.2.1 ht
    simp only [Phrase.render] at ihg ihp
    simp [Phrase.render, Pipeline.render, ihg, ihp, htext]

theorem Spells.hasValue {n : Nat} {ts : List Token} {x : Phrase} (h : Spells n ts x) :
    ∀ t ∈ ts, t.HasValue := by
  induction h with
  | @token n t v h =>
    rw [List.forall_mem_singleton]
    intro r hr
    rw [h] at hr
    exact ⟨v, (Option.some.inj hr).symm⟩
  | space hne h => exact fun t ht => Token.hasValue_of_not_begins (.inr (.inl (h t ht)))
  | @grouping n o c ts p ho hc h ih =>
    have hopen : o.HasValue := Token.hasValue_of_not_begins (.inr (.inr ho))
    have hclose : c.HasValue := Token.hasValue_of_not_begins (.inl (by rw [hc]; rfl))
    simpa [or_imp, forall_and, hopen, hclose] using ih
  | nil => simp
  | cons hv hg hs ihv ihg => exact List.forall_mem_append.2 ⟨ihv, ihg⟩
  | stage hg hne ih => exact ih
  | @piped n t ts us g p hg hne ht hp ihg ihp =>
    have hpipe : t.HasValue := Token.hasValue_of_not_begins (.inl (by rw [ht]; rfl))
    exact List.forall_mem_append.2 ⟨ihg, List.forall_mem_cons.2 ⟨hpipe, ihp⟩⟩

section Actions

variable {limit : Nat} {ts : List Token} {a : Action} (h : SpellsAction limit ts a)

include h

theorem SpellsAction.render_eq (hw : ∀ t ∈ ts, t.WellFormed) :
    a.render = ts.flatMap Token.canonical := by
  obtain ⟨o, c, us, p, ho, hc, hp, rfl, rfl⟩ := h
  have hus : Pipeline.render p = us.flatMap Token.canonical :=
    hp.render_eq fun t ht => hw t (by simp [ht])
  rw [Token.flatMap_canonical_enclosed (by simp [ho]) (by simp [hc]), ← hus]
  simp [Action.render, Pipelines.render]

theorem SpellsAction.hasValue : ∀ t ∈ ts, t.HasValue := by
  obtain ⟨o, c, us, p, ho, hc, hp, rfl, rfl⟩ := h
  have hopen : o.HasValue := Token.hasValue_of_not_begins (.inl (by rw [ho]; rfl))
  have hclose : c.HasValue := Token.hasValue_of_not_begins (.inl (by rw [hc]; rfl))
  simpa [or_imp, forall_and, hopen, hclose] using hp.hasValue

end Actions

theorem render_textBranch (s : Text) : Tree.render (Parse.textBranch s) = s := by
  unfold Parse.textBranch
  cases s <;> simp [Tree.render, Branch.render]

theorem render_assemble {limit : Nat} {gs : List Segment} {as : List Action} {tail : Text}
    (h : SpellsActions limit gs as) :
    (assemble gs as tail).render =
      gs.flatMap (fun g => g.before ++ (tokenize g.source).flatMap Token.canonical) ++ tail := by
  induction h with
  | nil => exact render_textBranch tail
  | @cons g a gs as ha has ih =>
    have hw := wellFormed_of_lexed (lexed_tokenize g.source)
    have hbefore : (Parse.textBranch g.before).flatMap Branch.render = g.before :=
      render_textBranch g.before
    simp only [assemble, weave, Tree.render, List.flatMap_append, List.flatMap_cons,
      List.append_assoc, hbefore, Branch.render, ha.render_eq hw] at ih ⊢
    rw [ih]

/-- Rendering the tree of a template gives the template with each string, rune and number of its
actions in the canonical spelling of its value, which each of them has. -/
theorem render_of_parse {file s : Text} {options : Options} {t : Tree}
    (h : parse file s options = .ok t) :
    rewriteActions Token.spelling s = s ∧
      t.render = rewriteActions (·.flatMap Token.canonical) s ∧
      (∀ g ∈ (segments s).1, ∀ u ∈ tokenize g.source, u.HasValue) ∧
      ((∀ g ∈ (segments s).1, ∀ u ∈ tokenize g.source, u.canonical = u.text) → t.render = s) := by
  obtain ⟨-, as, has, rfl⟩ := parse_eq_ok.1 h
  have hrender : (assemble (segments s).1 as (segments s).2).render =
      rewriteActions (·.flatMap Token.canonical) s := render_assemble has
  refine ⟨rewriteActions_spelling s, hrender, fun g hg => ?_, fun hcanonical => ?_⟩
  · obtain ⟨a, ha⟩ := SpellsActions.exists_of_mem has hg
    exact ha.hasValue
  · have heq : rewriteActions (·.flatMap Token.canonical) s = rewriteActions Token.spelling s :=
      rewriteActions_congr fun g hg => List.flatMap_congr (hcanonical g hg)
    rw [hrender, heq, rewriteActions_spelling]

theorem render_of_parse_literals : ∃ t,
    parse [] "a \x7b\x7b- \"\\x41\" | ( f 007 ) \x7d\x7d b".toList = .ok t ∧
      t.render = "a \x7b\x7b- \"A\" | ( f 7 ) \x7d\x7d b".toList := by
  obtain ⟨t, ht⟩ : ∃ t, parse [] "a \x7b\x7b- \"\\x41\" | ( f 007 ) \x7d\x7d b".toList = .ok t :=
    Except.exists_of_isOk (by decide +kernel)
  obtain ⟨-, hrender, -⟩ := render_of_parse ht
  refine ⟨t, ht, ?_⟩
  rw [hrender]
  decide +kernel

end Stencil
