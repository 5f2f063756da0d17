import Stencil.Proofs.Recarving
import Stencil.Proofs.RespelledCuts
import Stencil.Proofs.Strings

namespace Stencil

theorem Spells.respelled {n : Nat} {ts : List Token} {x : Phrase} (h : Spells n ts x) :
    Spells n (ts.map Token.respelled) x := by
  induction h with
  | token h => exact .token (Token.toVariable?_respelled h)
  | @space n ts hne h =>
    have hmap : ts.map Token.respelled = ts := by
      refine (List.map_congr_left fun t ht => ?_).trans (List.map_id ts)
      exact Token.respelled_of_kind (by simp [h t ht])
    rw [hmap]
    exact .space hne h
  | @grouping n o c ts p ho hc h ih =>
    have ho' : o.respelled = o := Token.respelled_of_kind (by simp [ho])
    have hc' : c.respelled = c := Token.respelled_of_kind (by simp [hc])
    rw [List.map_cons, List.map_append, List.map_singleton, ho', hc']
    exact .grouping ho hc ih
  | nil => exact .nil
  | cons hv hg hs ihv ihg =>
    rw [List.map_append]
    exact .cons ihv ihg hs
  | stage hg hne ih => exact .stage ih hne
  | piped hg hne ht hp ihg ihp =>
    rw [List.map_append, List.map_cons]
    exact .piped ihg hne ht ihp

theorem SpellsAction.respelled {limit : Nat} {ts : List Token} {a : Action}
    (h : SpellsAction limit ts a) : SpellsAction limit (ts.map Token.respelled) a := by
  obtain ⟨o, c, us, p, ho, hc, hp, rfl, rfl⟩ := h
  have ho' : o.respelled = o := Token.respelled_of_kind (by simp [ho])
  have hc' : c.respelled = c := Token.respelled_of_kind (by simp [hc])
  rw [List.map_cons, List.map_append, List.map_singleton, ho', hc']
  exact ⟨o, c, us.map Token.respelled, p, ho, hc, hp.respelled, rfl, rfl⟩

section Action

variable {limit : Nat} {source : Text} {a : Action} (h : SpellsAction limit (tokenize source) a)

include h

theorem SpellsAction.tokenize_canonical :
    tokenize ((tokenize source).flatMap Token.canonical) = (tokenize source).map Token.respelled :=
  Token.tokenize_respelled (Token.separate_of_lexed (lexed_tokenize source) h.kind_ne_text)
    h.hasValue

theorem SpellsAction.tokenize_render :
    tokenize a.render = (tokenize source).map Token.respelled := by
  rw [h.render_eq (wellFormed_of_lexed (lexed_tokenize source)), h.tokenize_canonical]

end Action

def Segment.respelled (g : Segment) : Segment :=
  { g with inner := (((tokenize g.source).flatMap Token.canonical).drop 2).dropLast.dropLast }

namespace Segment.Holds

variable {limit : Nat} {g : Segment} {left right : Bool} {us : List Token} {p : Pipeline}
  (h : g.Holds limit left us right p)

include h

theorem spellsAction : SpellsAction limit (tokenize g.source)
    ⟨(Token.opening left).text, [p], (Token.closing right).text⟩ :=
  spellsAction_iff.2 ⟨left, us, right, p, h, rfl⟩

theorem source_respelled : g.respelled.source = (tokenize g.source).flatMap Token.canonical := by
  have hsource : (g.withTokens (Token.opening left :: (us ++ [Token.closing right]))).source = _ :=
    Segment.source_withTokens
  rw [← h.tokens] at hsource
  exact hsource

theorem spellsAction_respelled : SpellsAction limit (tokenize g.respelled.source)
    ⟨(Token.opening left).text, [p], (Token.closing right).text⟩ := by
  rw [h.source_respelled, h.spellsAction.tokenize_canonical]
  exact h.spellsAction.respelled

end Segment.Holds

section Template

variable {limit : Nat} {gs : List Segment} {as : List Action} (h : SpellsActions limit gs as)
  (hgs : ∀ g ∈ gs, g.Carved)

include h

theorem spellsActions_respelled : SpellsActions limit (gs.map Segment.respelled) as := by
  refine List.forall₂_map_left_iff.2 (h.imp fun g a ha => ?_)
  obtain ⟨left, us, right, p, hholds, rfl⟩ := spellsAction_iff.1 ha
  exact hholds.spellsAction_respelled

theorem assemble_respelled (tail : Text) :
    assemble (gs.map Segment.respelled) as tail = assemble gs as tail := by
  induction h with
  | nil => rfl
  | cons ha has ih =>
    rw [List.map_cons, assemble_cons, assemble_cons, ih]
    rfl

include hgs

theorem segments_respelled (hclean : ∀ g ∈ gs, ¬ g.Breaks) {tail : Text}
    (htail : ∀ g rest, nextAction tail ≠ .found g rest) :
    segments (gs.flatMap (fun g => g.before ++ (tokenize g.source).flatMap Token.canonical) ++ tail) =
      (gs.map Segment.respelled, tail) :=
  segments_withTokens takesComments_id h hgs hclean htail

/-- With braces in a string there is an action in canonical spelling that spells nothing. -/
theorem exists_refused (hbreaks : ∃ g ∈ gs, g.Breaks) (tail : Text) :
    ∃ c ∈ (segments (gs.flatMap
      (fun g => g.before ++ (tokenize g.source).flatMap Token.canonical) ++ tail)).1,
      ∀ a, ¬ SpellsAction limit (tokenize c.source) a :=
  exists_refused_withTokens takesComments_id h hgs hbreaks tail

end Template

theorem exists_breaks_iff {limit : Nat} {gs : List Segment} {as : List Action}
    (h : SpellsActions limit gs as) (tail : Text) :
    (∃ g ∈ gs, g.Breaks) ↔ ∃ v ∈ (assemble gs as tail).strings, ['}', '}'] <:+: v := by
  constructor
  · rintro ⟨g, hg, u, hu, v, hvalue, hb⟩
    exact ⟨v, (mem_strings_assemble h _).2 ⟨g, hg, u, hu, hvalue⟩, hb⟩
  · rintro ⟨v, hv, hb⟩
    obtain ⟨g, hg, u, hu, hvalue⟩ := (mem_strings_assemble h _).1 hv
    exact ⟨g, hg, u, hu, v, hvalue, hb⟩

/-- The tree of a template is what its rendering is parsed as if no string in it has two closing
braces in a row; if one has, the rendering is refused. -/
theorem parse_render {file s : Text} {options : Options} {t : Tree}
    (h : parse file s options = .ok t) :
    t.same t = true ∧
      ((∀ v ∈ t.strings, ¬ ['}', '}'] <:+: v) → parse file t.render options = .ok t) ∧
      ((∃ v ∈ t.strings, ['}', '}'] <:+: v) → ∃ e, parse file t.render options = .error e) := by
  obtain ⟨hclosed, as, has, rfl⟩ := parse_eq_ok.1 h
  have hcarved : ∀ g ∈ (segments s).1, g.Carved := carved_of_segments
  have hbreaks := exists_breaks_iff has (segments s).2
  refine ⟨same_assemble has _, fun hclean => ?_, fun hsome => ?_⟩
  · have hunbroken : ∀ g ∈ (segments s).1, ¬ g.Breaks := by
      intro g hg hb
      obtain ⟨v, hv, hbraces⟩ := hbreaks.1 ⟨g, hg, hb⟩
      exact hclean v hv hbraces
    refine parse_eq_ok.2 ?_
    rw [render_assemble has,
      segments_respelled has hcarved hunbroken (nextAction_ne_found_of_segments s)]
    exact ⟨hclosed, as, spellsActions_respelled has, (assemble_respelled has _).symm⟩
  · obtain ⟨c, hc, hrefused⟩ := exists_refused has hcarved (hbreaks.2 hsome) (segments s).2
    rw [← render_assemble has] at hc
    cases hparse : parse file (assemble (segments s).1 as (segments s).2).render options with
    | error e => exact ⟨e, rfl⟩
    | ok u =>
      obtain ⟨-, bs, hbs, -⟩ := parse_eq_ok.1 hparse
      obtain ⟨b, hb⟩ := hbs.exists_of_mem hc
      exact (hrefused b hb).elim

theorem parse_render_literals : ∃ t,
    parse [] "\x7b\x7b \"\\x7d\" | f '\\x41' 007 1.50 \x7d\x7d".toList = .ok t ∧
      t.same t = true ∧ parse [] t.render = .ok t := by
  obtain ⟨t, ht⟩ :
      ∃ t, parse [] "\x7b\x7b \"\\x7d\" | f '\\x41' 007 1.50 \x7d\x7d".toList = .ok t :=
    Except.exists_of_isOk (by decide +kernel)
  have hstrings : ((parse [] "\x7b\x7b \"\\x7d\" | f '\\x41' 007 1.50 \x7d\x7d".toList).map
      Tree.strings).toOption = some [['}']] := by decide +kernel
  rw [ht] at hstrings
  obtain ⟨hsame, hagain, -⟩ := parse_render ht
  refine ⟨t, ht, hsame, hagain fun v hv hb => ?_⟩
  rw [Option.some.inj hstrings, List.mem_singleton] at hv
  have hle := hb.length_le
  rw [hv] at hle
  exact absurd hle (by decide)

/-- Not every rendering is parsed again: the braces of this string are escaped in the template, but not
in its rendering. -/
theorem parse_render_ne : ¬ ∀ (s : Text) (t : Tree), parse [] s = .ok t →
    ∃ u, parse [] t.render = .ok u ∧ u.same t = true := by
  intro h
  obtain ⟨t, ht⟩ : ∃ t, parse [] "\x7b\x7b \"\\x7d\\x7d\" \x7d\x7d".toList = .ok t :=
    Except.exists_of_isOk (by decide +kernel)
  have hrefused : ((parse [] "\x7b\x7b \"\\x7d\\x7d\" \x7d\x7d".toList).bind
      fun t => parse [] t.render).isOk = false := by decide +kernel
  obtain ⟨u, hu, -⟩ := h _ t ht
  rw [ht, Except.bind, hu] at hrefused
  cases hrefused

/-- Each action of a template is read again from its rendering, without the braces being searched
for: the tokens of the rendering are those of the action in canonical spelling, one for one, of the
same kinds and with the same values. -/
theorem ofTokens_tokenize_render {file s : Text} {options : Options} {t : Tree}
    (h : parse file s options = .ok t) :
    (∀ a ∈ t.actions, Action.ofTokens options.maxDepth (tokenize a.render) = .ok a) ∧
      List.Forall₂ (fun g a => tokenize a.render = (tokenize g.source).map Token.respelled ∧
        ∀ u ∈ tokenize g.source, u.respelled.toVariable? = u.toVariable?)
        (segments s).1 t.actions := by
  obtain ⟨-, as, has, rfl⟩ := parse_eq_ok.1 h
  rw [actions_assemble has]
  refine ⟨fun a ha => ?_, has.imp fun g a hspells => ⟨hspells.tokenize_render, fun u hu => ?_⟩⟩
  · obtain ⟨g, hspells⟩ := has.exists_source ha
    rw [Action.ofTokens_eq_ok, hspells.tokenize_render]
    exact hspells.respelled
  · exact Token.toVariable?_respelled_eq (hspells.hasValue u hu)

theorem ofTokens_tokenize_render_joined : ∃ t a,
    parse [] "\x7b\x7b\"\\x7d\\x7d\"'\\x41'007.50.x|(1)\x7d\x7d".toList = .ok t ∧ t.actions = [a] ∧
      a.render = "\x7b\x7b\"\x7d\x7d\"'A'7.5.x|(1)\x7d\x7d".toList ∧
      Action.ofTokens 128 (tokenize a.render) = .ok a := by
  obtain ⟨t, ht⟩ :
      ∃ t, parse [] "\x7b\x7b\"\\x7d\\x7d\"'\\x41'007.50.x|(1)\x7d\x7d".toList = .ok t :=
    Except.exists_of_isOk (by decide +kernel)
  have hrender : ((parse [] "\x7b\x7b\"\\x7d\\x7d\"'\\x41'007.50.x|(1)\x7d\x7d".toList).map
      fun t => t.actions.map Action.render).toOption =
        some ["\x7b\x7b\"\x7d\x7d\"'A'7.5.x|(1)\x7d\x7d".toList] := by decide +kernel
  rw [ht] at hrender
  obtain ⟨a, hactions, ha⟩ := List.map_eq_singleton_iff.1 (Option.some.inj hrender)
  exact ⟨t, a, ht, hactions, ha, (ofTokens_tokenize_render ht).1 a (by simp [hactions])⟩

end Stencil
