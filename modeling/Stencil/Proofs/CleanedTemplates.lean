import Stencil.Proofs.Idempotence
import Stencil.Proofs.RemovalAgreement
import Stencil.Proofs.Skeleton

namespace Stencil

theorem Token.Relexed.known {ts us : List Token} (h : Relexed ts us)
    (hk : ∀ t ∈ ts, t.kind ∉ [.statementOpen, .statementClose, .text])
    (hus : ∀ u ∈ us, u.kind ≠ .text ∧ u.HasValue) : ∀ u ∈ us, u.Known := by
  intro u hu
  refine ⟨?_, (hus u hu).2⟩
  obtain ht | hj | hj := h.mem_or u hu
  · exact hk u ht
  · revert hj
    cases u.kind <;> decide
  · exact ((hus u hu).1 hj).elim

theorem Group.keeps_false_iff {g : Group} :
    g.Keeps false ↔ ∃ v ∈ g, v.isComment = false := by
  simp [Keeps]

namespace Segment.Holds

variable {limit : Nat} {g : Segment} {left right : Bool} {us : List Token} {p : Pipeline}
  (h : g.Holds limit left us right p)

include h

theorem source_tidied (hmore : ∃ u ∈ tokenize g.source,
      u.kind ∉ [.comment, .space, .statementOpen, .statementClose]) :
    g.tidied.source = (Token.opening left).text ++
      (Token.spelling (us.filter (·.kind != .comment)) ++ (Token.closing right).text) := by
  obtain ⟨u, hu, hk⟩ := hmore
  have hsource : g.tidied.source = Token.spelling (Token.withoutComments (tokenize g.source)) :=
    h.source_tidy
  rw [hsource, Token.withoutComments, if_neg fun hall => hk (hall u hu), h.tokens]
  simp [Token.spelling, Token.opening, Token.closing]

theorem filter_ne_nil (hmore : ∃ u ∈ tokenize g.source,
    u.kind ∉ [.comment, .space, .statementOpen, .statementClose]) :
    us.filter (·.kind != .comment) ≠ [] := by
  obtain ⟨u, hu, hk⟩ := hmore
  rw [h.tokens, List.mem_cons, List.mem_append, List.mem_singleton] at hu
  obtain rfl | hu | rfl := hu
  · simp [Token.opening] at hk
  · have hc : u.kind ≠ .comment := fun hc => by simp [hc] at hk
    exact List.ne_nil_of_mem (List.mem_filter.2 ⟨hu, by simpa using hc⟩)
  · simp [Token.closing] at hk

/-- An action that holds more than comments and spaces is accepted without its comments if they are
alone in no group of it and the tokens that are left, as they join, are known. -/
theorem exists_spellsAction_tidied_iff (hmore : ∃ u ∈ tokenize g.source,
      u.kind ∉ [.comment, .space, .statementOpen, .statementClose]) :
    (∃ a, SpellsAction limit (tokenize g.tidied.source) a) ↔
      (∀ h ∈ p.groups, ∃ v ∈ h, v.isComment = false) ∧
        ∀ u ∈ tokenize g.tidied.source, u.kind ≠ .text ∧ u.HasValue := by
  have hw : ∀ t ∈ us.filter (·.kind != .comment), t.WellFormed := fun t ht =>
    h.wellFormed t (List.mem_of_mem_filter ht)
  have hk : ∀ t ∈ us.filter (·.kind != .comment),
      t.kind ∉ [.statementOpen, .statementClose, .text] := fun t ht =>
    h.inner_kind t (List.mem_of_mem_filter ht)
  obtain ⟨ws, hws, hrelexed⟩ := Token.exists_relexed_action hw hk (h.filter_ne_nil hmore) left right
  rw [h.source_tidied hmore, hws]
  have hgaps : Token.Gapless (some .statementOpen) (some .statementClose) ws ↔
      ∀ h ∈ p.groups, ∃ v ∈ h, v.isComment = false := by
    have hpruned : Token.Gapless (some .statementOpen) (some .statementClose)
        (Token.pruneBetween false (some .statementOpen) (some .statementClose) us) ↔
          ∀ h ∈ p.groups, h.Keeps false := h.spells.gaplessPruned _ _ rfl
    rw [Token.pruneBetween_false] at hpruned
    rw [← hrelexed.gapless_iff, hpruned]
    simp only [Group.keeps_false_iff]
  constructor
  · rintro ⟨a, ha⟩
    obtain ⟨q, hq, -⟩ := spellsAction_delimited_iff.1 ha
    exact ⟨hgaps.1 (hq.gapless _ _), fun u hu => ⟨ha.kind_ne_text u hu, ha.hasValue u hu⟩⟩
  · rintro ⟨hgroups, hus⟩
    have hknown := hrelexed.known hk fun u hu => hus u (by simp [hu])
    have hsame : KeepsSame TokenKind.isBracket us ws := by
      have hbracket : ∀ t : Token, t.kind.isBracket = true → (t.kind != .comment) = true := by
        intro t
        cases t.kind <;> decide
      rw [KeepsSame, hrelexed.filter_isBracket, List.filter_filter]
      congr 1
      refine List.filter_congr fun t _ => ?_
      cases hb : t.kind.isBracket with
      | false => simp
      | true => simp [hbracket t hb]
    have hspelled : (Phrase.pipeline p).SpelledBy TokenKind.isBracket (limit + 1) us :=
      h.spells.spelledBy rfl fun _ => id
    obtain ⟨q, hq, -⟩ := hspelled ws _ _ rfl hsame hknown (hgaps.2 hgroups)
    exact ⟨_, spellsAction_delimited_iff.2 ⟨q, hq, rfl⟩⟩

theorem tidied_eq (hblank : ¬ ∃ u ∈ tokenize g.source,
      u.kind ∉ [.comment, .space, .statementOpen, .statementClose]) :
    g.tidied.source = g.source := by
  have hsource : g.tidied.source = Token.spelling (Token.withoutComments (tokenize g.source)) :=
    h.source_tidy
  simp only [not_exists, not_and, Classical.not_not] at hblank
  rw [hsource, Token.withoutComments, if_pos hblank, spelling_tokenize]

end Segment.Holds

/-- Whether an action is still one without its comments: it has nothing else but spaces, and keeps
them, or comments are alone in no group of it, and what is left is read as tokens that are known. -/
def AcceptedWithoutComments (g : Segment) (a : Action) : Prop :=
  (∃ u ∈ tokenize g.source, u.kind ∉ [.comment, .space, .statementOpen, .statementClose]) →
    (∀ h ∈ a.groups, ∃ v ∈ h, v.isComment = false) ∧
      ∀ u ∈ tokenize g.tidied.source, u.kind ≠ .text ∧ u.HasValue

instance (t : Token) : Decidable t.HasValue :=
  decidable_of_iff (t.toVariable?.all (·.isOk) = true) <| by
    unfold Token.HasValue
    cases h : t.toVariable? with
    | none => simp
    | some r => cases r <;> simp [Except.isOk, Except.toBool]

instance (g : Segment) (a : Action) : Decidable (AcceptedWithoutComments g a) :=
  inferInstanceAs (Decidable (_ → _))

theorem SpellsAction.exists_tidied_iff {limit : Nat} {g : Segment} {a : Action}
    (h : SpellsAction limit (tokenize g.source) a) :
    (∃ b, SpellsAction limit (tokenize g.tidied.source) b) ↔ AcceptedWithoutComments g a := by
  obtain ⟨left, us, right, p, hholds, rfl⟩ := spellsAction_iff.1 h
  rw [AcceptedWithoutComments, Action.groups_singleton]
  by_cases hmore : ∃ u ∈ tokenize g.source,
      u.kind ∉ [.comment, .space, .statementOpen, .statementClose]
  · rw [hholds.exists_spellsAction_tidied_iff hmore]
    exact ⟨fun h _ => h, fun h => h hmore⟩
  · rw [hholds.tidied_eq hmore]
    exact ⟨fun _ h' => (hmore h').elim, fun _ => ⟨_, h⟩⟩

theorem SpellsActions.exists_tidied_iff {limit : Nat} {gs : List Segment} {as : List Action}
    (h : SpellsActions limit gs as) :
    (∀ g ∈ gs, ∃ b, SpellsAction limit (tokenize g.tidied.source) b) ↔
      List.Forall₂ AcceptedWithoutComments gs as := by
  induction h with
  | nil => simp
  | cons ha has ih => rw [List.forall_mem_cons, ha.exists_tidied_iff, ih, List.forall₂_cons]

/-- Removing the comments from the text of an accepted template leaves an accepted one exactly if
each of its actions is still one without them. -/
theorem parse_removeComments {file s : Text} {options : Options} {t : Tree}
    (h : parse file s options = .ok t) :
    (∃ u, parse file (removeComments s) options = .ok u) ↔
      List.Forall₂ AcceptedWithoutComments (segments s).1 t.actions := by
  obtain ⟨hclosed, as, has, rfl⟩ := parse_eq_ok.1 h
  have hskips : ∀ g ∈ (segments s).1, Skips '}' (some '}') (Comment.tidy g.inner) :=
    has.skips_tidy carved_of_segments
  rw [exists_parse_iff, segments_removeComments hskips, actions_assemble has]
  simp only [hclosed, true_and, List.forall_mem_map]
  exact has.exists_tidied_iff

theorem parse_removeComments_nested : ∃ u, parse []
    (removeComments "\x7b\x7b f /* c */ | ( g/* d */ 1 ) \x7d\x7d\x7b\x7b /* e */ \x7d\x7d".toList) =
      .ok u := by
  have haccepted : ((parse []
      "\x7b\x7b f /* c */ | ( g/* d */ 1 ) \x7d\x7d\x7b\x7b /* e */ \x7d\x7d".toList).toOption.any
      fun t => decide (List.Forall₂ AcceptedWithoutComments (segments
        "\x7b\x7b f /* c */ | ( g/* d */ 1 ) \x7d\x7d\x7b\x7b /* e */ \x7d\x7d".toList).1
          t.actions)) = true := by decide +kernel
  obtain ⟨t, ht⟩ : ∃ t, parse []
      "\x7b\x7b f /* c */ | ( g/* d */ 1 ) \x7d\x7d\x7b\x7b /* e */ \x7d\x7d".toList = .ok t :=
    Except.exists_of_isOk (by decide +kernel)
  rw [ht] at haccepted
  exact (parse_removeComments ht).2 (of_decide_eq_true haccepted)

/-- Not every accepted template stays accepted: the last stage of this one is a comment, and without
it there is nothing after the pipe. -/
theorem parse_removeComments_ne : ¬ ∀ (s : Text) (t : Tree), parse [] s = .ok t →
    ∃ u, parse [] (removeComments s) = .ok u := by
  intro h
  obtain ⟨t, ht⟩ : ∃ t, parse [] "\x7b\x7b x |/* c */\x7d\x7d".toList = .ok t :=
    Except.exists_of_isOk (by decide +kernel)
  have hrefused :
      (parse [] (removeComments "\x7b\x7b x |/* c */\x7d\x7d".toList)).isOk = false := by
    decide +kernel
  obtain ⟨u, hu⟩ := h _ t ht
  rw [hu] at hrefused
  cases hrefused

end Stencil
