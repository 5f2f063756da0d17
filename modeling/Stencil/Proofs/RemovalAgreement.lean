import Stencil.Proofs.CommentTokens
import Stencil.Proofs.PrunedTokens
import Stencil.Tree.Groups

namespace Stencil

namespace Token

theorem pruneBetween_subset {stay : Bool} {before after : Option TokenKind} {ts : List Token} :
    ∀ t ∈ pruneBetween stay before after ts, t ∈ ts := by
  induction ts generalizing before with
  | nil => exact fun _ => id
  | cons t ts ih =>
    intro u hu
    rw [pruneBetween] at hu
    split at hu
    · exact List.mem_cons_of_mem t (ih u hu)
    · exact (List.mem_cons.1 hu).elim (fun h => h ▸ List.mem_cons_self)
        fun h => List.mem_cons_of_mem t (ih u h)

end Token

def Phrase.PrunedBare (ts : List Token) : Phrase → Prop
  | .variable v => ∀ before after, (v.isComment = true → Token.alone before after = false) →
      (∀ g ∈ v.groups, g.isLoneComment = false) →
      Token.pruneBetween true before after ts = ts.filter (·.kind != .comment)
  | .group g => ∀ before after, (g.isLoneComment = true → Token.alone before after = false) →
      (∀ h ∈ Group.inner g, h.isLoneComment = false) →
      Token.pruneBetween true before after ts = ts.filter (·.kind != .comment)
  | .pipeline p => ∀ before after, (∀ g ∈ p.groups, g.isLoneComment = false) →
      Token.pruneBetween true before after ts = ts.filter (·.kind != .comment)

theorem Token.filter_of_no_comment {ts : List Token} (h : ∀ t ∈ ts, t.kind ≠ .comment) :
    ts.filter (·.kind != .comment) = ts :=
  List.filter_eq_self.2 fun t ht => bne_iff_ne.2 (h t ht)

theorem Spells.prunedBare {n : Nat} {ts : List Token} {x : Phrase} (h : Spells n ts x) :
    x.PrunedBare ts := by
  induction h with
  | @token n t v h =>
    intro before after halone _
    by_cases hc : t.kind = .comment
    · have hv : v.isComment = true :=
        Variable.isComment_iff.2 ((Token.variableKind_of_toVariable? h).trans hc)
      simp [Token.pruneBetween, hc, halone hv]
    · rw [Token.pruneBetween_of_no_comment (by simpa using hc),
        Token.filter_of_no_comment (by simpa using hc)]
  | @space n ts hne h =>
    intro before after _ _
    have hplain : ∀ t ∈ ts, t.kind ≠ .comment := fun t ht => by simp [h t ht]
    rw [Token.pruneBetween_of_no_comment hplain, Token.filter_of_no_comment hplain]
  | @grouping n o c ts p ho hc h ih =>
    intro before after _ hgroups
    rw [Token.pruneBetween_enclosed (by simp [ho]) (by simp [hc]), ih _ _ hgroups]
    simp [ho, hc]
  | nil => exact fun before after _ _ => rfl
  | @cons n ts us v g hv hg hs ihv ihg =>
    intro before after halone hgroups
    simp only [Group.inner, List.forall_mem_append] at hgroups
    rw [Token.pruneBetween_append, List.filter_append]
    obtain ⟨rfl, rfl⟩ | ⟨u, us, w, g, rfl, rfl, hb, -⟩ := hg.group_head
    · rw [ihv _ _ (fun hc => ?_) hgroups.1]
      · rfl
      · cases v with
        | comment text => exact halone rfl
        | _ => cases hc
    · obtain ⟨t, hlast, ht⟩ := hv.variable_last
      rw [ihv _ _ (fun _ => ?_) hgroups.1, ihg _ _ (fun _ => ?_) hgroups.2]
      · simp [Token.alone, hlast, ht]
      · simp [Token.alone, Token.closesGroup_of_begins hb]
  | stage hg hne ih =>
    intro before after hgroups
    rw [Pipeline.groups, List.forall_mem_cons] at hgroups
    exact ih before after (fun h => by simp [hgroups.1] at h) hgroups.2
  | @piped n t ts us g p hg hne ht hp ihg ihp =>
    intro before after hgroups
    rw [Pipeline.groups, List.cons_append, List.forall_mem_cons, List.forall_mem_append] at hgroups
    rw [Token.pruneBetween_append, Token.pruneBetween_cons_of_ne (by simp [ht]),
      ihg _ _ (fun h => by simp [hgroups.1] at h) hgroups.2.1, ihp _ _ hgroups.2.2]
    simp [ht]

theorem Action.groups_singleton (opener closer : Text) (p : Pipeline) :
    Action.groups ⟨opener, [p], closer⟩ = p.groups := by
  simp [Action.groups, Pipelines.groups]

/-- Whether both ways to remove comments do the same in the action: it has no comment, or nothing
but one, or something else and no group that is a comment alone. -/
def AgreesOnComments (ts : List Token) (a : Action) : Prop :=
  (∀ t ∈ ts, t.kind ≠ .comment) ∨ ts.map (·.kind) = [.statementOpen, .comment, .statementClose] ∨
    (∃ t ∈ ts, t.kind ∉ [.comment, .space, .statementOpen, .statementClose]) ∧
      ∀ g ∈ a.groups, g.isLoneComment = false

instance (ts : List Token) (a : Action) : Decidable (AgreesOnComments ts a) :=
  inferInstanceAs (Decidable (_ ∨ _ ∨ _))

theorem SpellsAction.prune_eq {limit : Nat} {ts : List Token} {a : Action}
    (h : SpellsAction limit ts a) (hagrees : AgreesOnComments ts a) :
    Token.prune ts = Token.withoutComments ts := by
  obtain hplain | hlone | ⟨⟨t, ht, hkind⟩, hgroups⟩ := hagrees
  · rw [Token.prune, Token.pruneBetween_of_no_comment hplain, Token.withoutComments,
      Token.filter_of_no_comment hplain, ite_self]
  · obtain ⟨o, ts, rfl, ho, hlone⟩ := List.map_eq_cons_iff.1 hlone
    obtain ⟨t, ts, rfl, ht, hlone⟩ := List.map_eq_cons_iff.1 hlone
    obtain ⟨c, ts, rfl, hc, hnil⟩ := List.map_eq_cons_iff.1 hlone
    obtain rfl := List.map_eq_nil_iff.1 hnil
    rw [Token.withoutComments, if_pos (by simp [ho, ht, hc])]
    simp [Token.prune, Token.pruneBetween, Token.alone, ho, ht, hc, TokenKind.opensGroup,
      TokenKind.closesGroup]
  · rw [Token.withoutComments, if_neg fun hall => hkind (hall t ht)]
    obtain ⟨o, c, us, p, ho, hc, hp, rfl, rfl⟩ := h
    rw [Action.groups_singleton] at hgroups
    rw [Token.prune, Token.pruneBetween_enclosed (by simp [ho]) (by simp [hc]),
      hp.prunedBare _ _ hgroups]
    simp [ho, hc]

/-- Pruning the tree of a template in canonical spelling and removing comments from its text are the
same if they are so in each of its actions. -/
theorem pruneComments_eq_removeComments {file s : Text} {t : Tree} (h : parse file s = .ok t)
    (hcanonical : ∀ g ∈ (segments s).1, ∀ u ∈ tokenize g.source, u.canonical = u.text)
    (hagrees : List.Forall₂ (fun g a => AgreesOnComments (tokenize g.source) a)
      (segments s).1 t.actions) :
    pruneComments s = .ok (removeComments s) := by
  rw [pruneComments_eq file, h, removeComments_of_parse h]
  obtain ⟨-, as, has, rfl⟩ := parse_eq_ok.1 h
  rw [actions_assemble has] at hagrees
  have hprune : List.Forall₂ (fun g a =>
      Token.prune (tokenize g.source) = Token.withoutComments (tokenize g.source) ∧
        SpellsAction ({} : Options).maxDepth (tokenize g.source) a) (segments s).1 as :=
    List.Forall₂.mp (fun _ _ ha hga => ⟨ha.prune_eq hga, ha⟩) has hagrees
  refine congrArg Except.ok (rewriteActions_congr fun g hg => ?_)
  rw [← ((List.forall₂_and_left ..).1 hprune).1 g hg]
  exact List.flatMap_congr fun u hu => hcanonical g hg u (Token.pruneBetween_subset u hu)

theorem pruneComments_eq_removeComments_nested :
    pruneComments "\x7b\x7b f /* c */ | ( g \"/* d */\"/* e */ ) \x7d\x7d\x7b\x7b/* h */\x7d\x7d a".toList =
      .ok (removeComments
        "\x7b\x7b f /* c */ | ( g \"/* d */\"/* e */ ) \x7d\x7d\x7b\x7b/* h */\x7d\x7d a".toList) := by
  have hagrees : ((parse []
      "\x7b\x7b f /* c */ | ( g \"/* d */\"/* e */ ) \x7d\x7d\x7b\x7b/* h */\x7d\x7d a".toList).toOption.any
      fun t => decide (List.Forall₂ (fun g a => AgreesOnComments (tokenize g.source) a)
        (segments "\x7b\x7b f /* c */ | ( g \"/* d */\"/* e */ ) \x7d\x7d\x7b\x7b/* h */\x7d\x7d a".toList).1
        t.actions)) = true := by decide +kernel
  obtain ⟨t, ht⟩ : ∃ t, parse []
      "\x7b\x7b f /* c */ | ( g \"/* d */\"/* e */ ) \x7d\x7d\x7b\x7b/* h */\x7d\x7d a".toList = .ok t :=
    Except.exists_of_isOk (by decide +kernel)
  rw [ht] at hagrees
  exact pruneComments_eq_removeComments ht (by decide +kernel) (of_decide_eq_true hagrees)

end Stencil
